import DirtybirdMiner.Args.Extents

/-!
What the decoder makes of encoded values: every piece that the encoder writes is
accepted by the validator and read back by the parser, wherever it stands in the
data.
-/

namespace DirtybirdMiner.Args.Decoding

open DirtybirdMiner.Lib
open DirtybirdMiner.Lib.Bytes
open DirtybirdMiner.Lib.Buffers
open DirtybirdMiner.Lib.Floats
open DirtybirdMiner.Lib.Programs
open DirtybirdMiner.Lib.Programs.Prog
open DirtybirdMiner.Lib.Utf8
open DirtybirdMiner.Args.Encoding
open DirtybirdMiner.Args.Times
open DirtybirdMiner.Args.Validator
open DirtybirdMiner.Args.Parser
open DirtybirdMiner.Args.Arguments
open DirtybirdMiner.Args.WellFormed
open DirtybirdMiner.Args.Extents

variable {data : List UInt8}

section Places

/-- The bytes stand in the data at an offset. -/
def At (data : List UInt8) (o : Nat) (bytes : List UInt8) : Prop :=
  ∃ rest, data.drop o = bytes ++ rest

theorem At.left {o : Nat} {s t : List UInt8} (h : At data o (s ++ t)) : At data o s := by
  obtain ⟨rest, hrest⟩ := h
  exact ⟨t ++ rest, by rw [hrest, List.append_assoc]⟩

theorem At.right {o : Nat} {s t : List UInt8} (h : At data o (s ++ t)) :
    At data (o + s.length) t := by
  obtain ⟨rest, hrest⟩ := h
  refine ⟨rest, ?_⟩
  rw [← List.drop_drop, hrest, List.append_assoc, List.drop_left]

theorem At.tail {o : Nat} {b : UInt8} {t : List UInt8} (h : At data o (b :: t)) :
    At data (o + 1) t := by
  rw [← List.singleton_append] at h
  exact h.right

theorem At.head {o : Nat} {b : UInt8} {t : List UInt8} (h : At data o (b :: t)) :
    data[o]? = some b := by
  obtain ⟨rest, hrest⟩ := h
  have hget := congrArg (·[0]?) hrest
  simpa using hget

theorem At.slice {o : Nat} {bytes : List UInt8} (h : At data o bytes) :
    slice data o bytes.length = bytes := by
  obtain ⟨rest, hrest⟩ := h
  rw [Bytes.slice, hrest, List.take_left]

theorem At.le {o : Nat} {bytes : List UInt8} (h : At data o bytes) (hne : bytes ≠ []) :
    o + bytes.length ≤ data.length := by
  obtain ⟨rest, hrest⟩ := h
  have hlen := congrArg List.length hrest
  have hpos := List.length_pos_iff.mpr hne
  simp at hlen
  omega

end Places

section Heads

/-- A number fits the head that the additional information announces. -/
def Fits (ai n : Nat) : Prop := (ai < 24 ∧ n = ai) ∨ (width ai ≠ 0 ∧ n < 256 ^ width ai)

/-- A head with its number in as many bytes as the additional information says. -/
def headBytes (major ai n : Nat) : List UInt8 :=
  UInt8.ofNat (32 * major + ai) :: beBytes (width ai) n

theorem width_of_lt {ai : Nat} (h : ai < 24) : width ai = 0 := by
  unfold width
  rw [if_neg (by omega), if_neg (by omega), if_neg (by omega), if_neg (by omega)]

theorem lt_of_width {ai : Nat} (h : width ai ≠ 0) : 24 ≤ ai ∧ ai ≤ 27 := by
  unfold width at h
  split_ifs at h <;> omega

theorem Fits.lt {ai n : Nat} (h : Fits ai n) : ai < 28 := by
  rcases h with ⟨h, -⟩ | ⟨h, -⟩
  · omega
  · have := lt_of_width h
    omega

@[simp] theorem headBytes_length (major ai n : Nat) :
    (headBytes major ai n).length = 1 + width ai := by
  simp [headBytes, Nat.add_comm]

/-- The encoder takes the shortest head. -/
theorem encHead_eq (major : Nat) {n : Nat} (h : n < 2 ^ 64) :
    ∃ ai, Fits ai n ∧ encHead major n = headBytes major ai n := by
  unfold encHead
  split_ifs with h24 h8 h16 h32
  · exact ⟨n, .inl ⟨h24, rfl⟩, by rw [headBytes, width_of_lt h24]; rfl⟩
  · exact ⟨24, .inr ⟨by decide, h8⟩, rfl⟩
  · exact ⟨25, .inr ⟨by decide, h16⟩, rfl⟩
  · exact ⟨26, .inr ⟨by decide, h32⟩, rfl⟩
  · exact ⟨27, .inr ⟨by decide, h⟩, rfl⟩

theorem encHead_ne_nil (major n : Nat) : encHead major n ≠ [] := by
  unfold encHead
  split_ifs <;> simp

theorem head_of_at {o major ai n : Nat} (h : At data o (headBytes major ai n)) (hmajor : major < 8)
    (hfits : Fits ai n) : Head data o major ai n (o + (headBytes major ai n).length) := by
  have hai := hfits.lt
  have hle := h.le (by simp [headBytes])
  have hbyte : (UInt8.ofNat (32 * major + ai)).toNat = 32 * major + ai := by
    rw [UInt8.toNat_ofNat']
    omega
  refine ⟨⟨UInt8.ofNat (32 * major + ai), h.head, by omega, by omega⟩, ?_, ?_, hle⟩
  · rcases hfits with ⟨h24, rfl⟩ | ⟨hwidth, hlt⟩
    · rw [width_of_lt h24, if_pos rfl]
    · have hslice := h.tail.slice
      rw [beBytes_length] at hslice
      rw [if_neg hwidth, hslice, beValue_beBytes, Nat.mod_eq_of_lt hlt]
  · rw [headBytes_length]
    omega

/-- The validator accepts a head that is not a badly encoded simple value. -/
theorem validHead_of_head {o t ai val stop : Nat} (head : Head data o t ai val stop)
    (hai : ai < 28 ∨ (ai = 31 ∧ 2 ≤ t ∧ t ≤ 5)) (hsimple : ¬(t = 7 ∧ ai = 24)) :
    validHead data o = some (.ok (t, ai, val), stop) := by
  obtain ⟨⟨b, hb, rfl, rfl⟩, rfl, rfl, hfits⟩ := head
  have hlt := (List.getElem?_eq_some_iff.mp hb).1
  have hnumber : validNumber data (data.length - o) (b.toNat / 32) (b.toNat % 32) (o + 1) =
      some (.ok (if width (b.toNat % 32) = 0 then b.toNat % 32
        else beValue (slice data (o + 1) (width (b.toNat % 32)))),
        o + 1 + width (b.toNat % 32)) := by
    unfold validNumber width at *
    generalize b.toNat / 32 = t at *
    generalize b.toNat % 32 = ai at *
    by_cases h24 : ai = 24
    · subst h24
      simp only [if_true] at hfits ⊢
      rw [if_neg (by omega), if_neg (by omega), bind_ok (number_of_le hfits), if_neg (by omega)]
      rfl
    · split_ifs at * <;> first | omega | rfl | exact number_of_le hfits
  rw [validHead, get_bind_apply, if_pos hlt.le, demand_some, Prog.pure_bind, if_neg (by omega),
    bind_ok (peek_of_eq hb)]
  simp only [set_bind_apply]
  rw [bind_ok hnumber]
  rfl

end Heads

section Floats

/-- Every NaN becomes one NaN. -/
def canonicalFloat (f : UInt64) : UInt64 :=
  if binary64.isNan f.toNat then 0x7ff8000000000000 else f

/-- What the parser makes of the bits of a float of each width. -/
def floatOf (ai n : Nat) : UInt64 :=
  if ai = 25 then UInt64.ofNat (widen (f16BitsToF32 (UInt16.ofNat n)).toNat)
  else if ai = 26 then UInt64.ofNat (widen n)
  else UInt64.ofNat n

theorem eq_of_isInfinite {f : UInt64} (h : binary64.isInfinite f.toNat = true) :
    f = 0x7ff0000000000000 ∨ f = 0xfff0000000000000 := by
  have hlt := f.toNat_lt
  obtain ⟨hexponent, hfraction⟩ :
      f.toNat / 2 ^ 52 % 2 ^ 11 = 2 ^ 11 - 1 ∧ f.toNat % 2 ^ 52 = 0 := of_decide_eq_true h
  have hbits : f.toNat = 0x7ff0000000000000 ∨ f.toNat = 0xfff0000000000000 := by omega
  rcases hbits with hbits | hbits
  · exact .inl (UInt64.toNat_inj.mp hbits)
  · exact .inr (UInt64.toNat_inj.mp hbits)

theorem eq_of_isZero {f : UInt64} (h : binary64.isZero f.toNat = true) :
    f = 0 ∨ f = 0x8000000000000000 := by
  have hlt := f.toNat_lt
  obtain ⟨hexponent, hfraction⟩ :
      f.toNat / 2 ^ 52 % 2 ^ 11 = 0 ∧ f.toNat % 2 ^ 52 = 0 := of_decide_eq_true h
  have hbits : f.toNat = 0 ∨ f.toNat = 0x8000000000000000 := by omega
  rcases hbits with hbits | hbits
  · exact .inl (UInt64.toNat_inj.mp hbits)
  · exact .inr (UInt64.toNat_inj.mp hbits)

theorem isZero_widen {x : UInt32} (h : binary32.isZero x.toNat = true) :
    binary64.isZero (widen x.toNat) = true := by
  have hlt := x.toNat_lt
  obtain ⟨hexponent, hfraction⟩ :
      x.toNat / 2 ^ 23 % 2 ^ 8 = 0 ∧ x.toNat % 2 ^ 23 = 0 := of_decide_eq_true h
  have hbits : x.toNat = 0 ∨ x.toNat = 0x80000000 := by omega
  rcases hbits with hbits | hbits
  · rw [hbits]
    decide +kernel
  · rw [hbits]
    decide +kernel

/-- The head of an encoded float, and that its bits stand for the float. -/
theorem encFloat_eq (f : UInt64) :
    ∃ ai n, (ai = 25 ∨ ai = 26 ∨ ai = 27) ∧ n < 256 ^ width ai ∧
      encFloat f = headBytes 7 ai n ∧ floatOf ai n = canonicalFloat f := by
  by_cases hzero : binary64.isZero f.toNat = true
  · rcases eq_of_isZero hzero with rfl | rfl
    · exact ⟨25, 0, by decide, by decide, by decide +kernel, by decide +kernel⟩
    · exact ⟨25, 0x8000, by decide, by decide, by decide +kernel, by decide +kernel⟩
  by_cases hinf : binary64.isInfinite f.toNat = true
  · rcases eq_of_isInfinite hinf with rfl | rfl
    · exact ⟨25, 0x7c00, by decide, by decide, by decide +kernel, by decide +kernel⟩
    · exact ⟨25, 0xfc00, by decide, by decide, by decide +kernel, by decide +kernel⟩
  unfold encFloat canonicalFloat
  rw [if_neg hinf]
  dsimp only
  split_ifs with hnan hwide hhalf
  · exact ⟨25, 0x7e00, by decide, by decide, by decide, by decide +kernel⟩
  · -- neither zero nor infinite: equal numbers have equal bits
    have hf : widen (UInt32.ofNat (narrow f.toNat)).toNat = f.toNat := by
      rcases Format.equal_cases hwide with hf | ⟨-, hf⟩
      · exact hf
      · exact absurd hf hzero
    have hf32 : (f16BitsToF32 (f32ToF16Bits (UInt32.ofNat (narrow f.toNat)))).toNat =
        (UInt32.ofNat (narrow f.toNat)).toNat := by
      rcases Format.equal_cases hhalf with hf32 | ⟨-, hf32⟩
      · exact hf32
      · have hzero32 := isZero_widen hf32
        rw [hf] at hzero32
        exact absurd hzero32 hzero
    refine ⟨25, (f32ToF16Bits (UInt32.ofNat (narrow f.toNat))).toNat, .inl rfl,
      UInt16.toNat_lt _, rfl, ?_⟩
    rw [floatOf, if_pos rfl, UInt16.ofNat_toNat, hf32, hf, UInt64.ofNat_toNat]
  · have hf : widen (UInt32.ofNat (narrow f.toNat)).toNat = f.toNat := by
      rcases Format.equal_cases hwide with hf | ⟨-, hf⟩
      · exact hf
      · exact absurd hf hzero
    refine ⟨26, (UInt32.ofNat (narrow f.toNat)).toNat, .inr (.inl rfl), UInt32.toNat_lt _, rfl, ?_⟩
    rw [floatOf, if_neg (by omega), if_pos rfl, hf, UInt64.ofNat_toNat]
  · refine ⟨27, f.toNat, .inr (.inr rfl), f.toNat_lt, rfl, ?_⟩
    rw [floatOf, if_neg (by omega), if_neg (by omega), UInt64.ofNat_toNat]

end Floats

section Values

/-- A value stands between two offsets: the validator accepts it at any depth, and
the parser reads it, with recursions as deep as the level. -/
structure Decodes (data : List UInt8) (level o e : Nat) (v : Cval) : Prop where
  valid : ∀ fuel depth, validInternal data (fuel + level) depth o = some (.ok depth, e)
  strip : stripSelfDescribed data o = some (.ok (), o)
  value : ∀ fuel, parse data (fuel + level) false o = some (.ok v, e)

variable {o e : Nat}

theorem Decodes.item {level : Nat} {v : Cval} (h : Decodes data level o e v) : Item data o e :=
  validInternal_item (h.valid 0 0)

theorem Decodes.lift {v : Cval} (h : Decodes data 1 o e v) : Decodes data 2 o e v :=
  ⟨fun fuel depth => h.valid (fuel + 1) depth, h.strip, fun fuel => h.value (fuel + 1)⟩

theorem Decodes.parseValue {level : Nat} {v : Cval} (h : Decodes data level o e v) (fuel : Nat) :
    parseValue data (fuel + level) o = some (.ok v, e) := by
  rw [Parser.parseValue, bind_ok h.strip]
  exact h.value fuel

section Untagged

variable {t ai val stop : Nat} (head : Head data o t ai val stop) (ht : t ≠ 6)
include head ht

theorem stripSelfDescribed_untagged : stripSelfDescribed data o = some (.ok (), o) := by
  rw [stripSelfDescribed, loop, bind_ok (a := .inr ()) (t := o)]
  · rfl
  · rw [bind_ok head.nextMajor, if_pos ht]
    rfl

theorem checkBuiltinTag_untagged : checkBuiltinTag data o = some (.ok (), o) := by
  rw [checkBuiltinTag, bind_ok head.nextMajor, if_neg ht]
  rfl

theorem parse_untagged (fuel : Nat) (b : Bool) :
    parse data (fuel + 1) b o = parseItem data (parse data fuel) o := by
  rw [parse]
  cases b with
  | true =>
      rw [if_pos rfl, bind_ok (stripSelfDescribed_untagged head ht)]
      exact bind_ok (checkBuiltinTag_untagged head ht)
  | false =>
      rw [if_neg Bool.false_ne_true]
      exact bind_ok (checkBuiltinTag_untagged head ht)

end Untagged

theorem decodes_positive {ai n : Nat} (head : Head data o 0 ai n e) (hai : ai < 28) :
    Decodes data 1 o e (.u64 (UInt64.ofNat n)) := by
  constructor
  · intro fuel depth
    rw [validInternal, bind_ok (validHead_of_head head (.inl hai) (by omega))]
    rfl
  · exact stripSelfDescribed_untagged head (by omega)
  · intro fuel
    rw [parse_untagged head (by omega), parseItem, bind_ok head.nextMajor, if_pos rfl,
      bind_ok head.getHead]
    rfl

theorem decodes_negative {ai n : Nat} (head : Head data o 1 ai n e) (hai : ai < 28)
    (hn : n < 2 ^ 63) : Decodes data 1 o e (.i64 (Int64.ofInt (-1 - n))) := by
  constructor
  · intro fuel depth
    rw [validInternal, bind_ok (validHead_of_head head (.inl hai) (by omega))]
    rfl
  · exact stripSelfDescribed_untagged head (by omega)
  · intro fuel
    rw [parse_untagged head (by omega), parseItem, bind_ok head.nextMajor, if_neg (by omega),
      if_pos rfl, bind_ok head.getHead]
    dsimp only
    rw [if_neg (by omega)]
    rfl

theorem decodes_primitive {ai n : Nat} (head : Head data o 7 ai n e)
    (hai : ai = 25 ∨ ai = 26 ∨ ai = 27) : Decodes data 1 o e (.f64 (floatOf ai n)) := by
  constructor
  · intro fuel depth
    rw [validInternal, bind_ok (validHead_of_head head (by omega) (by omega))]
    rfl
  · exact stripSelfDescribed_untagged head (by omega)
  · intro fuel
    rw [parse_untagged head (by omega), parseItem, bind_ok head.nextMajor]
    change parsePrimitive data o = _
    rw [parsePrimitive, bind_ok head.getHead]
    rcases hai with rfl | rfl | rfl <;> rfl

/-- A string in one piece. -/
theorem validInternal_string {t ai val stop : Nat} (head : Head data o t ai val stop)
    (ht : t = 2 ∨ t = 3) (hai : ai < 28) (hval : val < 2 ^ 63) (he : e = stop + val)
    (hle : e ≤ data.length) (fuel depth : Nat) :
    validInternal data (fuel + 1) depth o = some (.ok depth, e) := by
  rw [validInternal, bind_ok (validHead_of_head head (.inl hai) (by omega))]
  dsimp only
  rw [if_pos ht, validString, if_neg (by omega), if_neg (by omega), get_bind_apply,
    if_neg (by omega), he]
  rfl

/-- The head and the bytes of a string. -/
theorem string_of_at {major : Nat} {b : List UInt8}
    (h : At data o (encHead major b.length ++ b)) (hmajor : major < 8) (hb : b.length < 2 ^ 63) :
    ∃ ai stop, Head data o major ai b.length stop ∧ ai < 28 ∧
      o + (encHead major b.length ++ b).length = stop + b.length ∧
      stop + b.length ≤ data.length ∧ slice data stop b.length = b := by
  obtain ⟨ai, hfits, hhead⟩ := encHead_eq major (n := b.length) (by omega)
  rw [hhead] at h ⊢
  have head := head_of_at h.left hmajor hfits
  refine ⟨ai, _, head, hfits.lt, by rw [List.length_append]; omega, ?_, h.right.slice⟩
  have hle := h.le (by simp [headBytes])
  rw [List.length_append] at hle
  omega

theorem decodes_bytes {b : List UInt8} (h : At data o (encBytes b)) (hb : b.length < 2 ^ 63) :
    Decodes data 1 o (o + (encBytes b).length) (.bytes b) := by
  obtain ⟨ai, stop, head, hai, he, hle, hslice⟩ := string_of_at h (by omega) hb
  rw [encBytes, he]
  constructor
  · intro fuel depth
    exact validInternal_string head (.inl rfl) hai hb rfl hle fuel depth
  · exact stripSelfDescribed_untagged head (by omega)
  · intro fuel
    have hbytes : parseByteString data o = some (.ok b, stop + b.length) := by
      rw [parseByteString, bind_ok head.getHead]
      dsimp only
      rw [if_pos (by omega), take_of_le hle, hslice]
    rw [parse_untagged head (by omega), parseItem, bind_ok head.nextMajor, if_neg (by omega),
      if_neg (by omega), if_pos rfl, bind_ok hbytes]
    rfl

theorem parseTextString_of_at {s : Text} {ai stop : Nat}
    (head : Head data o 3 ai s.bytes.length stop) (hai : ai < 28)
    (hle : stop + s.bytes.length ≤ data.length) (hslice : slice data stop s.bytes.length = s.bytes) :
    parseTextString data o = some (.ok s, stop + s.bytes.length) := by
  rw [parseTextString, bind_ok head.getHead]
  dsimp only
  rw [if_pos (by omega), bind_ok (take_of_le hle), hslice, fromUtf8_bytes]
  rfl

theorem decodes_text {s : Text} (h : At data o (encText s)) (hs : s.bytes.length < 2 ^ 63) :
    Decodes data 1 o (o + (encText s).length) (.text s) := by
  obtain ⟨ai, stop, head, hai, he, hle, hslice⟩ := string_of_at h (by omega) hs
  rw [encText, he]
  constructor
  · intro fuel depth
    exact validInternal_string head (.inr rfl) hai hs rfl hle fuel depth
  · exact stripSelfDescribed_untagged head (by omega)
  · intro fuel
    rw [parse_untagged head (by omega), parseItem, bind_ok head.nextMajor, if_neg (by omega),
      if_neg (by omega), if_neg (by omega), if_pos rfl,
      bind_ok (parseTextString_of_at head hai hle hslice)]
    rfl

/-- A text as the key of an entry. -/
theorem parseKey_of_at {s : Text} (h : At data o (encText s)) (hs : s.bytes.length < 2 ^ 63)
    (fuel : Nat) (slot : Text) :
    parseKey data (fuel + 1) slot o = some (.ok s, o + (encText s).length) := by
  obtain ⟨ai, stop, head, hai, he, hle, hslice⟩ := string_of_at h (by omega) hs
  rw [encText, he, parseKey, bind_ok (stripSelfDescribed_untagged head (by omega)),
    bind_ok (checkBuiltinTag_untagged head (by omega)), bind_ok head.nextMajor,
    if_neg (by omega), if_neg (by omega), if_neg (by omega), if_pos rfl]
  exact parseTextString_of_at head hai hle hslice

/-- What an integer comes back as. -/
def intCval (i : Int64) : Cval :=
  if 0 ≤ i.toInt then .u64 (UInt64.ofNat i.toInt.toNat) else .i64 i

theorem toInt64_of_nonneg {i : Int64} (h : 0 ≤ i.toInt) :
    (UInt64.ofNat i.toInt.toNat).toInt64 = i := by
  rw [UInt64.toInt64_ofNat', ← Int64.ofInt_eq_ofNat, Int.toNat_of_nonneg h, Int64.ofInt_toInt]

theorem decodes_int {i : Int64} (h : At data o (encInt i)) :
    Decodes data 1 o (o + (encInt i).length) (intCval i) := by
  have hlow := i.le_toInt
  have hhigh := i.toInt_lt
  unfold encInt intCval at *
  split_ifs at h ⊢ with hsign
  · obtain ⟨ai, hfits, hhead⟩ := encHead_eq 0 (n := i.toInt.toNat) (by omega)
    rw [hhead] at h ⊢
    exact decodes_positive (head_of_at h (by omega) hfits) hfits.lt
  · obtain ⟨ai, hfits, hhead⟩ := encHead_eq 1 (n := (-1 - i.toInt).toNat) (by omega)
    rw [hhead] at h ⊢
    have hdec := decodes_negative (head_of_at h (by omega) hfits) hfits.lt (by omega)
    have hval : Int64.ofInt (-1 - ((-1 - i.toInt).toNat : Int)) = i := by
      rw [Int.toNat_of_nonneg (by omega), show -1 - (-1 - i.toInt) = i.toInt by omega]
      exact Int64.ofInt_toInt i
    rwa [hval] at hdec

/-- The first byte of an integer. -/
theorem encInt_head {i : Int64} (h : At data o (encInt i)) :
    ∃ t ai val stop, Head data o t ai val stop ∧ (t = 0 ∨ t = 1) := by
  have hlow := i.le_toInt
  have hhigh := i.toInt_lt
  unfold encInt at h
  split_ifs at h with hsign
  · obtain ⟨ai, hfits, hhead⟩ := encHead_eq 0 (n := i.toInt.toNat) (by omega)
    rw [hhead] at h
    exact ⟨_, _, _, _, head_of_at h (by omega) hfits, .inl rfl⟩
  · obtain ⟨ai, hfits, hhead⟩ := encHead_eq 1 (n := (-1 - i.toInt).toNat) (by omega)
    rw [hhead] at h
    exact ⟨_, _, _, _, head_of_at h (by omega) hfits, .inr rfl⟩

theorem decodes_time {secs : Int64} (h : At data o (0xc1 :: encInt secs)) :
    Decodes data 2 o (o + (0xc1 :: encInt secs).length) (.time secs) := by
  have htag : At data o (headBytes 6 1 1) := (show At data o ([0xc1] ++ encInt secs) from h).left
  have tag : Head data o 6 1 1 (o + 1) := head_of_at htag (by omega) (.inl ⟨by omega, rfl⟩)
  obtain ⟨t, ai, val, stop, head, ht⟩ := encInt_head h.tail
  obtain ⟨b, hb, hbt, -⟩ := head.byte
  have hint := decodes_int h.tail
  rw [show o + (0xc1 :: encInt secs).length = o + 1 + (encInt secs).length by
    simp only [List.length_cons]; omega]
  constructor
  · intro fuel depth
    have hlt := (List.getElem?_eq_some_iff.mp hb).1
    have htags : validTags data depth (o + 1) = some (.ok depth, o + 1) := by
      rw [validTags, loop, bind_ok (a := .inr depth) (t := o + 1)]
      · rfl
      · rw [tagTurn, get_bind_apply, if_neg (by omega), bind_ok (peek_of_eq hb), if_pos (by omega)]
        rfl
    rw [validInternal, bind_ok (validHead_of_head tag (by omega) (by omega))]
    dsimp only
    rw [if_neg (by omega), if_neg (by omega), if_pos rfl, bind_ok htags]
    exact hint.valid fuel depth
  · rw [stripSelfDescribed, loop, bind_ok (a := .inr ()) (t := o)]
    · rfl
    · rw [bind_ok tag.nextMajor, if_neg (by omega), get_bind_apply, bind_ok tag.getHead]
      rfl
  · intro fuel
    have hcheck : checkBuiltinTag data o = some (.ok (), o) := by
      have hvalid : validBuiltinTag 1 b = .ok () := by
        rw [validBuiltinTag, if_neg (by omega), if_pos rfl, if_neg (by omega)]
      rw [checkBuiltinTag, bind_ok tag.nextMajor, if_pos rfl, get_bind_apply, bind_ok tag.getHead]
      dsimp only
      rw [bind_ok (peek_of_eq hb), hvalid]
      rfl
    have htime : parseToTime data (parse data (fuel + 1)) o =
        some (.ok secs, o + 1 + (encInt secs).length) := by
      rw [parseToTime, bind_ok tag.getHead, bind_ok (hint.value fuel)]
      unfold intCval
      split_ifs with hsign
      · change some (Except.ok (UInt64.ofNat secs.toInt.toNat).toInt64, _) = _
        rw [toInt64_of_nonneg hsign]
      · rfl
    rw [parse, if_neg Bool.false_ne_true]
    change (checkBuiltinTag data >>= fun _ => parseItem data (parse data (fuel + 1))) o = _
    rw [bind_ok hcheck, parseItem, bind_ok tag.nextMajor]
    change parseTag data (parse data (fuel + 1)) o = _
    rw [parseTag, get_bind_apply, bind_ok tag.getHead]
    dsimp only
    rw [if_pos (.inr rfl), set_bind_apply, bind_ok htime]
    rfl

/-- A text in the data is no longer than the data. -/
theorem encText_short {s : Text} (h : At data o (encText s)) (hdata : data.length < 2 ^ 63) :
    s.bytes.length < 2 ^ 63 := by
  have hle := h.le (by simp [encText, encHead_ne_nil])
  rw [encText, List.length_append] at hle
  omega

/-- What an encoded value is read back as. -/
def cvalOf : ArgValue → Cval
  | .uint64 u => .u64 u
  | .int64 i => intCval i
  | .str s => .text s
  | .hash h => .bytes h.1
  | .address a => .bytes a.1
  | .float64 f => .f64 (canonicalFloat f)
  | .time secs => .time secs

theorem decodes_value {v : ArgValue} (h : At data o (encValue v)) (hdata : data.length < 2 ^ 63)
    (hv : v ≠ .time goZeroTimeUnix) :
    Decodes data 2 o (o + (encValue v).length) (cvalOf v) := by
  cases v with
  | uint64 u =>
      obtain ⟨ai, hfits, hhead⟩ := encHead_eq 0 u.toNat_lt
      rw [encValue, hhead] at h ⊢
      have hdec := decodes_positive (head_of_at h (by omega) hfits) hfits.lt
      rw [UInt64.ofNat_toNat] at hdec
      exact hdec.lift
  | int64 i => exact (decodes_int h).lift
  | str s => exact (decodes_text h (encText_short h hdata)).lift
  | hash b => exact (decodes_bytes h (by rw [b.2]; omega)).lift
  | address a => exact (decodes_bytes h (by rw [a.2]; omega)).lift
  | float64 f =>
      obtain ⟨ai, n, hai, hn, henc, hfloat⟩ := encFloat_eq f
      rw [encValue, henc] at h ⊢
      have hwidth : width ai ≠ 0 := by rcases hai with rfl | rfl | rfl <;> decide
      have hdec := decodes_primitive (head_of_at h (by omega) (.inr ⟨hwidth, hn⟩)) hai
      rw [hfloat] at hdec
      exact hdec.lift
  | time secs =>
      have hsecs : secs ≠ goZeroTimeUnix := fun heq => hv (by rw [heq])
      rw [encValue, encTime, if_neg hsecs] at h ⊢
      exact decodes_time h

end Values

section Maps

variable {n : Nat} {starts mids : Nat → Nat} {keys : Nat → Text} {vals : Nat → Cval}

/-- Keys and values that stand one behind another. -/
structure Rows (data : List UInt8) (n : Nat) (starts mids : Nat → Nat) (keys : Nat → Text)
    (vals : Nat → Cval) : Prop where
  key : ∀ i < n, Decodes data 2 (starts i) (mids i) (.text (keys i))
  keySlot : ∀ i < n, ∀ fuel slot,
    parseKey data (fuel + 2) slot (starts i) = some (.ok (keys i), mids i)
  value : ∀ i < n, Decodes data 2 (mids i) (starts (i + 1)) (vals i)

/-- The offsets of keys and values in turn. -/
def alternate (starts mids : Nat → Nat) (j : Nat) : Nat :=
  if j % 2 = 0 then starts (j / 2) else mids (j / 2)

theorem Rows.valid (h : Rows data n starts mids keys vals) {j : Nat} (hj : j < 2 * n)
    (fuel depth : Nat) :
    validInternal data (fuel + 2) depth (alternate starts mids j) =
      some (.ok depth, alternate starts mids (j + 1)) := by
  unfold alternate
  rcases Nat.mod_two_eq_zero_or_one j with heven | hodd
  · rw [if_pos heven, if_neg (by omega), show (j + 1) / 2 = j / 2 by omega]
    exact (h.key (j / 2) (by omega)).valid fuel depth
  · rw [if_neg (by omega), if_pos (by omega), show (j + 1) / 2 = j / 2 + 1 by omega]
    exact (h.value (j / 2) (by omega)).valid fuel depth

theorem Rows.lt (h : Rows data n starts mids keys vals) {i : Nat} (hi : i < n) :
    starts i < starts (i + 1) :=
  (h.key i hi).item.lt.trans (h.value i hi).item.lt

/-- The row of a map takes more than two bytes. -/
theorem Rows.length (h : Rows data n starts mids keys vals) (hn : n ≠ 0) :
    ∃ k, data.length = k + 2 := by
  have hkey := (h.key 0 (by omega)).item.lt
  have hvalue := (h.value 0 (by omega)).item
  have := hvalue.lt
  have := hvalue.le
  exact ⟨data.length - 2, by omega⟩

theorem Rows.validItems (h : Rows data n starts mids keys vals) (depth : Nat) :
    validItems (validInternal data data.length) 5 n depth (starts 0) =
      some (.ok depth, starts n) := by
  rw [Validator.validItems, times_times, if_pos rfl]
  rcases Nat.eq_zero_or_pos n with rfl | hn
  · rfl
  obtain ⟨k, hk⟩ := h.length (by omega)
  have hturns : times (fun maxDepth => do
      let dpt ← validInternal data data.length depth
      pure (if dpt > maxDepth then dpt else maxDepth)) (2 * n) depth (alternate starts mids 0) =
      some (.ok depth, alternate starts mids (2 * n)) := by
    refine times_of_turns (l := fun _ => depth) fun j hj => ?_
    rw [hk, bind_ok (h.valid hj k depth)]
    simp
  simpa [alternate] using hturns

theorem Rows.foundBreak (h : Rows data n starts mids keys vals) {j : Nat} (hj : j < 2 * n) :
    validBreak data (alternate starts mids j) = some (.ok false, alternate starts mids j) := by
  have hitem := validInternal_item (h.valid hj 0 0)
  obtain ⟨t, ai, val, stop, head, hbreak⟩ := hitem.head
  obtain ⟨b, hb, rfl, rfl⟩ := head.byte
  have hlt := (List.getElem?_eq_some_iff.mp hb).1
  rw [validBreak, get_bind_apply, if_neg (by omega), bind_ok (peek_of_eq hb), if_neg]
  · rfl
  · rintro rfl
    exact hbreak ⟨rfl, rfl⟩

theorem Rows.validIndefinite (h : Rows data n starts mids keys vals) (hn : n ≤ maxMapPairs)
    (hbreak : data[starts n]? = some 0xff) (depth : Nat) :
    validIndefiniteArrayOrMap data (validInternal data data.length) 5 depth (starts 0) =
      some (.ok depth, starts n + 1) := by
  have hlast := (List.getElem?_eq_some_iff.mp hbreak).1
  have hstart : alternate starts mids (2 * n) = starts n := by
    unfold alternate
    rw [if_pos (by omega), show 2 * n / 2 = n by omega]
  have hloop : loop (itemTurn data (validInternal data data.length) 5 depth) (data.length + 1)
      (depth, 0) (alternate starts mids 0) = some (.ok (depth, 2 * n), starts n + 1) := by
    refine loop_of_turns (n := 2 * n) (l := fun j => (depth, j)) ?_ ?_ ?_
    · intro j hj
      obtain ⟨k, hk⟩ := h.length (by omega)
      rw [itemTurn, bind_ok (h.foundBreak hj), if_neg Bool.false_ne_true]
      rw [hk, bind_ok (h.valid hj k depth)]
      dsimp only
      rw [if_neg (by omega), if_neg (by unfold maxMapPairs at *; omega)]
      simp
    · rw [itemTurn, bind_ok (a := true) (t := starts n + 1)]
      · rfl
      · rw [hstart, validBreak, get_bind_apply, if_neg (by omega), bind_ok (peek_of_eq hbreak)]
        rfl
    · exact turns_lt (fun j hj => (validInternal_item (h.valid hj 0 0)).lt) hstart.le hlast.le
  rw [validIndefiniteArrayOrMap]
  simp only [alternate, Nat.zero_mod, if_true, Nat.zero_div] at hloop
  rw [bind_ok hloop]
  dsimp only
  rw [if_neg (by omega)]
  rfl

variable {ai val e : Nat}

theorem Rows.validInternal (h : Rows data n starts mids keys vals)
    (head : Head data 0 5 ai val (starts 0)) (hai : ai < 28 ∨ ai = 31)
    (closed : Closed data ai val n (starts n) e) (hn : n ≤ maxMapPairs) :
    validInternal data (data.length + 1) 0 0 = some (.ok 1, e) := by
  rw [Validator.validInternal, bind_ok (validHead_of_head head (by omega) (by omega))]
  dsimp only
  rw [if_neg (by omega), if_pos (.inr rfl), validArrayOrMap, if_neg (by decide)]
  rcases closed with ⟨hai, rfl, rfl⟩ | ⟨rfl, hbreak, rfl⟩
  · have hlarge : n ≤ 131072 := hn
    rw [if_neg hai, if_neg (by omega), if_neg (by omega), if_neg (by omega)]
    exact h.validItems 1
  · rw [if_pos rfl]
    exact h.validIndefinite hn hbreak 1

/-- The local variables of the parser after some rows. -/
def pairsAfter (keys : Nat → Text) (vals : Nat → Cval) (i : Nat) : Pairs where
  firstErr := none
  keySlot := i.casesOn ⟨[], Utf8.valid_nil⟩ keys
  entries := Entries.insertAll [] ((List.range i).map fun i => (keys i, vals i))

theorem Rows.parseEntry (h : Rows data n starts mids keys vals) {i : Nat} (hi : i < n) :
    parseEntry data data.length (pairsAfter keys vals i) (starts i) =
      some (.ok (pairsAfter keys vals (i + 1)), starts (i + 1)) := by
  obtain ⟨k, hk⟩ := h.length (by omega)
  rw [hk, Parser.parseEntry, bind_ok (attempt_of_eq (h.keySlot i hi k _))]
  dsimp only
  rw [bind_ok (attempt_of_eq ((h.value i hi).parseValue k))]
  simp only [pairsAfter, List.range_succ, List.map_append, List.map_singleton,
    Entries.insertAll_concat]
  rfl

theorem Rows.parseTopToMap (h : Rows data n starts mids keys vals)
    (head : Head data 0 5 ai val (starts 0)) (closed : Closed data ai val n (starts n) e) :
    parseTopToMap data (data.length + 1) 0 = some (.ok
      (Entries.insertAll [] ((List.range n).map fun i => (keys i, vals i))), e) := by
  have hlast : starts n ≤ data.length :=
    starts_le (fun i hi => (h.value i hi).item.le) head.fits
  have hitems : items data ai val (Parser.parseEntry data data.length) {} (starts 0) =
      some (.ok (pairsAfter keys vals n), e) :=
    items_of_turns (l := pairsAfter keys vals) (fun i hi => h.lt hi)
      (fun i hi => (h.key i hi).item.foundBreak) closed hlast fun i hi => h.parseEntry hi
  rw [Parser.parseTopToMap, bind_ok (stripSelfDescribed_untagged head (by omega)),
    bind_ok (checkBuiltinTag_untagged head (by omega)), bind_ok head.nextMajor]
  change parseMapToLocalmap data data.length 0 = _
  rw [parseMapToLocalmap, bind_ok head.getHead]
  dsimp only
  rw [bind_ok hitems]
  rfl

/-- Both phases on a map of such rows. -/
theorem Rows.localmap (h : Rows data n starts mids keys vals)
    (head : Head data 0 5 ai val (starts 0)) (hai : ai < 28 ∨ ai = 31)
    (closed : Closed data ai val n (starts n) e) (hn : n ≤ maxMapPairs) :
    cborUnmarshalLocalmap data = some (.ok
      (Entries.insertAll [] ((List.range n).map fun i => (keys i, vals i)))) := by
  have hne : data ≠ [] := by
    rintro rfl
    have hlt := head.lt
    have hfits := head.fits
    simp at hfits
    omega
  rw [cborUnmarshalLocalmap, if_neg hne, h.validInternal head hai closed hn]
  dsimp only
  rw [h.parseTopToMap head closed]
  rfl

end Maps

end DirtybirdMiner.Args.Decoding
