import DirtybirdMiner.Block.Regroup
import DirtybirdMiner.Lib.Casing

/-!
Address strings, from `block/src/bech32.rs`: `encode` and `decode`, for strings of any
length and any characters.  `none` is a panic.
-/

namespace DirtybirdMiner.Block.Bech32

open DirtybirdMiner.Lib.Digits
open DirtybirdMiner.Lib.Casing
open DirtybirdMiner.Block.Polymod
open DirtybirdMiner.Block.Regroup (Bech32Error)

section Model

/-- `CHARSET`, the bytes of `qpzry9x8gf2tvdw0s3jn54khce6mua7l`. -/
def charset : List UInt8 :=
  [113, 112, 122, 114, 121, 57, 120, 56, 103, 102, 50, 116, 118, 100, 119, 48,
    115, 51, 106, 110, 53, 52, 107, 104, 99, 101, 54, 109, 117, 97, 55, 108]

def hrpExpand (hrp : List Char) : List I64 :=
  (utf8 hrp).map (fun c : UInt8 => BitVec.ofNat 64 (c >>> 5).toNat) ++ [0] ++
    (utf8 hrp).map fun c : UInt8 => BitVec.ofNat 64 (c &&& 31).toNat

def verifyChecksum (hrp : List Char) (data : List I64) : Bool :=
  polymod (hrpExpand hrp ++ data) = 1

def createChecksum (hrp : List Char) (data : List I64) : List I64 :=
  checksumSymbols (polymod (hrpExpand hrp ++ data ++ List.replicate 6 0) ^^^ 1)

/-- `c < 33 || c > 126`, for some byte. -/
def badHrp (hrp : List Char) : Bool := (utf8 hrp).any fun c : UInt8 => c < 33 || c > 126

/-- The loop over the symbols, from the one at `idx` on. -/
def symbolsText : Nat → List I64 → Except Bech32Error (List Char)
  | _, [] => .ok []
  | idx, p :: symbols =>
      if p.slt 0#64 || p.toNat ≥ charset.length then .error (.invalidDataValue idx)
      else do
        let text ← symbolsText (idx + 1) symbols
        .ok (Char.ofNat (charset.getD p.toNat 0).toNat :: text)

/-- The part of a string before its last `1`, and the part behind it. -/
def splitLast : List Char → Option (List Char × List Char)
  | [] => none
  | c :: s =>
      match splitLast s with
      | some (front, back) => some (c :: front, back)
      | none => if c = '1' then some ([], s) else none

/-- `CHARSET.iter().position(..)`, for every byte. -/
def symbolsOf : List UInt8 → Option (List I64)
  | [] => some []
  | c :: bytes => do
      let d ← charset.idxOf? c
      let data ← symbolsOf bytes
      some (BitVec.ofNat 64 d :: data)

variable (cm : CaseMapping)

def encode (hrp : List Char) (data : List I64) : Except Bech32Error (List Char) :=
  if hrp = [] then .error (.invalidHrp hrp)
  else if badHrp hrp then .error (.invalidHrp hrp)
  else if cm.upper hrp ≠ hrp ∧ cm.lower hrp ≠ hrp then .error .mixedCase
  else do
    let hrpL := cm.lower hrp
    let combined := data ++ createChecksum hrpL data
    let text ← symbolsText 0 combined
    let ret := hrpL ++ '1' :: text
    .ok (if cm.lower hrp = hrp then ret else cm.upper ret)

def decode (bech : List Char) : Option (Except Bech32Error (List Char × List I64)) :=
  if cm.lower bech ≠ bech ∧ cm.upper bech ≠ bech then some (.error .mixedCase)
  else
    let bech := cm.lower bech
    match splitLast bech with
    | none => some (.error (.separator (-1) (utf8 bech).length))
    | some (hrp, rest) =>
        let pos := (utf8 hrp).length
        if pos < 1 ∨ pos + 7 > (utf8 bech).length then
          some (.error (.separator pos (utf8 bech).length))
        else if badHrp hrp then some (.error (.invalidHrp hrp))
        else
          match symbolsOf (utf8 rest) with
          | none => some (.error .invalidDataChar)
          | some data =>
              if ¬verifyChecksum hrp data then some (.error .invalidChecksum)
              else if data.length < 6 then none
              else some (.ok (hrp, data.take (data.length - 6)))

end Model

section Symbols

/-- Symbols of five bits. -/
def Symbols (data : List I64) : Prop := ∀ v ∈ data, v.toNat < 32

theorem Symbols.append {s t : List I64} (hs : Symbols s) (ht : Symbols t) : Symbols (s ++ t) := by
  intro v hv
  rcases List.mem_append.mp hv with hv | hv
  · exact hs v hv
  · exact ht v hv

theorem Symbols.below {data : List I64} (h : Symbols data) : ∀ v ∈ data, Below 5 v :=
  fun v hv => below_of_lt (h v hv)

theorem symbols_of_below {data : List I64} (h : ∀ v ∈ data, Below 5 v) : Symbols data := by
  intro v hv
  change v.toNat < 2 ^ 5
  apply Nat.lt_pow_two_of_testBit
  intro i hi
  exact h v hv i hi

theorem createChecksum_symbols (hrp : List Char) (data : List I64) :
    Symbols (createChecksum hrp data) :=
  symbols_of_below (checksumSymbols_below _)

@[simp] theorem createChecksum_length (hrp : List Char) (data : List I64) :
    (createChecksum hrp data).length = 6 :=
  checksumSymbols_length _

/-- The character of a symbol. -/
def symbolChar (v : I64) : Char := Char.ofNat (charset.getD v.toNat 0).toNat

/-- The characters of the symbols. -/
def text (data : List I64) : List Char := data.map symbolChar

theorem charset_lt : ∀ n < 32, (charset.getD n 0).toNat < 128 := by decide

theorem symbolChar_toNat {v : I64} (h : v.toNat < 32) :
    (symbolChar v).toNat = (charset.getD v.toNat 0).toNat :=
  toNat_ofNat (charset_lt v.toNat h)

theorem symbolChar_ascii {v : I64} (h : v.toNat < 32) : Ascii (symbolChar v) := by
  rw [Ascii, symbolChar_toNat h]
  exact charset_lt v.toNat h

theorem text_ascii {data : List I64} (h : Symbols data) : ∀ c ∈ text data, Ascii c := by
  intro c hc
  obtain ⟨v, hv, rfl⟩ := List.mem_map.mp hc
  exact symbolChar_ascii (h v hv)

theorem symbolChar_ne_one {v : I64} (h : v.toNat < 32) : symbolChar v ≠ '1' := by
  have hall : ∀ n < 32, Char.ofNat (charset.getD n 0).toNat ≠ '1' := by decide
  exact hall v.toNat h

theorem one_notMem_text {data : List I64} (h : Symbols data) : '1' ∉ text data := by
  intro hone
  obtain ⟨v, hv, heq⟩ := List.mem_map.mp hone
  exact symbolChar_ne_one (h v hv) heq

theorem symbolChar_lower {v : I64} (h : v.toNat < 32) : lowerChar (symbolChar v) = symbolChar v := by
  have hall : ∀ n < 32, lowerChar (Char.ofNat (charset.getD n 0).toNat) =
      Char.ofNat (charset.getD n 0).toNat := by decide
  exact hall v.toNat h

theorem text_lower {data : List I64} (h : Symbols data) : (text data).map lowerChar = text data := by
  rw [text, List.map_map]
  exact List.map_congr_left fun v hv => symbolChar_lower (h v hv)

theorem utf8_text {data : List I64} (h : Symbols data) :
    utf8 (text data) = data.map fun v => charset.getD v.toNat 0 := by
  rw [utf8_ascii (text_ascii h), text, List.map_map]
  refine List.map_congr_left fun v hv => ?_
  rw [Function.comp_apply, symbolChar_toNat (h v hv), UInt8.ofNat_toNat]

theorem charset_idxOf : ∀ n < 32, charset.idxOf? (charset.getD n 0) = some n := by decide

theorem ofNat_toNat (v : I64) : BitVec.ofNat 64 v.toNat = v := by simp

theorem symbolsOf_bytes {data : List I64} (h : Symbols data) :
    symbolsOf (data.map fun v => charset.getD v.toNat 0) = some data := by
  induction data with
  | nil => rfl
  | cons v data ih =>
      have hv : v.toNat < 32 := h v List.mem_cons_self
      rw [List.map_cons, symbolsOf, charset_idxOf v.toNat hv,
        ih fun w hw => h w (List.mem_cons_of_mem _ hw)]
      simp

theorem symbolsOf_text {data : List I64} (h : Symbols data) :
    symbolsOf (utf8 (text data)) = some data := by
  rw [utf8_text h]
  exact symbolsOf_bytes h

theorem idxOf_charset {c : UInt8} {d : Nat} (h : charset.idxOf? c = some d) :
    d < 32 ∧ charset.getD d 0 = c := by
  rw [List.idxOf?, List.findIdx?_eq_some_iff_getElem] at h
  obtain ⟨hd, heq, -⟩ := h
  refine ⟨hd, ?_⟩
  rw [List.getD_eq_getElem?_getD, List.getElem?_eq_getElem hd]
  simpa using heq

/-- Only the characters of the charset have symbols. -/
theorem symbolsOf_eq_some {rest : List Char} {data : List I64}
    (h : symbolsOf (utf8 rest) = some data) : Symbols data ∧ rest = text data := by
  have hbytes : ∀ {bytes : List UInt8} {data : List I64}, symbolsOf bytes = some data →
      Symbols data ∧ bytes = data.map fun v => charset.getD v.toNat 0 := by
    intro bytes
    induction bytes with
    | nil =>
        rintro data ⟨⟩
        exact ⟨by simp [Symbols], rfl⟩
    | cons c bytes ih =>
        intro data h
        rw [symbolsOf] at h
        cases hidx : charset.idxOf? c with
        | none => simp [hidx] at h
        | some d =>
            cases hrest : symbolsOf bytes with
            | none => simp [hidx, hrest] at h
            | some more =>
                obtain ⟨hd, hc⟩ := idxOf_charset hidx
                obtain ⟨hsymbols, hmap⟩ := ih hrest
                simp only [hidx, hrest, Option.bind_eq_bind, Option.bind_some,
                  Option.some.injEq] at h
                subst h
                have hnat : (BitVec.ofNat 64 d).toNat = d := by
                  rw [BitVec.toNat_ofNat, Nat.mod_eq_of_lt (by omega)]
                refine ⟨?_, ?_⟩
                · intro v hv
                  rcases List.mem_cons.mp hv with rfl | hv
                  · rw [hnat]
                    exact hd
                  · exact hsymbols v hv
                · rw [List.map_cons, hnat, hc, ← hmap]
  obtain ⟨hsymbols, hmap⟩ := hbytes h
  refine ⟨hsymbols, ?_⟩
  have hascii : ∀ c ∈ rest, Ascii c := by
    apply ascii_of_utf8
    intro b hb
    rw [hmap] at hb
    obtain ⟨v, hv, rfl⟩ := List.mem_map.mp hb
    exact charset_lt v.toNat (hsymbols v hv)
  rw [← utf8_text hsymbols, utf8_ascii hascii, utf8_ascii (text_ascii hsymbols)] at hmap
  exact ascii_bytes_injective hascii (text_ascii hsymbols) hmap

theorem symbolsText_eq {data : List I64} (h : Symbols data) (idx : Nat) :
    symbolsText idx data = .ok (text data) := by
  induction data generalizing idx with
  | nil => rfl
  | cons v data ih =>
      have hv : v.toNat < 32 := h v List.mem_cons_self
      have hsign : v.slt 0#64 = false := by
        rw [BitVec.slt_zero_eq_msb, BitVec.msb_eq_false_iff_two_mul_lt]
        omega
      have hgood : (v.slt 0#64 || decide (v.toNat ≥ charset.length)) = false := by
        rw [hsign, Bool.false_or, decide_eq_false_iff_not]
        exact Nat.not_le.mpr hv
      rw [symbolsText, if_neg (by rw [hgood]; exact Bool.false_ne_true),
        ih fun w hw => h w (List.mem_cons_of_mem _ hw)]
      rfl

end Symbols

section Checksums

theorem hrpExpand_below (hrp : List Char) : ∀ v ∈ hrpExpand hrp, Below 30 v := by
  have hbyte : ∀ b : UInt8, Below 30 (BitVec.ofNat 64 b.toNat) := by
    intro b
    have hlt := b.toNat_lt
    apply below_of_lt
    rw [BitVec.toNat_ofNat, Nat.mod_eq_of_lt (by omega)]
    omega
  intro v hv
  rcases List.mem_append.mp hv with hv | hv
  · rcases List.mem_append.mp hv with hv | hv
    · obtain ⟨c, -, rfl⟩ := List.mem_map.mp hv
      exact hbyte _
    · rw [List.mem_singleton.mp hv]
      exact below_of_lt (by decide)
  · obtain ⟨c, -, rfl⟩ := List.mem_map.mp hv
    exact hbyte _

theorem values_below (hrp : List Char) {data : List I64} (h : Symbols data) :
    ∀ v ∈ hrpExpand hrp ++ data, Below 30 v := by
  intro v hv
  rcases List.mem_append.mp hv with hv | hv
  · exact hrpExpand_below hrp v hv
  · exact (h.below v hv).mono (by omega)

theorem verify_createChecksum (hrp : List Char) {data : List I64} (h : Symbols data) :
    verifyChecksum hrp (data ++ createChecksum hrp data) = true := by
  rw [verifyChecksum, decide_eq_true_iff, ← List.append_assoc]
  exact polymod_checksum (values_below hrp h)

/-- The six symbols that verify are those that are created. -/
theorem checksum_unique {hrp : List Char} {data sum : List I64} (hsum : Symbols sum)
    (hlen : sum.length = 6) (h : verifyChecksum hrp (data ++ sum) = true)
    (hdata : Symbols data) : sum = createChecksum hrp data := by
  have hverify := verify_createChecksum hrp hdata
  rw [verifyChecksum, decide_eq_true_iff, ← List.append_assoc, polymod, polymodFrom_append] at h
  rw [verifyChecksum, decide_eq_true_iff, ← List.append_assoc, polymod,
    polymodFrom_append] at hverify
  exact polymodFrom_symbols_injective hsum.below (createChecksum_symbols hrp data).below hlen
    (createChecksum_length hrp data) (h.trans hverify.symm)

end Checksums

section Codec

variable (cm : CaseMapping)

theorem splitLast_append {front back : List Char} (h : '1' ∉ back) :
    splitLast (front ++ '1' :: back) = some (front, back) := by
  have hnone : ∀ {s : List Char}, '1' ∉ s → splitLast s = none := by
    intro s
    induction s with
    | nil => exact fun _ => rfl
    | cons c s ih =>
        intro hs
        rw [List.mem_cons, not_or] at hs
        rw [splitLast, ih hs.2]
        exact if_neg fun heq => hs.1 heq.symm
  induction front with
  | nil =>
      rw [List.nil_append, splitLast, hnone h]
      rfl
  | cons c front ih =>
      rw [List.cons_append, splitLast, ih]

theorem splitLast_eq_some {s front back : List Char} (h : splitLast s = some (front, back)) :
    s = front ++ '1' :: back := by
  induction s generalizing front with
  | nil => cases h
  | cons c s ih =>
      rw [splitLast] at h
      split at h
      · rename_i front' back' hsplit
        cases h
        rw [ih hsplit]
        rfl
      · split at h
        · rename_i hc
          cases h
          rw [hc]
          rfl
        · cases h

/-- A human-readable part that is admitted. -/
structure GoodHrp (hrp : List Char) : Prop where
  ne_nil : hrp ≠ []
  bytes : ∀ b ∈ utf8 hrp, 33 ≤ b.toNat ∧ b.toNat ≤ 126

theorem badHrp_eq_false {hrp : List Char} :
    badHrp hrp = false ↔ ∀ b ∈ utf8 hrp, 33 ≤ b.toNat ∧ b.toNat ≤ 126 := by
  rw [badHrp, List.any_eq_false]
  refine forall₂_congr fun b _ => ?_
  rw [Bool.not_eq_true, Bool.or_eq_false_iff, decide_eq_false_iff_not, decide_eq_false_iff_not,
    gt_iff_lt, UInt8.lt_iff_toNat_lt, UInt8.lt_iff_toNat_lt]
  change ¬b.toNat < 33 ∧ ¬126 < b.toNat ↔ _
  omega

theorem GoodHrp.ascii {hrp : List Char} (h : GoodHrp hrp) : ∀ c ∈ hrp, Ascii c :=
  ascii_of_utf8 fun b hb => by
    have := h.bytes b hb
    omega

theorem GoodHrp.lower {hrp : List Char} (h : GoodHrp hrp) : GoodHrp (cm.lower hrp) := by
  have hplain : ∀ c ∈ hrp, Plain c := fun c hc => .inl (h.ascii c hc)
  have hlower := cm.lower_ascii h.ascii
  refine ⟨by rw [hlower]; simpa using h.ne_nil, ?_⟩
  intro b hb
  rw [utf8_ascii (cm.lower_isAscii hplain), hlower, List.map_map] at hb
  obtain ⟨c, hc, rfl⟩ := List.mem_map.mp hb
  have hcode : 33 ≤ c.toNat ∧ c.toNat ≤ 126 := by
    have hlt : c.toNat < 128 := h.ascii c hc
    have hbyte := h.bytes (UInt8.ofNat c.toNat)
      (by rw [utf8_ascii h.ascii]; exact List.mem_map_of_mem hc)
    rwa [UInt8.toNat_ofNat', Nat.mod_eq_of_lt (by omega)] at hbyte
  have hall : ∀ n < 128, 33 ≤ n ∧ n ≤ 126 →
      33 ≤ (UInt8.ofNat (lowerChar (Char.ofNat n)).toNat).toNat ∧
        (UInt8.ofNat (lowerChar (Char.ofNat n)).toNat).toNat ≤ 126 := by
    decide
  have hc' := hall c.toNat (h.ascii c hc) hcode
  rwa [Char.ofNat_toNat] at hc'

/-- A string without mixed case whose lower case has the right form is decoded, unless its
checksum is wrong. -/
theorem decode_of_lower {s hrp : List Char} {data sum : List I64}
    (hcase : cm.lower s = s ∨ cm.upper s = s) (hlower : cm.lower s = hrp ++ '1' :: text (data ++ sum))
    (hhrp : GoodHrp hrp) (hdata : Symbols data) (hsum : Symbols sum) (hlen : sum.length = 6) :
    decode cm s = some (if verifyChecksum hrp (data ++ sum) then .ok (hrp, data)
      else .error .invalidChecksum) := by
  have hsymbols := hdata.append hsum
  have hmixed : ¬(cm.lower s ≠ s ∧ cm.upper s ≠ s) := by
    rintro ⟨hl, hu⟩
    exact hcase.elim hl hu
  have hpos : 1 ≤ (utf8 hrp).length :=
    (List.length_pos_iff.mpr hhrp.ne_nil).trans_le (length_le_utf8 hrp)
  have hlength : (utf8 (hrp ++ '1' :: text (data ++ sum))).length =
      (utf8 hrp).length + 1 + (data.length + 6) := by
    rw [utf8_append, List.length_append]
    change _ + ([UInt8.ofNat 49] ++ utf8 (text (data ++ sum))).length = _
    rw [List.length_append, utf8_text hsymbols, List.length_map, List.length_append, hlen,
      List.length_singleton]
    omega
  unfold decode
  rw [if_neg hmixed]
  simp only [hlower, splitLast_append (one_notMem_text hsymbols), hlength,
    badHrp_eq_false.mpr hhrp.bytes, symbolsOf_text hsymbols]
  rw [if_neg (by omega)]
  simp only [Bool.false_eq_true, if_false]
  cases hverify : verifyChecksum hrp (data ++ sum) with
  | false => simp
  | true => simp [hlen]

/-- What is decoded is the lower case of an encoding. -/
theorem decode_eq_ok {s hrp : List Char} {data : List I64}
    (h : decode cm s = some (.ok (hrp, data))) :
    (cm.lower s = s ∨ cm.upper s = s) ∧ GoodHrp hrp ∧ Symbols data ∧
      cm.lower s = hrp ++ '1' :: text (data ++ createChecksum hrp data) := by
  unfold decode at h
  split at h
  · cases h
  rename_i hmixed
  have hcase : cm.lower s = s ∨ cm.upper s = s := by
    by_contra hneither
    rw [not_or] at hneither
    exact hmixed hneither
  dsimp only at h
  split at h
  · cases h
  rename_i front back hsplit
  split at h
  · cases h
  rename_i hbounds
  rw [not_or] at hbounds
  split at h
  · cases h
  rename_i hbad
  split at h
  · cases h
  rename_i values hvalues
  split at h
  · cases h
  rename_i hverify
  split at h
  · cases h
  rename_i hsix
  cases h
  obtain ⟨hsymbols, hback⟩ := symbolsOf_eq_some hvalues
  have hgood : GoodHrp hrp := by
    refine ⟨?_, badHrp_eq_false.mp (by simpa using hbad)⟩
    rintro rfl
    exact hbounds.1 (by decide)
  have hsplitValues := List.take_append_drop (values.length - 6) values
  have hdata : Symbols (values.take (values.length - 6)) :=
    fun v hv => hsymbols v (List.mem_of_mem_take hv)
  have hsum : values.drop (values.length - 6) =
      createChecksum hrp (values.take (values.length - 6)) := by
    refine checksum_unique (fun v hv => hsymbols v (List.mem_of_mem_drop hv)) ?_ ?_ hdata
    · rw [List.length_drop]
      omega
    · rw [hsplitValues]
      simpa using hverify
  refine ⟨hcase, hgood, hdata, ?_⟩
  rw [← hsum, hsplitValues, ← hback]
  exact splitLast_eq_some hsplit

theorem encode_eq {hrp : List Char} {data : List I64} (hhrp : GoodHrp hrp)
    (hcase : cm.lower hrp = hrp ∨ cm.upper hrp = hrp) (hdata : Symbols data) :
    encode cm hrp data = .ok
      (if cm.lower hrp = hrp then
        cm.lower hrp ++ '1' :: text (data ++ createChecksum (cm.lower hrp) data)
      else cm.upper (cm.lower hrp ++ '1' :: text (data ++ createChecksum (cm.lower hrp) data))) := by
  have hmixed : ¬(cm.upper hrp ≠ hrp ∧ cm.lower hrp ≠ hrp) := by
    rintro ⟨hu, hl⟩
    exact hcase.elim hl hu
  unfold encode
  rw [if_neg hhrp.ne_nil, if_neg (by rw [badHrp_eq_false.mpr hhrp.bytes]; exact Bool.false_ne_true),
    if_neg hmixed]
  dsimp only
  rw [symbolsText_eq (hdata.append (createChecksum_symbols _ _))]
  rfl

theorem body_ascii {hrp : List Char} {values : List I64} (hhrp : ∀ c ∈ hrp, Ascii c)
    (hvalues : Symbols values) : ∀ c ∈ hrp ++ '1' :: text values, Ascii c := by
  intro c hc
  rcases List.mem_append.mp hc with hc | hc
  · exact hhrp c hc
  · rcases List.mem_cons.mp hc with rfl | hc
    · decide
    · exact text_ascii hvalues c hc

/-- A body behind a lower-case human-readable part is lower case. -/
theorem body_lower {hrp : List Char} {values : List I64} (hhrp : ∀ c ∈ hrp, Ascii c)
    (hvalues : Symbols values) (hlower : cm.lower hrp = hrp) :
    cm.lower (hrp ++ '1' :: text values) = hrp ++ '1' :: text values := by
  rw [cm.lower_ascii hhrp] at hlower
  rw [cm.lower_ascii (body_ascii hhrp hvalues), List.map_append, hlower, List.map_cons,
    text_lower hvalues]
  rfl

/-- An encoding is decoded, and so is its upper case. -/
theorem decode_body {hrp : List Char} {data : List I64} (hhrp : GoodHrp hrp)
    (hlower : cm.lower hrp = hrp) (hdata : Symbols data) :
    decode cm (hrp ++ '1' :: text (data ++ createChecksum hrp data)) = some (.ok (hrp, data)) ∧
      decode cm (cm.upper (hrp ++ '1' :: text (data ++ createChecksum hrp data))) =
        some (.ok (hrp, data)) := by
  have hsum := createChecksum_symbols hrp data
  have hascii := body_ascii hhrp.ascii (hdata.append hsum)
  have hbody := body_lower cm hhrp.ascii (hdata.append hsum) hlower
  have hverify := verify_createChecksum hrp hdata
  constructor
  · rw [decode_of_lower cm (.inl hbody) hbody hhrp hdata hsum (createChecksum_length _ _), hverify]
    rfl
  · have hupper := cm.upper_upper hascii
    have hback := (cm.lower_upper hascii).trans hbody
    rw [decode_of_lower cm (.inr hupper) hback hhrp hdata hsum (createChecksum_length _ _), hverify]
    rfl

/-- One wrong symbol is noticed. -/
theorem decode_wrong_symbol {hrp : List Char} {data : List I64} (hhrp : GoodHrp hrp)
    (hlower : cm.lower hrp = hrp) (hdata : Symbols data) {front back : List I64} {v w : I64}
    (hsplit : data ++ createChecksum hrp data = front ++ v :: back) (hw : w.toNat < 32)
    (hne : v ≠ w) :
    decode cm (hrp ++ '1' :: text (front ++ w :: back)) = some (.error .invalidChecksum) := by
  have hall := hdata.append (createChecksum_symbols hrp data)
  rw [hsplit] at hall
  have hfront : Symbols front := fun x hx => hall x (List.mem_append_left _ hx)
  have hv : v.toNat < 32 := hall v (by simp)
  have hback : Symbols back :=
    fun x hx => hall x (List.mem_append_right _ (List.mem_cons_of_mem _ hx))
  have hchanged : Symbols (front ++ w :: back) := by
    refine hfront.append ?_
    intro x hx
    rcases List.mem_cons.mp hx with rfl | hx
    · exact hw
    · exact hback x hx
  have hsix : 6 ≤ (front ++ w :: back).length := by
    have hlen := congrArg List.length hsplit
    simp only [List.length_append, createChecksum_length, List.length_cons] at hlen ⊢
    omega
  have hverify : verifyChecksum hrp (front ++ w :: back) = false := by
    have hright := verify_createChecksum hrp hdata
    rw [verifyChecksum, decide_eq_true_iff, hsplit, ← List.append_assoc] at hright
    rw [verifyChecksum, decide_eq_false_iff_not, ← List.append_assoc]
    intro hsame
    refine polymod_ne (values_below hrp hfront) (fun x hx => (hback.below x hx).mono (by omega))
      ?_ ?_ hne (hright.trans hsame.symm)
    · exact (below_of_lt (k := 5) hv).mono (by omega)
    · exact (below_of_lt (k := 5) hw).mono (by omega)
  have hbody := body_lower cm hhrp.ascii hchanged hlower
  have hparts := List.take_append_drop ((front ++ w :: back).length - 6) (front ++ w :: back)
  rw [← hparts] at hbody hverify ⊢
  rw [decode_of_lower cm (.inl hbody) hbody hhrp
    (fun x hx => hchanged x (List.mem_of_mem_take hx))
    (fun x hx => hchanged x (List.mem_of_mem_drop hx)) (by rw [List.length_drop]; omega), hverify]
  rfl

/-- Decoding undoes encoding for data of any length, and a single wrong symbol behind the
separator is always an invalid checksum. -/
theorem bech32_roundTrip (hrp : List Char) (hne : hrp ≠ [])
    (hbytes : ∀ b ∈ utf8 hrp, 33 ≤ b.toNat ∧ b.toNat ≤ 126)
    (hcase : cm.lower hrp = hrp ∨ cm.upper hrp = hrp) (data : List I64)
    (hdata : ∀ v ∈ data, v.toNat < 32) :
    ∃ s, encode cm hrp data = .ok s ∧ decode cm s = some (.ok (cm.lower hrp, data)) ∧
      (cm.lower hrp = hrp → ∀ front c back, ∀ b ∈ charset, s = hrp ++ '1' :: (front ++ c :: back) →
        c ≠ Char.ofNat b.toNat →
          decode cm (hrp ++ '1' :: (front ++ Char.ofNat b.toNat :: back)) =
            some (.error .invalidChecksum)) := by
  have hgood : GoodHrp hrp := ⟨hne, hbytes⟩
  have hplain : ∀ c ∈ hrp, Plain c := fun c hc => .inl (hgood.ascii c hc)
  have hidem := cm.lower_lower hplain
  obtain ⟨hlow, hup⟩ := decode_body cm (hgood.lower cm) hidem hdata
  refine ⟨_, encode_eq cm hgood hcase hdata, ?_, ?_⟩
  · split
    · exact hlow
    · exact hup
  · intro hlower front c back b hb hs hc
    rw [if_pos hlower, hlower, List.append_cancel_left_eq, List.cons.injEq] at hs
    obtain ⟨front', back', hsplit, rfl, hback⟩ := List.map_eq_append_iff.mp hs.2
    obtain ⟨v, back'', rfl, rfl, rfl⟩ := List.map_eq_cons_iff.mp hback
    obtain ⟨n, hn, rfl⟩ : ∃ n < 32, charset.getD n 0 = b := by
      obtain ⟨n, hn, heq⟩ := List.getElem_of_mem hb
      exact ⟨n, hn, by rw [← heq, List.getD_eq_getElem?_getD, List.getElem?_eq_getElem hn]; rfl⟩
    have hnat : (BitVec.ofNat 64 n).toNat = n := by
      rw [BitVec.toNat_ofNat, Nat.mod_eq_of_lt (by omega)]
    have hsymbol : Char.ofNat (charset.getD n 0).toNat = symbolChar (BitVec.ofNat 64 n) := by
      rw [symbolChar, hnat]
    have hdiffer : v ≠ BitVec.ofNat 64 n := by
      rintro rfl
      exact hc hsymbol.symm
    have hwrong := decode_wrong_symbol cm hgood hlower hdata hsplit (by rw [hnat]; exact hn) hdiffer
    rw [text, List.map_append, List.map_cons] at hwrong
    rw [hsymbol]
    exact hwrong

/-- A human-readable part with a separator in it. -/
theorem bech32_roundTrip_separator :
    ∃ s, encode plainMapping ['a', '1', 'b'] [0, 31] = .ok s ∧
      decode plainMapping s = some (.ok (['a', '1', 'b'], [0, 31])) := by
  have hbytes : utf8 ['a', '1', 'b'] = [97, 49, 98] := by decide
  obtain ⟨s, hs, hd, -⟩ := bech32_roundTrip plainMapping ['a', '1', 'b'] (by decide)
    (by simp [hbytes]) (.inl (by decide)) [0, 31] (by simp)
  exact ⟨s, hs, hd⟩

end Codec

section Accepting

variable (cm : CaseMapping)

theorem symbolsText_eq_ok {idx : Nat} {data : List I64} {t : List Char}
    (h : symbolsText idx data = .ok t) : Symbols data := by
  induction data generalizing idx t with
  | nil =>
      intro v hv
      cases hv
  | cons v data ih =>
      rw [symbolsText] at h
      split at h
      · cases h
      rename_i hgood
      rw [Bool.not_eq_true, Bool.or_eq_false_iff, decide_eq_false_iff_not] at hgood
      cases hrest : symbolsText (idx + 1) data with
      | error e =>
          rw [hrest] at h
          cases h
      | ok more =>
          intro w hw
          rcases List.mem_cons.mp hw with rfl | hw
          · exact Nat.lt_of_not_le hgood.2
          · exact ih hrest w hw

/-- What is encoded: a human-readable part that is admitted, and symbols. -/
theorem encode_eq_ok {hrp e : List Char} {data : List I64} (h : encode cm hrp data = .ok e) :
    GoodHrp hrp ∧ (cm.lower hrp = hrp ∨ cm.upper hrp = hrp) ∧ Symbols data := by
  unfold encode at h
  split at h
  · cases h
  rename_i hne
  split at h
  · cases h
  rename_i hbad
  split at h
  · cases h
  rename_i hmixed
  refine ⟨⟨hne, badHrp_eq_false.mp (by simpa using hbad)⟩, ?_, ?_⟩
  · by_contra hneither
    rw [not_or] at hneither
    exact hmixed hneither.symm
  · dsimp only at h
    cases htext : symbolsText 0 (data ++ createChecksum (cm.lower hrp) data) with
    | error e =>
        rw [htext] at h
        cases h
    | ok t =>
        intro v hv
        exact symbolsText_eq_ok htext v (List.mem_append_left _ hv)

/-- The lower case of an encoding. -/
def body (hrp : List Char) (data : List I64) : List Char :=
  hrp ++ '1' :: text (data ++ createChecksum hrp data)

theorem body_isAscii {hrp : List Char} {data : List I64} (hhrp : GoodHrp hrp)
    (hdata : Symbols data) : ∀ c ∈ body hrp data, Ascii c :=
  body_ascii hhrp.ascii (hdata.append (createChecksum_symbols hrp data))

theorem lower_body {hrp : List Char} {data : List I64} (hhrp : GoodHrp hrp)
    (hdata : Symbols data) (hlower : cm.lower hrp = hrp) :
    cm.lower (body hrp data) = body hrp data :=
  body_lower cm hhrp.ascii (hdata.append (createChecksum_symbols hrp data)) hlower

theorem encode_lower {hrp : List Char} {data : List I64} (hhrp : GoodHrp hrp)
    (hlower : cm.lower hrp = hrp) (hdata : Symbols data) :
    encode cm hrp data = .ok (body hrp data) := by
  rw [encode_eq cm hhrp (.inl hlower) hdata, if_pos hlower, hlower]
  rfl

/-- Up to case an encoding is its body. -/
theorem encode_ascii {hrp e : List Char} {data : List I64} (h : encode cm hrp data = .ok e) :
    (∀ c ∈ e, Ascii c) ∧ cm.lower e = body (cm.lower hrp) data := by
  obtain ⟨hhrp, hcase, hdata⟩ := encode_eq_ok cm h
  have hlow := hhrp.lower cm
  have hidem := cm.lower_lower fun c hc => .inl (hhrp.ascii c hc)
  have hascii := body_isAscii hlow hdata
  have hlower := lower_body cm hlow hdata hidem
  rw [encode_eq cm hhrp hcase hdata, Except.ok.injEq] at h
  change (if _ then body _ _ else cm.upper (body _ _)) = e at h
  subst h
  split
  · exact ⟨hascii, hlower⟩
  · exact ⟨cm.upper_isAscii hascii, (cm.lower_upper hascii).trans hlower⟩

/-- The string, with a `K` for every Kelvin sign. -/
def asK (s : List Char) : List Char := s.map fun c => if c = kelvin then 'K' else c

theorem asK_ascii {s : List Char} (h : ∀ c ∈ s, Plain c) : ∀ c ∈ asK s, Ascii c := by
  intro c hc
  obtain ⟨d, hd, rfl⟩ := List.mem_map.mp hc
  split
  · decide
  · exact (h d hd).resolve_right ‹_›

theorem plain_of_asK {s : List Char} (h : ∀ c ∈ asK s, Ascii c) : ∀ c ∈ s, Plain c := by
  intro c hc
  have hmem := h _ (List.mem_map_of_mem hc)
  split at hmem
  · exact .inr ‹_›
  · exact .inl hmem

theorem lower_asK {s : List Char} (h : ∀ c ∈ s, Plain c) : cm.lower (asK s) = cm.lower s := by
  rw [cm.lower_ascii (asK_ascii h), cm.lower_plain s h, asK, List.map_map]
  refine List.map_congr_left fun c _ => ?_
  rw [Function.comp_apply]
  split
  · rename_i hc
    rw [hc]
    decide
  · rfl

/-- A string is upper case if it is with `K` for the Kelvin signs. -/
theorem upper_asK_iff {s : List Char} (h : ∀ c ∈ s, Plain c) :
    cm.upper (asK s) = asK s ↔ cm.upper s = s := by
  have hself : ∀ t : List Char, t.map upperChar = t ↔ ∀ c ∈ t, upperChar c = c := by
    intro t
    have hid := List.map_inj_left (l := t) (f := upperChar) (g := id)
    rwa [List.map_id] at hid
  rw [cm.upper_ascii (asK_ascii h), cm.upper_plain s h, hself, hself]
  constructor
  · intro hupper c hc
    have hmem := hupper _ (List.mem_map_of_mem hc)
    split at hmem
    · exact if_pos ‹_›
    · exact hmem
  · intro hupper c hc
    obtain ⟨d, hd, rfl⟩ := List.mem_map.mp hc
    split
    · decide
    · exact hupper d hd

/-- If the string is decoded, it is the encoding of what it is decoded to, up to ASCII case. -/
def OnlyEncoding (s : List Char) : Prop :=
  ∀ hrp data, decode cm s = some (.ok (hrp, data)) →
    ∃ e, encode cm hrp data = .ok e ∧ s.map Char.toLower = e.map Char.toLower

/-- The upper case of an encoding, with Kelvin signs for some of its `K`. -/
def KelvinForm (s : List Char) : Prop :=
  kelvin ∈ s ∧ ∃ hrp data e, encode cm hrp data = .ok e ∧ asK s = cm.upper e

theorem map_toLower {s : List Char} (h : ∀ c ∈ s, Ascii c) :
    s.map Char.toLower = cm.lower s := by
  rw [cm.lower_ascii h]
  exact List.map_congr_left fun c hc => (lowerChar_ascii (h c hc)).symm

/-- What is decoded is encoded to the lower case of the string. -/
theorem encode_of_decode {s hrp : List Char} {data : List I64}
    (h : decode cm s = some (.ok (hrp, data))) :
    encode cm hrp data = .ok (cm.lower s) ∧ (∀ c ∈ s, Plain c) ∧ ∀ c ∈ cm.lower s, Ascii c := by
  obtain ⟨-, hhrp, hdata, hbody⟩ := decode_eq_ok cm h
  have hascii : ∀ c ∈ cm.lower s, Ascii c := by
    rw [hbody]
    exact body_isAscii hhrp hdata
  have hplain := cm.plain_of_lower s hascii
  have hlower : cm.lower hrp = hrp := by
    have hidem := cm.lower_lower hplain
    rw [cm.lower_ascii hascii, hbody, List.map_append] at hidem
    rw [cm.lower_ascii hhrp.ascii]
    exact (List.append_inj hidem (by simp)).1
  refine ⟨?_, hplain, hascii⟩
  rw [encode_lower cm hhrp hlower hdata, hbody]
  rfl

theorem KelvinForm.decode {s : List Char} (h : KelvinForm cm s) :
    ∃ hrp data, decode cm s = some (.ok (hrp, data)) := by
  obtain ⟨-, hrp, data, e, he, hasK⟩ := h
  obtain ⟨hhrp, -, hdata⟩ := encode_eq_ok cm he
  obtain ⟨hascii, hlowerE⟩ := encode_ascii cm he
  have hplain : ∀ c ∈ s, Plain c := by
    apply plain_of_asK
    rw [hasK]
    exact cm.upper_isAscii hascii
  have hlower : cm.lower s = body (cm.lower hrp) data := by
    rw [← lower_asK cm hplain, hasK, cm.lower_upper hascii, hlowerE]
  have hupper : cm.upper s = s := by
    rw [← upper_asK_iff cm hplain, hasK]
    exact cm.upper_upper hascii
  have hdecode := decode_of_lower cm (.inr hupper) hlower (hhrp.lower cm) hdata
    (createChecksum_symbols _ data) (createChecksum_length _ data)
  rw [verify_createChecksum _ hdata] at hdecode
  exact ⟨_, _, hdecode⟩

/-- No encoding has a Kelvin sign. -/
theorem not_onlyEncoding {s hrp : List Char} {data : List I64}
    (h : decode cm s = some (.ok (hrp, data))) (hs : kelvin ∈ s) : ¬OnlyEncoding cm s := by
  intro honly
  obtain ⟨e, he, hsame⟩ := honly hrp data h
  obtain ⟨hascii, -⟩ := encode_ascii cm he
  have hmem : kelvin ∈ e.map Char.toLower := by
    rw [← hsame]
    exact List.mem_map.mpr ⟨kelvin, hs, by decide⟩
  rw [map_toLower cm hascii] at hmem
  have hkelvin := cm.lower_isAscii (fun c hc => .inl (hascii c hc)) kelvin hmem
  exact absurd hkelvin (by decide)

/-- Only the Kelvin sign is taken for another character. -/
theorem onlyEncoding_iff (s : List Char) : OnlyEncoding cm s ↔ ¬KelvinForm cm s := by
  constructor
  · intro honly hform
    obtain ⟨hrp, data, hdecode⟩ := hform.decode cm
    exact not_onlyEncoding cm hdecode hform.1 honly
  · intro hform hrp data hdecode
    obtain ⟨hencode, hplain, hascii⟩ := encode_of_decode cm hdecode
    have hidem := cm.lower_lower hplain
    refine ⟨_, hencode, ?_⟩
    rw [map_toLower cm hascii, hidem]
    apply map_toLower cm
    intro c hc
    refine (hplain c hc).resolve_right ?_
    rintro rfl
    refine hform ⟨hc, hrp, data, _, hencode, ?_⟩
    -- a string with a Kelvin sign is not lower case, so it is upper case
    have hupper : cm.upper s = s := by
      refine (decode_eq_ok cm hdecode).1.resolve_left ?_
      intro hlower
      rw [← hlower] at hc
      exact absurd (hascii kelvin hc) (by decide)
    rw [← lower_asK cm hplain, cm.upper_lower (asK_ascii hplain), (upper_asK_iff cm hplain).mpr hupper]

/-- Decoding does not panic. -/
theorem decode_isSome (s : List Char) : (decode cm s).isSome := by
  unfold decode
  split
  · rfl
  dsimp only
  split
  · rfl
  rename_i hrp rest hsplit
  split
  · rfl
  rename_i hbounds
  split
  · rfl
  split
  · rfl
  rename_i data hdata
  split
  · rfl
  split
  · rename_i hsix
    obtain ⟨hsymbols, rfl⟩ := symbolsOf_eq_some hdata
    have hlength : (utf8 (cm.lower s)).length = (utf8 hrp).length + 1 + data.length := by
      rw [splitLast_eq_some hsplit, utf8_append, List.length_append]
      change _ + ([UInt8.ofNat 49] ++ utf8 (text data)).length = _
      rw [List.length_append, utf8_text hsymbols, List.length_map, List.length_singleton]
      omega
    omega
  · rfl

end Accepting

end DirtybirdMiner.Block.Bech32
