import DirtybirdMiner.Lib.LexCompare
import DirtybirdMiner.V114.Model

/-!
What the loads and the comparators compute: zero-padded windows of suffixes and
the lexicographic order of suffixes.
-/

namespace DirtybirdMiner.V114.Order

open DirtybirdMiner.Lib.Bytes
open DirtybirdMiner.Lib.Checked
open DirtybirdMiner.Lib.Buffers
open DirtybirdMiner.Lib.LexCompare
open DirtybirdMiner.Pow.Difficulty
open DirtybirdMiner.V114.Model

/-- The text whose suffixes are sorted. -/
def textOf (data : List UInt8) (n : Nat) : List Nat := (data.take n).map UInt8.toNat

/-- The suffix of the text at a position. -/
def suffix (data : List UInt8) (n pos : Nat) : List Nat := (textOf data n).drop pos

section Suffixes

variable {data : List UInt8} {n : Nat}

theorem textOf_length (hlen : n ≤ data.length) : (textOf data n).length = n := by
  simp [textOf, hlen]

theorem suffix_length (hlen : n ≤ data.length) (pos : Nat) :
    (suffix data n pos).length = n - pos := by
  rw [suffix, List.length_drop, textOf_length hlen]

theorem suffix_of_le (hlen : n ≤ data.length) {pos : Nat} (h : n ≤ pos) :
    suffix data n pos = [] := by
  rw [suffix, List.drop_eq_nil_of_le (by rw [textOf_length hlen]; exact h)]

theorem suffix_cons (hlen : n ≤ data.length) {pos : Nat} (h : pos < n) :
    ∃ b, data[pos]? = some b ∧ suffix data n pos = b.toNat :: suffix data n (pos + 1) := by
  refine ⟨data[pos], List.getElem?_eq_getElem (by omega), ?_⟩
  rw [suffix, List.drop_eq_getElem_cons (by rw [textOf_length hlen]; exact h)]
  simp [textOf, suffix]

theorem suffix_inj (hlen : n ≤ data.length) {p q : Nat} (hp : p ≤ n) (hq : q ≤ n)
    (h : suffix data n p = suffix data n q) : p = q := by
  have hlength := congrArg List.length h
  rw [suffix_length hlen, suffix_length hlen] at hlength
  omega

theorem suffix_take {pos k : Nat} (h : pos + k ≤ n) :
    (suffix data n pos).take k = (slice data pos k).map UInt8.toNat := by
  rw [suffix, textOf, slice, ← List.map_drop, ← List.map_take, List.drop_take, List.take_take,
    min_eq_left (by omega)]

theorem suffix_drop (pos k : Nat) : (suffix data n pos).drop k = suffix data n (pos + k) := by
  rw [suffix, suffix, List.drop_drop]

end Suffixes

section FullComparators

theorem compareSuffixesS4Loop_eq {view : Stage4View} (hlen : view.logicalLen ≤ view.data.length)
    (fuel a b : Nat) (ha : a ≤ view.logicalLen) (hb : b ≤ view.logicalLen)
    (hfuel : view.logicalLen < fuel + a) :
    compareSuffixesS4Loop view fuel a b =
      some (lexCmp (suffix view.data view.logicalLen a) (suffix view.data view.logicalLen b)) := by
  induction fuel generalizing a b with
  | zero => omega
  | succ fuel ih =>
      rw [compareSuffixesS4Loop]
      by_cases hlt : a < view.logicalLen ∧ b < view.logicalLen
      · obtain ⟨av, hav, hsa⟩ := suffix_cons hlen hlt.1
        obtain ⟨bv, hbv, hsb⟩ := suffix_cons hlen hlt.2
        simp only [if_pos hlt, hav, hbv, Option.bind_eq_bind, Option.bind_some]
        rw [hsa, hsb, lexCmp_cons, ← compare_toNat]
        split
        · rename_i hne
          rw [show (compare av bv).then _ = compare av bv by
            cases hc : compare av bv with
            | lt | gt => rfl
            | eq => exact absurd (Std.compare_eq_iff_eq.mp hc) hne]
        · rename_i heq
          obtain rfl : av = bv := not_not.mp heq
          rw [ih (a + 1) (b + 1) hlt.1 hlt.2 (by omega),
            (Std.compare_eq_iff_eq.mpr rfl : compare av av = .eq)]
          rfl
      · rw [if_neg hlt]
        rcases Nat.lt_or_ge a view.logicalLen with ha' | ha'
        · obtain rfl : b = view.logicalLen := by omega
          obtain ⟨av, -, hsa⟩ := suffix_cons hlen ha'
          rw [if_neg (by omega), if_neg (by omega), hsa, suffix_of_le hlen le_rfl, lexCmp_cons_nil]
        · obtain rfl : a = view.logicalLen := by omega
          rw [suffix_of_le hlen le_rfl]
          rcases Nat.lt_or_ge b view.logicalLen with hb' | hb'
          · obtain ⟨bv, -, hsb⟩ := suffix_cons hlen hb'
            rw [if_neg (by omega), if_pos rfl, hsb, lexCmp_nil_cons]
          · rw [if_pos ⟨rfl, by omega⟩, suffix_of_le hlen hb', lexCmp_nil]

theorem compareSuffixesS4_eq {view : Stage4View} (hlen : view.logicalLen ≤ view.data.length)
    {a b : Nat} (ha : a ≤ view.logicalLen) (hb : b ≤ view.logicalLen) :
    compareSuffixesS4 view a b =
      some (lexCmp (suffix view.data view.logicalLen a) (suffix view.data view.logicalLen b)) := by
  rw [compareSuffixesS4]
  split
  · rename_i hab
    rw [hab, lexCmp_self]
  · exact compareSuffixesS4Loop_eq hlen _ a b ha hb (by omega)

theorem loadBe64_eq {data : List UInt8} {pos : Nat} (h : pos + 8 ≤ data.length) :
    loadBe64 data pos = some (beValue (slice data pos 8)) := by
  rw [loadBe64, readAt_eq_some h]
  rfl

/-- Eight-byte loads inside the text compare as the windows they load. -/
theorem compare_loadBe64 {data : List UInt8} {n a b : Nat} (hlen : n ≤ data.length)
    (ha : a + 8 ≤ n) (hb : b + 8 ≤ n) :
    compare (beValue (slice data a 8)) (beValue (slice data b 8)) =
      lexCmp ((suffix data n a).take 8) ((suffix data n b).take 8) := by
  rw [← cmp_eq_compare, suffix_take ha, suffix_take hb, cmp_beValue]
  rw [slice_length (by omega), slice_length (by omega)]

/-- Peeling `k` entries off two windows of the same length. -/
theorem lexCmp_take_add {data : List UInt8} {n a b k m : Nat} (ha : a + k ≤ n) (hb : b + k ≤ n)
    (hlen : n ≤ data.length) :
    lexCmp ((suffix data n a).take (k + m)) ((suffix data n b).take (k + m)) =
      (lexCmp ((suffix data n a).take k) ((suffix data n b).take k)).then
        (lexCmp ((suffix data n (a + k)).take m) ((suffix data n (b + k)).take m)) := by
  rw [List.take_add, List.take_add, suffix_drop, suffix_drop, lexCmp_append]
  simp only [List.length_take, suffix_length hlen]
  omega

theorem then_of_ne {o o' : Ordering} (h : o ≠ .eq) : o.then o' = o := by
  cases o <;> first | rfl | exact absurd rfl h

theorem compareCommon_eq {data : List UInt8} {n a b common : Nat} (hlen : n ≤ data.length)
    (ha : a + common ≤ n) (hb : b + common ≤ n) (fuel offset : Nat) (hoffset : offset ≤ common)
    (hfuel : common < fuel + offset) :
    compareCommon data a b common fuel offset =
      some (lexCmp ((suffix data n (a + offset)).take (common - offset))
        ((suffix data n (b + offset)).take (common - offset))) := by
  induction fuel generalizing offset with
  | zero => omega
  | succ fuel ih =>
      rw [compareCommon]
      split
      · rename_i h8
        obtain ⟨m, rfl⟩ : ∃ m, common = offset + (8 + m) := ⟨common - offset - 8, by omega⟩
        have hnext := ih (offset + 8) (by omega) (by omega)
        simp only [loadBe64_eq (show a + offset + 8 ≤ data.length by omega),
          loadBe64_eq (show b + offset + 8 ≤ data.length by omega), Option.bind_eq_bind,
          Option.bind_some]
        rw [compare_loadBe64 hlen (by omega) (by omega), Nat.add_sub_cancel_left,
          lexCmp_take_add (by omega) (by omega) hlen]
        split
        · rename_i hne
          rw [then_of_ne hne]
        · rename_i heq
          rw [not_not.mp heq, hnext, show offset + (8 + m) - (offset + 8) = m by omega,
            ← Nat.add_assoc, ← Nat.add_assoc]
          rfl
      · split
        · rename_i h1
          obtain ⟨m, rfl⟩ : ∃ m, common = offset + (1 + m) := ⟨common - offset - 1, by omega⟩
          have hnext := ih (offset + 1) (by omega) (by omega)
          obtain ⟨av, hav, hsa⟩ := suffix_cons hlen (show a + offset < n by omega)
          obtain ⟨bv, hbv, hsb⟩ := suffix_cons hlen (show b + offset < n by omega)
          simp only [hav, hbv, Option.bind_eq_bind, Option.bind_some]
          rw [Nat.add_sub_cancel_left, lexCmp_take_add (by omega) (by omega) hlen, hsa, hsb,
            List.take_succ_cons, List.take_succ_cons, List.take_zero, List.take_zero, lexCmp_cons,
            lexCmp_nil, ← compare_toNat, Ordering.then_eq]
          split
          · rename_i hne
            rw [then_of_ne hne]
          · rename_i heq
            rw [not_not.mp heq, hnext, show offset + (1 + m) - (offset + 1) = m by omega,
              ← Nat.add_assoc, ← Nat.add_assoc]
            rfl
        · rw [show common - offset = 0 by omega, List.take_zero, List.take_zero, lexCmp_nil]

theorem compareSuffixesFull8_eq {view : Stage5View} (hlen : view.logicalLen ≤ view.data.length)
    {a b : Nat} (ha : a ≤ view.logicalLen) (hb : b ≤ view.logicalLen) :
    compareSuffixesFull8 view a b =
      some (lexCmp (suffix view.data view.logicalLen a) (suffix view.data view.logicalLen b)) := by
  rw [compareSuffixesFull8]
  split
  · rename_i hab
    rw [hab, lexCmp_self]
  · rw [require_eq_some ⟨ha, hb⟩]
    simp only [Option.bind_eq_bind, Option.bind_some]
    rw [compareCommon_eq hlen (by omega) (by omega) _ 0 (Nat.zero_le _) (by omega),
      Option.bind_some, lexCmp_eq_then_length (suffix view.data view.logicalLen a),
      suffix_length hlen, suffix_length hlen, cmp_eq_compare]
    simp only [Nat.add_zero, Nat.sub_zero]
    split
    · rename_i hne
      rw [then_of_ne hne]
    · rename_i heq
      rw [not_not.mp heq]
      rfl

end FullComparators

section Keys

/-- The three bytes at a position as the little-endian key. -/
def keyAt (data : List UInt8) (pos : Nat) : Nat := leValue (slice data pos 3)

/-- The key with its bytes swapped, which is the one runs are sorted by. -/
def orderKeyAt (data : List UInt8) (pos : Nat) : Nat := beValue (slice data pos 3)

theorem and_two_pow_mul (k i c : Nat) : k &&& (2 ^ i * c) = 2 ^ i * ((k / 2 ^ i) &&& c) := by
  apply Nat.eq_of_testBit_eq
  intro j
  rw [Nat.testBit_and, Nat.testBit_two_pow_mul, Nat.testBit_two_pow_mul, Nat.testBit_and,
    Nat.testBit_div_two_pow]
  by_cases h : i ≤ j
  · simp [h, Nat.sub_add_cancel h]
  · simp [h]

theorem stage5RadixOrderKey_bytes {x y z : Nat} (hx : x < 256) (hy : y < 256) (hz : z < 256) :
    stage5RadixOrderKey (x + 256 * (y + 256 * z)) = z + 256 * (y + 256 * x) := by
  have h0 : (x + 256 * (y + 256 * z)) &&& 0x0000ff = x := by
    rw [show 0xff = 2 ^ 8 - 1 by rfl, Nat.and_two_pow_sub_one_eq_mod]
    omega
  have h1 : (x + 256 * (y + 256 * z)) &&& 0x00ff00 = 2 ^ 8 * y := by
    rw [show 0xff00 = 2 ^ 8 * (2 ^ 8 - 1) by rfl, and_two_pow_mul, Nat.and_two_pow_sub_one_eq_mod]
    omega
  have h2 : (x + 256 * (y + 256 * z)) &&& 0xff0000 = 2 ^ 16 * z := by
    rw [show 0xff0000 = 2 ^ 16 * (2 ^ 8 - 1) by rfl, and_two_pow_mul,
      Nat.and_two_pow_sub_one_eq_mod]
    omega
  have hlow : y <<< 8 ||| z = y * 2 ^ 8 + z := by
    rw [← Nat.shiftLeft_add_eq_or_of_lt hz, Nat.shiftLeft_eq]
  rw [stage5RadixOrderKey, h0, h1, h2, Nat.shiftRight_eq_div_pow,
    Nat.mul_div_cancel_left _ (by decide), Nat.mul_comm (2 ^ 8) y, ← Nat.shiftLeft_eq, Nat.or_assoc,
    hlow, ← Nat.shiftLeft_add_eq_or_of_lt (by omega), Nat.shiftLeft_eq]
  omega

variable {data : List UInt8} {n : Nat}

theorem stage5RadixOrderKey_keyAt {pos : Nat} (h : pos + 3 ≤ data.length) :
    stage5RadixOrderKey (keyAt data pos) = orderKeyAt data pos := by
  obtain ⟨x, y, z, hxyz⟩ : ∃ x y z, slice data pos 3 = [x, y, z] :=
    List.length_eq_three.mp (slice_length h)
  have hswap := stage5RadixOrderKey_bytes x.toNat_lt y.toNat_lt z.toNat_lt
  simpa [keyAt, orderKeyAt, hxyz, beValue, leValue] using hswap

theorem load24Unchecked_eq {pos : Nat} (h : pos + 4 ≤ data.length) :
    load24Unchecked data pos = some (keyAt data pos) := by
  have hlt := leValue_lt (slice data pos 3)
  rw [slice_length (by omega)] at hlt
  rw [load24Unchecked, readAt_eq_some h]
  simp only [Option.bind_eq_bind, Option.bind_some, Option.some.injEq]
  rw [show 0x00ffffff = 2 ^ 24 - 1 by rfl, Nat.and_two_pow_sub_one_eq_mod,
    show 4 = 3 + 1 by rfl, slice_add, leValue_append, slice_length (by omega), keyAt]
  omega

/-- Inside the data the load with its own padding reads the same key. -/
theorem load24Padded_eq {pos : Nat} (h : pos + 3 ≤ data.length) :
    load24Padded data pos = keyAt data pos := by
  obtain ⟨x, y, z, hxyz⟩ : ∃ x y z, slice data pos 3 = [x, y, z] :=
    List.length_eq_three.mp (slice_length h)
  have hget : ∀ i < 3, data.getD (pos + i) 0 = [x, y, z].getD i 0 := by
    intro i hi
    rw [← hxyz, slice, List.getD_eq_getElem?_getD, List.getD_eq_getElem?_getD,
      List.getElem?_take_of_lt hi, List.getElem?_drop]
  have hx := hget 0 (by decide)
  have hy := hget 1 (by decide)
  have hz := hget 2 (by decide)
  rw [Nat.add_zero] at hx
  have hhigh : z.toNat <<< 16 = (z.toNat <<< 8) <<< 8 := by
    rw [← Nat.shiftLeft_add]
  have hsmall := x.toNat_lt
  have hmiddle := y.toNat_lt
  rw [load24Padded, if_pos (by omega), if_pos (by omega), if_pos (by omega), hx, hy, hz]
  change x.toNat ||| y.toNat <<< 8 ||| z.toNat <<< 16 = _
  rw [hhigh, Nat.or_assoc, ← Nat.shiftLeft_or_distrib, Nat.or_comm, Nat.or_comm y.toNat,
    ← Nat.shiftLeft_add_eq_or_of_lt hmiddle, ← Nat.shiftLeft_add_eq_or_of_lt hsmall, keyAt, hxyz,
    Nat.shiftLeft_eq, Nat.shiftLeft_eq]
  simp only [leValue]
  omega

theorem load24Padded_getD (data : List UInt8) (pos : Nat) :
    load24Padded data pos = (data.getD pos 0).toNat ||| (data.getD (pos + 1) 0).toNat <<< 8 |||
      (data.getD (pos + 2) 0).toNat <<< 16 := by
  have hbyte : ∀ i k, (if i < data.length then (data.getD i 0).toNat <<< k else 0) =
      (data.getD i 0).toNat <<< k := by
    intro i k
    split
    · rfl
    · rename_i hout
      rw [List.getD_eq_getElem?_getD, List.getElem?_eq_none (Nat.le_of_not_lt hout)]
      exact (Nat.zero_shiftLeft k).symm
  have hfirst := hbyte pos 0
  rw [Nat.shiftLeft_zero] at hfirst
  rw [load24Padded, hfirst, hbyte, hbyte]

/-- Zeros behind the data do not change the load with its own padding. -/
theorem load24Padded_zeros (data : List UInt8) (pos : Nat) :
    load24Padded (data ++ [0, 0, 0]) pos = load24Padded data pos := by
  have hget : ∀ i, (data ++ [0, 0, 0]).getD i 0 = data.getD i 0 := by
    intro i
    rw [List.getD_eq_getElem?_getD, List.getD_eq_getElem?_getD]
    rcases Nat.lt_or_ge i data.length with hin | hout
    · rw [List.getElem?_append_left hin]
    · rw [List.getElem?_append_right hout, List.getElem?_eq_none hout]
      rcases i - data.length with _ | _ | _ | k <;> rfl
  rw [load24Padded_getD, load24Padded_getD, hget, hget, hget]

/-- The key of a suffix: its first three bytes, zeros past the end of the text. -/
def textKey (data : List UInt8) (n pos : Nat) : Nat := load24Padded (data.take n) pos

theorem orderKeyAt_lt {pos : Nat} (h : pos + 3 ≤ data.length) : orderKeyAt data pos < 2 ^ 24 := by
  have hlt := beValue_lt (slice data pos 3)
  rw [slice_length h] at hlt
  exact hlt

theorem orderKeyAt_eq_of_keyAt {p q : Nat} (hp : p + 3 ≤ data.length) (hq : q + 3 ≤ data.length)
    (h : keyAt data p = keyAt data q) : orderKeyAt data p = orderKeyAt data q := by
  rw [orderKeyAt, leValue_inj (by rw [slice_length hp, slice_length hq]) h, orderKeyAt]

/-- The three bytes behind the text are zero. -/
def ZeroTail (data : List UInt8) (n : Nat) : Prop := slice data n 3 = [0, 0, 0]

theorem ZeroTail.length_le (h : ZeroTail data n) : n + 3 ≤ data.length := by
  have hlength := congrArg List.length h
  simp only [slice, List.length_take, List.length_drop, List.length_cons, List.length_nil]
    at hlength
  omega

/-- Behind a zero tail the key of a position is the padded start of its suffix. -/
theorem slice_eq_pad (hzero : ZeroTail data n) (hlen : n ≤ data.length) {pos : Nat}
    (hpos : pos ≤ n) : (slice data pos 3).map UInt8.toNat = pad 3 (suffix data n pos) := by
  have htake : data.take (n + 3) = data.take n ++ [0, 0, 0] := by
    rw [take_eq_slice, slice_add, Nat.zero_add, ← take_eq_slice, hzero]
  have hslice : slice data pos 3 = ((data.take n).drop pos ++ [0, 0, 0]).take 3 := by
    rw [← List.drop_append_of_le_length (by simp; omega), ← htake, List.drop_take, List.take_take,
      min_eq_left (by omega), slice]
  rw [hslice, List.map_take, List.map_append, List.map_drop, pad, suffix, textOf]
  rfl

theorem pad_eq_of_orderKeyAt (hzero : ZeroTail data n) (hlen : n + 3 ≤ data.length) {p q : Nat}
    (hp : p ≤ n) (hq : q ≤ n) (h : orderKeyAt data p = orderKeyAt data q) :
    pad 3 (suffix data n p) = pad 3 (suffix data n q) := by
  have hlength : (slice data p 3).length = (slice data q 3).length := by
    rw [slice_length (by omega), slice_length (by omega)]
  rw [← slice_eq_pad hzero (by omega) hp, ← slice_eq_pad hzero (by omega) hq,
    ← lexCmp_eq_eq_iff, ← cmp_beValue hlength]
  exact (cmp_eq_eq_iff _ _).mpr h

/-- The order of the keys is compatible with the order of the suffixes. -/
theorem suffix_lt_of_orderKeyAt_lt (hzero : ZeroTail data n) (hlen : n + 3 ≤ data.length)
    {p q : Nat} (hp : p ≤ n) (hq : q ≤ n) (h : orderKeyAt data p < orderKeyAt data q) :
    suffix data n p < suffix data n q := by
  apply lt_of_pad_lt (k := 3)
  rw [← slice_eq_pad hzero (by omega) hp, ← slice_eq_pad hzero (by omega) hq,
    ← lexCmp_eq_lt_iff, ← cmp_beValue (by rw [slice_length (by omega), slice_length (by omega)])]
  exact (cmp_eq_lt_iff _ _).mpr h

/-- Suffixes with the same window compare as what follows it. -/
theorem lt_of_drop_lt {k : Nat} {s t : List Nat} (hpad : pad k s = pad k t)
    (h : s.drop k < t.drop k) : s < t := by
  have ht : k < t.length := by
    by_contra hle
    rw [List.drop_eq_nil_of_le (by omega : t.length ≤ k)] at h
    exact absurd h (List.not_lt_nil _)
  rcases Nat.lt_or_ge s.length k with hs | hs
  · rw [← lexCmp_eq_lt_iff, lexCmp_of_pad_eq hpad (by omega), cmp_eq_lt_iff]
    omega
  · rw [pad_of_le hs, pad_of_le ht.le] at hpad
    rwa [← lexCmp_eq_lt_iff, lexCmp_drop_of_take_eq hpad, lexCmp_eq_lt_iff]

end Keys

section AfterKey

theorem compareSlices_eq (s t : List UInt8) :
    compareSlices s t = lexCmp (s.map UInt8.toNat) (t.map UInt8.toNat) := by
  induction s generalizing t with
  | nil => cases t <;> rfl
  | cons a s ih =>
      cases t with
      | nil => rfl
      | cons b t => rw [compareSlices, ih, compare_toNat, List.map_cons, List.map_cons, lexCmp_cons]

variable {data : List UInt8} {n : Nat}

theorem compareSlices_readAt (hlen : n ≤ data.length) {a b k : Nat} (ha : a + k ≤ n)
    (hb : b + k ≤ n) :
    (do let s ← readAt data a k
        let t ← readAt data b k
        some (compareSlices s t)) =
      some (lexCmp ((suffix data n a).take k) ((suffix data n b).take k)) := by
  rw [readAt_eq_some (by omega), readAt_eq_some (by omega), suffix_take ha, suffix_take hb,
    ← compareSlices_eq]
  rfl

/-- The eight-byte test and the slice comparison together compare the common
part. -/
theorem compareHead_then_rest (hlen : n ≤ data.length) {a b common : Nat} (ha : a + common ≤ n)
    (hb : b + common ≤ n) :
    ∃ head rest, compareHead data a b common = some head ∧
      compareRest data a b common = some rest ∧
      head.then rest = lexCmp ((suffix data n a).take common) ((suffix data n b).take common) := by
  rw [compareHead, compareRest]
  rcases Nat.lt_or_ge 8 common with hgt | hle
  · obtain ⟨m, rfl⟩ : ∃ m, common = 8 + m := ⟨common - 8, by omega⟩
    rw [if_pos (by omega), if_pos (by omega), loadBe64_eq (by omega), loadBe64_eq (by omega),
      Nat.add_sub_cancel_left, compareSlices_readAt hlen (by omega) (by omega),
      lexCmp_take_add (by omega) (by omega) hlen]
    refine ⟨_, _, rfl, rfl, ?_⟩
    rw [compare_loadBe64 hlen (by omega) (by omega)]
  · rw [if_neg (by omega : ¬common > 8), compareSlices_readAt hlen ha hb]
    rcases Nat.lt_or_ge common 8 with hlt | hge
    · rw [if_neg (by omega)]
      exact ⟨_, _, rfl, rfl, rfl⟩
    · obtain rfl : common = 8 := by omega
      rw [if_pos le_rfl, loadBe64_eq (by omega), loadBe64_eq (by omega)]
      refine ⟨_, _, rfl, rfl, ?_⟩
      -- The eight bytes are compared twice.
      rw [compare_loadBe64 hlen ha hb]
      cases lexCmp ((suffix data n a).take 8) ((suffix data n b).take 8) <;> rfl

/-- The comparison after a key, whatever the keys are. -/
theorem compareSuffixesAfterKey_eq {view : Stage5View} (hlen : view.logicalLen ≤ view.data.length)
    {a b : Nat} (ha : a ≤ view.logicalLen) (hb : b ≤ view.logicalLen) (hne : a ≠ b) :
    compareSuffixesAfterKey view a b = some
      (if min (view.logicalLen - a) (view.logicalLen - b) ≤ 3 then
        cmp (view.logicalLen - a) (view.logicalLen - b)
      else lexCmp (suffix view.data view.logicalLen (a + 3))
        (suffix view.data view.logicalLen (b + 3))) := by
  rw [compareSuffixesAfterKey, if_neg hne, require_eq_some ⟨ha, hb⟩, cmp_eq_compare]
  simp only [Option.bind_eq_bind, Option.bind_some]
  split
  · rfl
  · rename_i hlong
    obtain ⟨head, rest, hhead, hrest, hthen⟩ := compareHead_then_rest hlen
      (show a + 3 + (min (view.logicalLen - a) (view.logicalLen - b) - 3) ≤ view.logicalLen by omega)
      (show b + 3 + (min (view.logicalLen - a) (view.logicalLen - b) - 3) ≤ view.logicalLen by omega)
    have hlens : cmp (view.logicalLen - (a + 3)) (view.logicalLen - (b + 3)) =
        compare (view.logicalLen - a) (view.logicalLen - b) := by
      rw [← cmp_eq_compare, cmp_nat, cmp_nat]
      congr 1
      · rw [eq_iff_iff]
        omega
      · congr 1
        rw [eq_iff_iff]
        omega
    rw [hhead, hrest, lexCmp_eq_then_length, suffix_length hlen, suffix_length hlen, hlens,
      show min (view.logicalLen - (a + 3)) (view.logicalLen - (b + 3)) =
        min (view.logicalLen - a) (view.logicalLen - b) - 3 by omega, ← hthen, Ordering.then_assoc]
    simp only [Option.bind_some]
    split
    · rename_i hne
      rw [then_of_ne hne]
    · rename_i heq
      rw [not_not.mp heq, Option.some.injEq]
      split
      · rename_i hne
        rw [then_of_ne hne]
        rfl
      · rename_i heq
        rw [not_not.mp heq]
        rfl

theorem suffixLessAfterKey_isSome {view : Stage5View} (hlen : view.logicalLen ≤ view.data.length)
    {a b : Nat} (ha : a ≤ view.logicalLen) (hb : b ≤ view.logicalLen) :
    (suffixLessAfterKey view a b).isSome := by
  rw [suffixLessAfterKey]
  by_cases hne : a = b
  · rw [compareSuffixesAfterKey, if_pos hne]
    rfl
  · rw [compareSuffixesAfterKey_eq hlen ha hb hne, cmp_eq_compare]
    simp only [Option.bind_eq_bind, Option.bind_some]
    split <;> rfl

/-- A test that decides the order of two suffixes. -/
def Decides (view : Stage5View) (o : Option Bool) (a b : Nat) : Prop :=
  o = some true ∧ suffix view.data view.logicalLen a < suffix view.data view.logicalLen b ∨
  o = some false ∧ suffix view.data view.logicalLen b < suffix view.data view.logicalLen a

/-- Suffixes with the same key compare as they do in full. -/
theorem compareSuffixesAfterKey_of_pad {view : Stage5View}
    (hlen : view.logicalLen ≤ view.data.length) {a b : Nat} (ha : a ≤ view.logicalLen)
    (hb : b ≤ view.logicalLen)
    (hpad : pad 3 (suffix view.data view.logicalLen a) =
      pad 3 (suffix view.data view.logicalLen b)) :
    compareSuffixesAfterKey view a b =
      some (lexCmp (suffix view.data view.logicalLen a)
        (suffix view.data view.logicalLen b)) := by
  rcases eq_or_ne a b with rfl | hne
  · rw [compareSuffixesAfterKey, if_pos rfl, lexCmp_self]
  rw [compareSuffixesAfterKey_eq hlen ha hb hne, cmp_eq_compare]
  split
  · rename_i hshort
    rw [lexCmp_of_pad_eq hpad (by rwa [suffix_length hlen, suffix_length hlen]),
      suffix_length hlen, suffix_length hlen, cmp_eq_compare]
  · rename_i hlong
    rw [pad_of_le (by rw [suffix_length hlen]; omega),
      pad_of_le (by rw [suffix_length hlen]; omega)] at hpad
    rw [lexCmp_drop_of_take_eq hpad, suffix_drop, suffix_drop]

theorem suffixLessAfterKey_decides {view : Stage5View}
    (hlen : view.logicalLen ≤ view.data.length) {a b : Nat} (ha : a ≤ view.logicalLen)
    (hb : b ≤ view.logicalLen) (hne : a ≠ b)
    (hpad : pad 3 (suffix view.data view.logicalLen a) =
      pad 3 (suffix view.data view.logicalLen b)) :
    Decides view (suffixLessAfterKey view a b) a b := by
  rw [suffixLessAfterKey, compareSuffixesAfterKey_of_pad hlen ha hb hpad]
  simp only [Option.bind_eq_bind, Option.bind_some]
  rcases lt_trichotomy (suffix view.data view.logicalLen a)
    (suffix view.data view.logicalLen b) with hlt | heq | hgt
  · rw [(lexCmp_eq_lt_iff _ _).mpr hlt]
    exact .inl ⟨rfl, hlt⟩
  · exact absurd (suffix_inj hlen ha hb heq) hne
  · rw [(lexCmp_eq_gt_iff _ _).mpr hgt]
    exact .inr ⟨rfl, hgt⟩

theorem prefixLoop_eq (count m i q : Nat) (hm : count < m) (hm8 : m ≤ 8)
    (hi : i + count ≤ data.length) :
    prefixLoop data i count (8 * (m - 1)) (q * 256 ^ m) =
      some (q * 256 ^ m + beValue (slice data i count) * 256 ^ (m - count)) := by
  induction count generalizing m i q with
  | zero => simp [prefixLoop, beValue, leValue]
  | succ count ih =>
      obtain ⟨m, rfl⟩ : ∃ k, m = k + 1 := ⟨m - 1, by omega⟩
      have hbyte : data[i]? = some data[i] := List.getElem?_eq_getElem (by omega)
      have hslice : slice data i (count + 1) = data[i] :: slice data (i + 1) count := by
        rw [slice, List.drop_eq_getElem_cons (by omega), List.take_succ_cons, slice]
      have hshift : (8 * (m + 1 - 1) + 2 ^ 32 - 8) % 2 ^ 32 = 8 * (m - 1) := by omega
      have hlt : data[i].toNat <<< (8 * m) < 2 ^ (8 * (m + 1)) := by
        have hb := data[i].toNat_lt
        rw [Nat.shiftLeft_eq, show 8 * (m + 1) = 8 + 8 * m by omega, Nat.pow_add]
        exact Nat.mul_lt_mul_of_pos_right hb (Nat.pow_pos (by decide))
      have hor : q * 256 ^ (m + 1) ||| data[i].toNat <<< (8 * (m + 1 - 1)) =
          (q * 256 + data[i].toNat) * 256 ^ m := by
        have hpow : ∀ k, 256 ^ k = 2 ^ (8 * k) := fun k => by rw [Nat.pow_mul]
        rw [Nat.add_sub_cancel, hpow, hpow, ← Nat.shiftLeft_eq, ← Nat.shiftLeft_add_eq_or_of_lt hlt,
          Nat.shiftLeft_eq, Nat.shiftLeft_eq, show 8 * (m + 1) = 8 + 8 * m by omega, Nat.pow_add,
          Nat.add_mul, Nat.mul_assoc]
      rw [prefixLoop, hbyte]
      simp only [Option.bind_eq_bind, Option.bind_some]
      rw [hor, hshift, ih m (i + 1) _ (by omega) (by omega) (by omega), hslice, beValue_cons,
        slice_length (by omega), Option.some.injEq, Nat.add_mul, Nat.add_mul, Nat.mul_assoc,
        ← Nat.pow_succ', Nat.mul_assoc, ← Nat.pow_add, show count + (m + 1 - (count + 1)) = m by omega,
        show m + 1 - (count + 1) = m - count by omega, Nat.add_assoc]

/-- The prefix after a key is the number that the padded window writes. -/
theorem suffixPrefixAfterKey_eq {view : Stage5View} (hlen : view.logicalLen ≤ view.data.length)
    (pos : Nat) :
    ∃ w : List UInt8, w.length = 8 ∧
      w.map UInt8.toNat = pad 8 (suffix view.data view.logicalLen (pos + 3)) ∧
      suffixPrefixAfterKey view pos = some (beValue w) := by
  rw [suffixPrefixAfterKey]
  split
  · rename_i hfit
    refine ⟨slice view.data (pos + 3) 8, slice_length (by omega), ?_, loadBe64_eq (by omega)⟩
    rw [pad_of_le (by rw [suffix_length hlen]; omega), suffix_take hfit]
  · rename_i hshort
    have hcount : (slice view.data (pos + 3) (view.logicalLen - (pos + 3))).length =
        view.logicalLen - (pos + 3) := by
      rcases Nat.lt_or_ge view.logicalLen (pos + 3) with hlt | hge
      · rw [show view.logicalLen - (pos + 3) = 0 by omega, slice_zero, List.length_nil]
      · exact slice_length (by omega)
    have hmap : (slice view.data (pos + 3) (view.logicalLen - (pos + 3))).map UInt8.toNat =
        suffix view.data view.logicalLen (pos + 3) := by
      rcases Nat.lt_or_ge view.logicalLen (pos + 3) with hlt | hge
      · rw [show view.logicalLen - (pos + 3) = 0 by omega, slice_zero, suffix_of_le hlen hlt.le,
          List.map_nil]
      · rw [← suffix_take (n := view.logicalLen) (by omega),
          List.take_of_length_le (by rw [suffix_length hlen])]
    refine ⟨slice view.data (pos + 3) (view.logicalLen - (pos + 3)) ++
      List.replicate (8 - (view.logicalLen - (pos + 3))) 0, ?_, ?_, ?_⟩
    · rw [List.length_append, hcount, List.length_replicate]
      omega
    · rw [List.map_append, hmap, pad, List.take_append, List.take_of_length_le
        (by rw [suffix_length hlen]; omega), List.take_replicate, suffix_length hlen,
        min_eq_left (by omega)]
      simp
    · have hzeros : ∀ k, beValue (List.replicate k 0) = 0 := by
        intro k
        rw [beValue, List.reverse_replicate, leValue_replicate_zero]
      rcases Nat.lt_or_ge view.logicalLen (pos + 3) with hlt | hge
      · rw [show view.logicalLen - (pos + 3) = 0 by omega, slice_zero, List.nil_append, hzeros]
        rfl
      · have hloop := prefixLoop_eq (view.logicalLen - (pos + 3)) 8 (pos + 3) 0
          (by omega) (by omega) (show _ ≤ view.data.length by omega)
        rw [Nat.zero_mul, Nat.zero_add] at hloop
        rw [hloop, beValue_append, hzeros, List.length_replicate]
        rfl

theorem twoRunsLess_isSome {view : Stage5View} (hlen : view.logicalLen ≤ view.data.length)
    {a b : Nat} (ha : a ≤ view.logicalLen) (hb : b ≤ view.logicalLen) :
    (twoRunsLess view a b).isSome := by
  obtain ⟨wa, -, -, hwa⟩ := suffixPrefixAfterKey_eq hlen a
  obtain ⟨wb, -, -, hwb⟩ := suffixPrefixAfterKey_eq hlen b
  rw [twoRunsLess, hwa, hwb]
  simp only [Option.bind_eq_bind, Option.bind_some]
  split
  · rfl
  · split
    · exact suffixLessAfterKey_isSome hlen ha hb
    · rfl

/-- Smaller prefixes after equal keys belong to smaller suffixes. -/
theorem suffix_lt_of_prefix_lt {view : Stage5View} (hlen : view.logicalLen ≤ view.data.length)
    {a b pa pb : Nat} (ha : suffixPrefixAfterKey view a = some pa)
    (hb : suffixPrefixAfterKey view b = some pb) (hlt : pa < pb)
    (hpad : pad 3 (suffix view.data view.logicalLen a) =
      pad 3 (suffix view.data view.logicalLen b)) :
    suffix view.data view.logicalLen a < suffix view.data view.logicalLen b := by
  obtain ⟨wa, hla, hma, hwa⟩ := suffixPrefixAfterKey_eq hlen a
  obtain ⟨wb, hlb, hmb, hwb⟩ := suffixPrefixAfterKey_eq hlen b
  obtain rfl : beValue wa = pa := Option.some.inj (hwa.symm.trans ha)
  obtain rfl : beValue wb = pb := Option.some.inj (hwb.symm.trans hb)
  have hcmp := cmp_beValue (show wa.length = wb.length by rw [hla, hlb])
  rw [(cmp_eq_lt_iff _ _).mpr hlt, hma, hmb, eq_comm, lexCmp_eq_lt_iff] at hcmp
  apply lt_of_drop_lt hpad
  rw [suffix_drop, suffix_drop]
  exact lt_of_pad_lt hcmp

/-- The cached prefixes decide as the full comparison does. -/
theorem twoRunsLess_decides {view : Stage5View} (hlen : view.logicalLen ≤ view.data.length)
    {a b : Nat} (ha : a ≤ view.logicalLen) (hb : b ≤ view.logicalLen) (hne : a ≠ b)
    (hpad : pad 3 (suffix view.data view.logicalLen a) =
      pad 3 (suffix view.data view.logicalLen b)) :
    Decides view (twoRunsLess view a b) a b := by
  obtain ⟨wa, -, -, hwa⟩ := suffixPrefixAfterKey_eq hlen a
  obtain ⟨wb, -, -, hwb⟩ := suffixPrefixAfterKey_eq hlen b
  rw [twoRunsLess, hwa, hwb]
  simp only [Option.bind_eq_bind, Option.bind_some]
  split
  · rename_i hlt
    exact .inl ⟨rfl, suffix_lt_of_prefix_lt hlen hwa hwb hlt hpad⟩
  · split
    · exact suffixLessAfterKey_decides hlen ha hb hne hpad
    · rename_i hge hne'
      have hgt : beValue wb < beValue wa := by omega
      exact .inr ⟨rfl, suffix_lt_of_prefix_lt hlen hwb hwa hgt hpad.symm⟩

/-- A test that decides the order does it with the order itself. -/
theorem Decides.eq {view : Stage5View} {o : Option Bool} {a b : Nat} (h : Decides view o a b) :
    o = some (decide (suffix view.data view.logicalLen a <
      suffix view.data view.logicalLen b)) := by
  rcases h with ⟨rfl, hlt⟩ | ⟨rfl, hgt⟩
  · rw [decide_eq_true hlt]
  · rw [decide_eq_false (lt_asymm hgt)]

theorem suffixLessAfterKey_self (view : Stage5View) (a : Nat) :
    suffixLessAfterKey view a a = some false := by
  rw [suffixLessAfterKey, compareSuffixesAfterKey, if_pos rfl]
  simp

theorem twoRunsLess_self {view : Stage5View} (hlen : view.logicalLen ≤ view.data.length)
    (a : Nat) : twoRunsLess view a a = some false := by
  obtain ⟨w, -, -, hw⟩ := suffixPrefixAfterKey_eq hlen a
  rw [twoRunsLess, hw]
  simp only [Option.bind_eq_bind, Option.bind_some]
  rw [if_neg (lt_irrefl _), if_pos True.intro, suffixLessAfterKey_self]

/-- All comparators agree with the order of the suffixes, those that skip the key behind equal
keys.  A load past the data would give `none`. -/
theorem comparators_agree {data : List UInt8} {n : Nat} (hzero : ZeroTail data n)
    (flags : List UInt8) {a b : Nat} (ha : a < n) (hb : b < n) :
    let order := lexCmp (suffix data n a) (suffix data n b)
    let less := decide (suffix data n a < suffix data n b)
    let view : Stage5View := { logicalLen := n, data }
    compareSuffixesS4 { logicalLen := n, flags, data } a b = some order ∧
    compareSuffixesFull8 view a b = some order ∧
    (order = .eq ↔ a = b) ∧
    (load24Padded data a = load24Padded data b →
      compareSuffixesAfterKey view a b = some order ∧
      suffixLessAfterKey view a b = some less ∧
      (∃ pa pb, suffixPrefixAfterKey view a = some pa ∧ suffixPrefixAfterKey view b = some pb ∧
        (pa < pb → suffix data n a < suffix data n b)) ∧
      twoRunsLess view a b = some less) := by
  intro order less view
  have hdata : n + 3 ≤ data.length := hzero.length_le
  have hlen : view.logicalLen ≤ view.data.length := by
    change n ≤ data.length
    omega
  have hself : order = .eq ↔ a = b := by
    rw [lexCmp_eq_eq_iff]
    exact ⟨suffix_inj (by omega) ha.le hb.le, fun h => by rw [h]⟩
  refine ⟨compareSuffixesS4_eq (by simpa using hlen) ha.le hb.le,
    compareSuffixesFull8_eq hlen ha.le hb.le, hself, ?_⟩
  intro hkeys
  rw [load24Padded_eq (by omega), load24Padded_eq (by omega)] at hkeys
  have hpad : pad 3 (suffix data n a) = pad 3 (suffix data n b) :=
    pad_eq_of_orderKeyAt hzero hdata ha.le hb.le
      (orderKeyAt_eq_of_keyAt (by omega) (by omega) hkeys)
  have hless : ∀ test : Nat → Nat → Option Bool, test a a = some false →
      (a ≠ b → Decides view (test a b) a b) → test a b = some less := by
    intro test htest hdecides
    rcases eq_or_ne a b with rfl | hne
    · rw [htest]
      simp [less]
    · exact (hdecides hne).eq
  obtain ⟨wa, -, -, hwa⟩ := suffixPrefixAfterKey_eq hlen a
  obtain ⟨wb, -, -, hwb⟩ := suffixPrefixAfterKey_eq hlen b
  refine ⟨compareSuffixesAfterKey_of_pad hlen ha.le hb.le hpad, ?_,
    ⟨_, _, hwa, hwb, fun hlt => suffix_lt_of_prefix_lt hlen hwa hwb hlt hpad⟩, ?_⟩
  · exact hless _ (suffixLessAfterKey_self view a)
      fun hne => suffixLessAfterKey_decides hlen ha.le hb.le hne hpad
  · exact hless _ (twoRunsLess_self hlen a)
      fun hne => twoRunsLess_decides hlen ha.le hb.le hne hpad

/-- In a text of equal bytes all keys but the last two are equal. -/
theorem comparators_agree_aaaaa :
    compareSuffixesAfterKey { logicalLen := 5, data := [97, 97, 97, 97, 97, 0, 0, 0] } 0 1 =
        some (lexCmp (suffix [97, 97, 97, 97, 97, 0, 0, 0] 5 0)
          (suffix [97, 97, 97, 97, 97, 0, 0, 0] 5 1)) ∧
      twoRunsLess { logicalLen := 5, data := [97, 97, 97, 97, 97, 0, 0, 0] } 0 1 =
        some (decide (suffix [97, 97, 97, 97, 97, 0, 0, 0] 5 0 <
          suffix [97, 97, 97, 97, 97, 0, 0, 0] 5 1)) := by
  obtain ⟨-, -, -, hafter⟩ := @comparators_agree [97, 97, 97, 97, 97, 0, 0, 0] 5
    rfl [] 0 1 (by decide) (by decide)
  obtain ⟨hcompare, -, -, htwo⟩ := hafter (by decide)
  exact ⟨hcompare, htwo⟩

end AfterKey

end DirtybirdMiner.V114.Order
