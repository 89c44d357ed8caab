import Mathlib.Data.Nat.Bitwise

/-!
Registers of 256 bits as 32 bytes, with the vector instructions on bytes and on lanes of
16 bits, after their documented semantics.  A lane has its low byte first.  Shifts of
lanes, masked byte by byte, are shifts of bytes.
-/

namespace DirtybirdMiner.Lib.Lanes

abbrev Register : Type := Fin 32 → UInt8

section Instructions

/-- `_mm256_set1_epi8`. -/
def set1Epi8 (x : UInt8) : Register := fun _ => x

/-- `_mm256_and_si256`. -/
def andSi256 (a b : Register) : Register := fun k => a k &&& b k

/-- `_mm256_or_si256`. -/
def orSi256 (a b : Register) : Register := fun k => a k ||| b k

/-- `_mm256_xor_si256`. -/
def xorSi256 (a b : Register) : Register := fun k => a k ^^^ b k

/-- `_mm256_add_epi8`. -/
def addEpi8 (a b : Register) : Register := fun k => a k + b k

/-- `_mm256_sub_epi8`. -/
def subEpi8 (a b : Register) : Register := fun k => a k - b k

/-- `_mm256_cmpgt_epi8`, on signed bytes. -/
def cmpgtEpi8 (a b : Register) : Register := fun k =>
  if (b k).toInt8 < (a k).toInt8 then 0xff else 0

/-- `_mm256_cmpeq_epi8`. -/
def cmpeqEpi8 (a b : Register) : Register := fun k => if a k = b k then 0xff else 0

/-- `_mm256_blendv_epi8`: the highest bit of the mask takes the byte of `b`. -/
def blendvEpi8 (a b mask : Register) : Register := fun k => if 0x80 ≤ mask k then b k else a k

/-- Two bytes as a lane. -/
def pack (lo hi : UInt8) : UInt16 := lo.toUInt16 ||| hi.toUInt16 <<< 8

def lane (v : Register) (j : Fin 16) : UInt16 :=
  pack (v ⟨2 * j.val, by omega⟩) (v ⟨2 * j.val + 1, by omega⟩)

def ofLanes (w : Fin 16 → UInt16) : Register := fun k =>
  let x := w ⟨k.val / 2, by omega⟩
  if k.val % 2 = 0 then x.toUInt8 else (x >>> 8).toUInt8

/-- `_mm256_set1_epi16`. -/
def set1Epi16 (x : UInt16) : Register := ofLanes fun _ => x

/-- `_mm256_slli_epi16`: more than 15 bits shift everything out. -/
def slliEpi16 (n : Nat) (v : Register) : Register := ofLanes fun j =>
  if n < 16 then lane v j <<< UInt16.ofNat n else 0

/-- `_mm256_srli_epi16`. -/
def srliEpi16 (n : Nat) (v : Register) : Register := ofLanes fun j =>
  if n < 16 then lane v j >>> UInt16.ofNat n else 0

/-- `_mm256_mullo_epi16`. -/
def mulloEpi16 (a b : Register) : Register := ofLanes fun j => lane a j * lane b j

end Instructions

section Bytes

theorem testBit_byte_high (x : UInt8) {i : Nat} (hi : 8 ≤ i) : x.toNat.testBit i = false :=
  Nat.testBit_lt_two_pow (lt_of_lt_of_le x.toNat_lt (Nat.pow_le_pow_right (by decide) hi))

theorem byte_ext {x y : UInt8} (h : ∀ i < 8, x.toNat.testBit i = y.toNat.testBit i) : x = y := by
  apply UInt8.toNat_inj.mp
  apply Nat.eq_of_testBit_eq
  intro i
  rcases lt_or_ge i 8 with hi | hi
  · exact h i hi
  · rw [testBit_byte_high x hi, testBit_byte_high y hi]

theorem testBit_pack (lo hi : UInt8) (i : Nat) :
    (pack lo hi).toNat.testBit i =
      if i < 8 then lo.toNat.testBit i else hi.toNat.testBit (i - 8) := by
  have hlo : 8 ≤ i → lo.toNat.testBit i = false := fun h => testBit_byte_high lo h
  have hhi : 16 ≤ i → hi.toNat.testBit (i - 8) = false := fun h => testBit_byte_high hi (by omega)
  simp only [pack, UInt16.toNat_or, UInt16.toNat_shiftLeft, UInt8.toNat_toUInt16, Nat.testBit_or,
    Nat.testBit_mod_two_pow, Nat.testBit_shiftLeft, UInt16.reduceToNat, Nat.reduceMod]
  grind

theorem testBit_shl (x : UInt8) {n i : Nat} (hn : n < 8) (hi : i < 8) :
    (x <<< UInt8.ofNat n).toNat.testBit i = (decide (n ≤ i) && x.toNat.testBit (i - n)) := by
  have hmod : n % 2 ^ 8 % 8 = n := by omega
  rw [UInt8.toNat_shiftLeft, UInt8.toNat_ofNat', hmod, Nat.testBit_mod_two_pow,
    Nat.testBit_shiftLeft]
  simp [hi]

theorem testBit_shr (x : UInt8) {n : Nat} (hn : n < 8) (i : Nat) :
    (x >>> UInt8.ofNat n).toNat.testBit i = x.toNat.testBit (n + i) := by
  have hmod : n % 2 ^ 8 % 8 = n := by omega
  rw [UInt8.toNat_shiftRight, UInt8.toNat_ofNat', hmod, Nat.testBit_shiftRight]

theorem testBit_ones (i : Nat) : (0xff : UInt8).toNat.testBit i = decide (i < 8) :=
  Nat.testBit_two_pow_sub_one 8 i

theorem testBit_lane_shl (x : UInt16) {n i : Nat} (hn : n < 16) (hi : i < 16) :
    (x <<< UInt16.ofNat n).toNat.testBit i = (decide (n ≤ i) && x.toNat.testBit (i - n)) := by
  have hmod : n % 2 ^ 16 % 16 = n := by omega
  rw [UInt16.toNat_shiftLeft, UInt16.toNat_ofNat', hmod, Nat.testBit_mod_two_pow,
    Nat.testBit_shiftLeft]
  simp [hi]

theorem testBit_lane_shr (x : UInt16) {n : Nat} (hn : n < 16) (i : Nat) :
    (x >>> UInt16.ofNat n).toNat.testBit i = x.toNat.testBit (n + i) := by
  have hmod : n % 2 ^ 16 % 16 = n := by omega
  rw [UInt16.toNat_shiftRight, UInt16.toNat_ofNat', hmod, Nat.testBit_shiftRight]

theorem testBit_low (x : UInt16) {i : Nat} (hi : i < 8) :
    x.toUInt8.toNat.testBit i = x.toNat.testBit i := by
  rw [UInt16.toNat_toUInt8, Nat.testBit_mod_two_pow]
  simp [hi]

theorem testBit_high (x : UInt16) {i : Nat} (hi : i < 8) :
    (x >>> 8).toUInt8.toNat.testBit i = x.toNat.testBit (8 + i) := by
  rw [testBit_low _ hi]
  exact testBit_lane_shr x (n := 8) (by decide) i

@[simp] theorem low_pack (lo hi : UInt8) : (pack lo hi).toUInt8 = lo := by
  apply byte_ext
  intro i hi
  rw [testBit_low _ hi, testBit_pack, if_pos hi]

@[simp] theorem high_pack (lo hi : UInt8) : (pack lo hi >>> 8).toUInt8 = hi := by
  apply byte_ext
  intro i hi
  rw [testBit_high _ hi, testBit_pack, if_neg (by omega), Nat.add_sub_cancel_left]

theorem low_pack_shl (lo hi : UInt8) : (pack lo hi <<< 8).toUInt8 = 0 := by
  apply byte_ext
  intro i hi'
  rw [testBit_low _ hi', show (8 : UInt16) = UInt16.ofNat 8 from rfl,
    testBit_lane_shl _ (by decide) (by omega), decide_eq_false (by omega)]
  simp

theorem high_pack_shl (lo hi : UInt8) : (pack lo hi <<< 8 >>> 8).toUInt8 = lo := by
  apply byte_ext
  intro i hi'
  rw [testBit_high _ hi', show (8 : UInt16) = UInt16.ofNat 8 from rfl,
    testBit_lane_shl _ (by decide) (by omega), testBit_pack, if_pos (by omega),
    Nat.add_sub_cancel_left]
  simp

end Bytes

section Registers

/-- The lane of a byte, with its two bytes. -/
theorem lane_eq (v : Register) (k : Fin 32) : ∃ lo hi, lane v ⟨k.val / 2, by omega⟩ = pack lo hi ∧
    v k = if k.val % 2 = 0 then lo else hi := by
  refine ⟨_, _, rfl, ?_⟩
  split
  · congr 1
    apply Fin.ext
    dsimp only
    omega
  · congr 1
    apply Fin.ext
    dsimp only
    omega

/-- A shift of lanes to the left, without the bits of the byte below. -/
theorem slliEpi16_masked {n : Nat} (hn : n < 8) (v : Register) :
    andSi256 (slliEpi16 n v) (set1Epi8 (0xff <<< UInt8.ofNat n)) = fun k => v k <<< UInt8.ofNat n := by
  funext k
  obtain ⟨lo, hi, hlane, hbyte⟩ := lane_eq v k
  simp only [andSi256, slliEpi16, ofLanes, set1Epi8, hlane, hbyte, if_pos (show n < 16 by omega)]
  apply byte_ext
  intro i hi
  rw [UInt8.toNat_and, Nat.testBit_and, testBit_shl _ hn hi, testBit_shl _ hn hi, testBit_ones]
  split
  · rw [testBit_low _ hi, testBit_lane_shl _ (by omega) (by omega), testBit_pack,
      if_pos (by omega)]
    grind
  · rw [testBit_high _ hi, testBit_lane_shl _ (by omega) (by omega), testBit_pack]
    grind

/-- A shift of lanes to the right, without the bits of the byte above. -/
theorem srliEpi16_masked {n : Nat} (hn : n < 8) (v : Register) :
    andSi256 (srliEpi16 n v) (set1Epi8 (0xff >>> UInt8.ofNat n)) = fun k => v k >>> UInt8.ofNat n := by
  funext k
  obtain ⟨lo, hi, hlane, hbyte⟩ := lane_eq v k
  simp only [andSi256, srliEpi16, ofLanes, set1Epi8, hlane, hbyte, if_pos (show n < 16 by omega)]
  apply byte_ext
  intro i hi
  rw [UInt8.toNat_and, Nat.testBit_and, testBit_shr _ hn, testBit_shr _ hn, testBit_ones]
  split
  · rw [testBit_low _ hi, testBit_lane_shr _ (by omega), testBit_pack]
    have hhigh := testBit_byte_high lo (i := n + i)
    grind
  · rw [testBit_high _ hi, testBit_lane_shr _ (by omega), testBit_pack]
    have hhigh := testBit_byte_high
    grind

/-- The bytes at even and at odd places. -/
def interleave (low high : Fin 16 → UInt8) : Register := fun k =>
  if k.val % 2 = 0 then low ⟨k.val / 2, by omega⟩ else high ⟨k.val / 2, by omega⟩

theorem exists_interleave (v : Register) : ∃ low high, v = interleave low high := by
  refine ⟨fun j => v ⟨2 * j.val, by omega⟩, fun j => v ⟨2 * j.val + 1, by omega⟩, ?_⟩
  funext k
  obtain ⟨lo, hi, hlane, hbyte⟩ := lane_eq v k
  rw [interleave]
  split
  · congr 1
    apply Fin.ext
    dsimp only
    omega
  · congr 1
    apply Fin.ext
    dsimp only
    omega

theorem ofLanes_eq (w : Fin 16 → UInt16) :
    ofLanes w = interleave (fun j => (w j).toUInt8) (fun j => (w j >>> 8).toUInt8) := rfl

theorem lane_interleave (low high : Fin 16 → UInt8) (j : Fin 16) :
    lane (interleave low high) j = pack (low j) (high j) := by
  have hlow : interleave low high ⟨2 * j.val, by omega⟩ = low j := by
    rw [interleave, if_pos (by dsimp only; omega)]
    congr 1
    apply Fin.ext
    dsimp only
    omega
  have hhigh : interleave low high ⟨2 * j.val + 1, by omega⟩ = high j := by
    rw [interleave, if_neg (by dsimp only; omega)]
    congr 1
    apply Fin.ext
    dsimp only
    omega
  rw [lane, hlow, hhigh]

theorem andSi256_interleave (a b c d : Fin 16 → UInt8) :
    andSi256 (interleave a b) (interleave c d) =
      interleave (fun j => a j &&& c j) (fun j => b j &&& d j) := by
  funext k
  rw [andSi256, interleave, interleave, interleave]
  split <;> rfl

theorem orSi256_interleave (a b c d : Fin 16 → UInt8) :
    orSi256 (interleave a b) (interleave c d) =
      interleave (fun j => a j ||| c j) (fun j => b j ||| d j) := by
  funext k
  rw [orSi256, interleave, interleave, interleave]
  split <;> rfl

end Registers

end DirtybirdMiner.Lib.Lanes
