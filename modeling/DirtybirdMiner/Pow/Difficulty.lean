import DirtybirdMiner.Lib.Bytes

/-!
The difficulty check, from `astrobwt/src/difficulty.rs`.  The two hash functions
that the height selects between are parameters; big integers are naturals.
-/

namespace DirtybirdMiner.Pow.Difficulty

open DirtybirdMiner.Lib.Bytes

/-- `[u8; 32]`. -/
abbrev Hash : Type := { bytes : List UInt8 // bytes.length = 32 }

/-- `MINIBLOCK_HIGHDIFF`. -/
def miniblockHighdiff : Nat := 9

/-- The hash is read little-endian: its reverse is read big-endian. -/
def hashToBig (hash : Hash) : Nat := beValue hash.1.reverse

/-- The division by a zero difficulty panics in the source; callers refuse it. -/
def powTarget (difficulty : Nat) : Nat := 2 ^ 256 / difficulty

/-- `BigUint::to_bytes_le`: no leading zeros, and one byte for zero. -/
def toBytesLe (v : Nat) : List UInt8 := leBytes (v.log2 / 8 + 1) v

structure PowTarget where
  targetLe : Hash
  acceptsAll : Bool
deriving DecidableEq

def precomputePowTarget (difficulty : Nat) : PowTarget :=
  let targetBytes := toBytesLe (powTarget difficulty)
  if h : targetBytes.length > 32 then
    { targetLe := ⟨List.replicate 32 0xff, by simp⟩, acceptsAll := true }
  else
    { targetLe := ⟨copyAt (List.replicate 32 0) 0 targetBytes, by
        rw [copyAt_length] <;> simp; omega⟩
      acceptsAll := false }

/-- The loop over `(0..i).rev()` of `check_pow_hash_precomputed`. -/
def compareDown (powHash targetLe : List UInt8) : Nat → Bool
  | 0 => true
  | i + 1 =>
      if powHash.getD i 0 < targetLe.getD i 0 then true
      else if powHash.getD i 0 > targetLe.getD i 0 then false
      else compareDown powHash targetLe i

def checkPowHashPrecomputed (powHash : Hash) (target : PowTarget) : Bool :=
  if target.acceptsAll then true
  else compareDown powHash.1 target.targetLe.1 32

def checkPowHashBig (powHash : Hash) (difficulty : Nat) : Bool :=
  hashToBig powHash ≤ powTarget difficulty

section Selection

variable (pow16 astrobwtv3 : List UInt8 → Hash)

def powHashAtHeight (serialized : List UInt8) (height hf2Height : UInt64) : Hash :=
  if height < hf2Height then pow16 serialized else astrobwtv3 serialized

def verifyMiniblockPow (serializedMiniblock : List UInt8) (highDiff : Bool)
    (blockDifficulty : Nat) (height hf2Height : UInt64) : Bool :=
  let diff := if highDiff then blockDifficulty * miniblockHighdiff else blockDifficulty
  let pow := powHashAtHeight pow16 astrobwtv3 serializedMiniblock height hf2Height
  checkPowHashBig pow diff

end Selection

theorem hashToBig_eq_leValue (hash : Hash) : hashToBig hash = leValue hash.1 := by
  rw [hashToBig, beValue, List.reverse_reverse]

theorem leValue_take_succ (bytes : List UInt8) {i : Nat} (hi : i < bytes.length) :
    leValue (bytes.take (i + 1)) =
      leValue (bytes.take i) + 256 ^ i * (bytes.getD i 0).toNat := by
  have hlen : (bytes.take i).length = i := by simp; omega
  rw [List.take_succ_eq_append_getElem hi, leValue_append, hlen]
  simp [leValue, List.getD_eq_getElem?_getD, hi]

/-- Comparing from the most significant byte down compares the values. -/
theorem compareDown_iff {s t : List UInt8} (hlen : s.length = t.length) {i : Nat}
    (hi : i ≤ s.length) :
    compareDown s t i = true ↔ leValue (s.take i) ≤ leValue (t.take i) := by
  induction i with
  | zero => simp [compareDown]
  | succ i ih =>
      have hs := leValue_lt (s.take i)
      have ht := leValue_lt (t.take i)
      rw [List.length_take_of_le (by omega)] at hs ht
      rw [leValue_take_succ s (by omega), leValue_take_succ t (by omega), compareDown]
      split
      · rename_i hlt
        have hstep : 256 ^ i * ((s.getD i 0).toNat + 1) ≤ 256 ^ i * (t.getD i 0).toNat :=
          Nat.mul_le_mul_left _ (UInt8.lt_iff_toNat_lt.mp hlt)
        rw [Nat.mul_add, Nat.mul_one] at hstep
        simp only [true_iff]
        omega
      · split
        · rename_i hgt
          have hstep : 256 ^ i * ((t.getD i 0).toNat + 1) ≤ 256 ^ i * (s.getD i 0).toNat :=
            Nat.mul_le_mul_left _ (UInt8.lt_iff_toNat_lt.mp hgt)
          rw [Nat.mul_add, Nat.mul_one] at hstep
          simp only [Bool.false_eq_true, false_iff, not_le]
          omega
        · rename_i hge hle
          have heq : s.getD i 0 = t.getD i 0 :=
            UInt8.le_antisymm (UInt8.not_lt.mp hle) (UInt8.not_lt.mp hge)
          rw [ih (by omega), heq]
          exact (Nat.add_le_add_iff_right).symm

theorem leValue_replicate_zero (k : Nat) : leValue (List.replicate k 0) = 0 := by
  induction k with
  | zero => rfl
  | succ k ih => simp [List.replicate_succ, leValue, ih]

theorem leValue_toBytesLe (v : Nat) : leValue (toBytesLe v) = v := by
  have hlt : v < 256 ^ (v.log2 / 8 + 1) :=
    calc v < 2 ^ (v.log2 + 1) := Nat.lt_log2_self
      _ ≤ 2 ^ (8 * (v.log2 / 8 + 1)) := Nat.pow_le_pow_right (by omega) (by omega)
      _ = 256 ^ (v.log2 / 8 + 1) := by rw [Nat.pow_mul]
  rw [toBytesLe, leValue_leBytes, Nat.mod_eq_of_lt hlt]

/-- The bytes overflow the 32-byte buffer only for a target that no hash exceeds. -/
theorem toBytesLe_length_gt {v : Nat} (h : (toBytesLe v).length > 32) : 256 ^ 32 ≤ v := by
  rw [toBytesLe, leBytes_length] at h
  have hv : v ≠ 0 := by
    rintro rfl
    simp at h
  calc 256 ^ 32 = 2 ^ 256 := by norm_num
    _ ≤ 2 ^ v.log2 := Nat.pow_le_pow_right (by omega) (by omega)
    _ ≤ v := Nat.log2_self_le hv

/-- The precomputed check decides as the big-integer check does. -/
theorem checkPowHashPrecomputed_eq (powHash : Hash) (difficulty : Nat) :
    checkPowHashPrecomputed powHash (precomputePowTarget difficulty) =
      checkPowHashBig powHash difficulty := by
  rw [checkPowHashPrecomputed, precomputePowTarget, checkPowHashBig, hashToBig_eq_leValue]
  split
  · rename_i hlen
    have hlt := leValue_lt powHash.1
    rw [powHash.2] at hlt
    have hle := toBytesLe_length_gt hlen
    simp only [if_true, true_eq_decide_iff]
    omega
  · rename_i hlen
    have hbytes : (copyAt (List.replicate 32 0) 0 (toBytesLe (powTarget difficulty))).length
        = 32 := by
      rw [copyAt_length] <;> simp
      omega
    have hvalue : leValue (copyAt (List.replicate 32 0) 0 (toBytesLe (powTarget difficulty)))
        = powTarget difficulty := by
      rw [copyAt, List.take_zero, List.nil_append, List.drop_replicate, leValue_append,
        leValue_replicate_zero, leValue_toBytesLe, Nat.mul_zero, Nat.add_zero]
    simp only [Bool.false_eq_true, if_false]
    apply Bool.eq_iff_iff.mpr
    rw [compareDown_iff (powHash.2.trans hbytes.symm) (by rw [powHash.2]), decide_eq_true_iff,
      List.take_of_length_le (by rw [powHash.2]), List.take_of_length_le (by rw [hbytes]), hvalue]

theorem checkPowHashBig_iff (powHash : Hash) (difficulty : Nat) :
    checkPowHashBig powHash difficulty = true ↔ leValue powHash.1 ≤ 2 ^ 256 / difficulty := by
  rw [checkPowHashBig, decide_eq_true_iff, hashToBig_eq_leValue, powTarget]

/-- A target of 33 bytes is that of the difficulty one. -/
theorem toBytesLe_length_gt_iff (v : Nat) : (toBytesLe v).length > 32 ↔ 256 ^ 32 ≤ v := by
  refine ⟨toBytesLe_length_gt, ?_⟩
  intro h
  have hlog : 256 ≤ v.log2 := by
    rw [Nat.le_log2 (by omega)]
    exact h
  rw [toBytesLe, leBytes_length]
  omega

theorem acceptsAll_iff {difficulty : Nat} (h : 1 ≤ difficulty) :
    (precomputePowTarget difficulty).acceptsAll = true ↔ difficulty = 1 := by
  have hall : (precomputePowTarget difficulty).acceptsAll = true ↔
      (toBytesLe (powTarget difficulty)).length > 32 := by
    unfold precomputePowTarget
    dsimp only
    split <;> simp_all
  rw [hall, toBytesLe_length_gt_iff, powTarget, Nat.le_div_iff_mul_le h]
  constructor
  · intro hle
    by_contra hne
    have : 256 ^ 32 * 2 ≤ 256 ^ 32 * difficulty := Nat.mul_le_mul_left _ (by omega)
    omega
  · rintro rfl
    norm_num

/-- The precomputed target decides like the division, of any difficulty, and what passes
at a difficulty passes at every lower one. -/
theorem precomputed_target_exact (difficulty : Nat) (h : 1 ≤ difficulty) :
    (∀ powHash, checkPowHashPrecomputed powHash (precomputePowTarget difficulty) =
        checkPowHashBig powHash difficulty ∧
      (checkPowHashPrecomputed powHash (precomputePowTarget difficulty) = true ↔
        leValue powHash.1 ≤ 2 ^ 256 / difficulty)) ∧
    ((precomputePowTarget difficulty).acceptsAll = true ↔ difficulty = 1) ∧
    ∀ powHash lower, 1 ≤ lower → lower ≤ difficulty →
      checkPowHashPrecomputed powHash (precomputePowTarget difficulty) = true →
        checkPowHashPrecomputed powHash (precomputePowTarget lower) = true := by
  refine ⟨?_, acceptsAll_iff h, ?_⟩
  · intro powHash
    rw [checkPowHashPrecomputed_eq]
    exact ⟨rfl, checkPowHashBig_iff powHash difficulty⟩
  · intro powHash lower hpos hle hpass
    rw [checkPowHashPrecomputed_eq, checkPowHashBig_iff] at hpass ⊢
    exact hpass.trans (Nat.div_le_div_left hle hpos)

theorem precomputed_target_exact_nine :
    (1 : Nat) ≤ miniblockHighdiff ∧
      ((precomputePowTarget miniblockHighdiff).acceptsAll = true ↔ miniblockHighdiff = 1) :=
  ⟨by decide, (precomputed_target_exact miniblockHighdiff (by decide)).2.1⟩

end DirtybirdMiner.Pow.Difficulty
