import DirtybirdMiner.Lib.Bytes
import DirtybirdMiner.Sais.Correct

/-!
The proof of work before the fork, from `astrobwt/src/pow16.rs`: the hash of the suffix array of
a key stream.  Every input has one, and it tells the order of the suffixes.
-/

namespace DirtybirdMiner.Pow.Pow16

open DirtybirdMiner.Lib.Bytes
open DirtybirdMiner.Lib.SuffixOrder
open DirtybirdMiner.Sais.Model
open DirtybirdMiner.Sais.Correct

def stage1Length : Nat := 9973

-- SHA3-256 and the key stream of the crates.
variable (sha3256 : List UInt8 → FixedBytes 32)
  (salsa20Keystream : FixedBytes 32 → (len : Nat) → FixedBytes len)

def stage1 (input : List UInt8) : FixedBytes stage1Length :=
  salsa20Keystream (sha3256 input) stage1Length

/-- `(v as u16).to_le_bytes()`, one entry after the other. -/
def saBytes (sa : List Int) : List UInt8 := sa.flatMap fun v => leBytes 2 (v % 65536).toNat

/-- `none` is a panic. -/
def pow16 (input : List UInt8) : Option (FixedBytes 32) := do
  let sa ← suffixArray16 (stage1 sha3256 salsa20Keystream input).1.toArray
  some (sha3256 (saBytes sa.toList))

section Entries

/-- The bytes of positions. -/
theorem saBytes_positions {order : List Nat} (h : ∀ x ∈ order, x < 65536) :
    saBytes (order.map fun x : Nat => (x : Int)) = order.flatMap (leBytes 2) := by
  rw [saBytes, List.flatMap_map]
  apply List.flatMap_congr
  intro x hx
  have hlt := h x hx
  have hvalue : ((x : Int) % 65536).toNat = x := by omega
  rw [hvalue]

theorem positions_length (order : List Nat) :
    (order.flatMap (leBytes 2)).length = 2 * order.length := by
  induction order with
  | nil => rfl
  | cons x order ih =>
      rw [List.flatMap_cons, List.length_append, ih, leBytes_length, List.length_cons]
      omega

theorem positions_injective {order order' : List Nat} (h : ∀ x ∈ order, x < 65536)
    (h' : ∀ x ∈ order', x < 65536)
    (heq : order.flatMap (leBytes 2) = order'.flatMap (leBytes 2)) : order = order' := by
  induction order generalizing order' with
  | nil =>
      cases order' with
      | nil => rfl
      | cons y order' => cases heq
  | cons x order ih =>
      cases order' with
      | nil => cases heq
      | cons y order' =>
          rw [List.flatMap_cons, List.flatMap_cons] at heq
          obtain ⟨hfirst, hrest⟩ := List.append_inj heq (by simp)
          have hx := h x List.mem_cons_self
          have hy := h' y List.mem_cons_self
          have hvalue := congrArg leValue hfirst
          have hpow : 256 ^ 2 = 65536 := rfl
          rw [leValue_leBytes, leValue_leBytes, hpow, Nat.mod_eq_of_lt hx, Nat.mod_eq_of_lt hy]
            at hvalue
          rw [hvalue, ih (fun z hz => h z (List.mem_cons_of_mem x hz))
            (fun z hz => h' z (List.mem_cons_of_mem y hz)) hrest]

end Entries

/-- The order of the suffixes of some bytes. -/
abbrev Sorted (bytes : List UInt8) (order : List Nat) : Prop :=
  IsSuffixArray (bytes.map UInt8.toNat) order

theorem Sorted.mem_lt {bytes : List UInt8} {order : List Nat} (h : Sorted bytes order)
    {x : Nat} (hx : x ∈ order) : x < bytes.length := by
  have hmem := h.1.mem_iff.mp hx
  rwa [List.mem_range, List.length_map] at hmem

theorem Sorted.length_eq {bytes : List UInt8} {order : List Nat} (h : Sorted bytes order) :
    order.length = bytes.length := by
  rw [h.1.length_eq, List.length_range, List.length_map]

theorem pow16_returns (input : List UInt8) :
    ∃ order, Sorted (stage1 sha3256 salsa20Keystream input).1 order ∧
      (∀ x ∈ order, x < 65536) ∧
      pow16 sha3256 salsa20Keystream input = some (sha3256 (order.flatMap (leBytes 2))) := by
  have hlength := (stage1 sha3256 salsa20Keystream input).2
  have hsize : (stage1 sha3256 salsa20Keystream input).1.toArray.size < 2 ^ 15 := by
    rw [List.size_toArray, hlength]
    decide
  obtain ⟨sa, hrun, order, horder, hsorted⟩ := suffixArray16_returns hsize
  have hlt : ∀ x ∈ order, x < 65536 := by
    intro x hx
    have hbound := Sorted.mem_lt hsorted hx
    rw [hlength, stage1Length] at hbound
    omega
  refine ⟨order, hsorted, hlt, ?_⟩
  rw [pow16, hrun, ← saBytes_positions hlt, ← horder]
  rfl

/-- Every input has a proof of work: the hash of two bytes for each suffix of the key stream, in
their order.  Two inputs have the same one if and only if the suffixes of their key streams have
the same order, or what is hashed is a collision. -/
theorem pow16_binds (input input' : List UInt8) :
    (∃ order, Sorted (stage1 sha3256 salsa20Keystream input).1 order) ∧
    ∀ order order', Sorted (stage1 sha3256 salsa20Keystream input).1 order →
      Sorted (stage1 sha3256 salsa20Keystream input').1 order' →
      pow16 sha3256 salsa20Keystream input = some (sha3256 (order.flatMap (leBytes 2))) ∧
      (order.flatMap (leBytes 2)).length = 19946 ∧
      (pow16 sha3256 salsa20Keystream input = pow16 sha3256 salsa20Keystream input' ↔
        order = order' ∨ order.flatMap (leBytes 2) ≠ order'.flatMap (leBytes 2) ∧
          sha3256 (order.flatMap (leBytes 2)) = sha3256 (order'.flatMap (leBytes 2))) := by
  obtain ⟨order, hsorted, hlt, hpow⟩ := pow16_returns sha3256 salsa20Keystream input
  obtain ⟨order', hsorted', hlt', hpow'⟩ := pow16_returns sha3256 salsa20Keystream input'
  refine ⟨⟨order, hsorted⟩, ?_⟩
  intro _ _ hother hother'
  obtain rfl := hsorted.unique hother
  obtain rfl := hsorted'.unique hother'
  refine ⟨hpow, ?_, ?_⟩
  · rw [positions_length, hsorted.length_eq, (stage1 sha3256 salsa20Keystream input).2]
    rfl
  · rw [hpow, hpow', Option.some.injEq]
    constructor
    · intro hhash
      by_cases hbytes : order.flatMap (leBytes 2) = order'.flatMap (leBytes 2)
      · exact .inl (positions_injective hlt hlt' hbytes)
      · exact .inr ⟨hbytes, hhash⟩
    · rintro (rfl | ⟨-, hhash⟩)
      · rfl
      · exact hhash

end DirtybirdMiner.Pow.Pow16
