import DirtybirdMiner.Crypto.Vectors
import DirtybirdMiner.Crypto.Statements

/-!
Hashing to numbers and the generators, from `crypto/src/hashtopoint.rs` and
`crypto/src/generators.rs`.  The hash function and the map from numbers to points
are those of any group.
-/

namespace DirtybirdMiner.Crypto.Hashing

open DirtybirdMiner.Lib.Bytes
open DirtybirdMiner.Lib.Tables
open DirtybirdMiner.Crypto.Statements (to32Be)

/-- `keccak256` and `hash_to_point`. -/
structure Hashes (G : Type) where
  keccak256 : List UInt8 → FixedBytes 32
  hashToPoint : Nat → G

/-- `"DERO"`. -/
def protocolConstant : List UInt8 := [0x44, 0x45, 0x52, 0x4f]

def generatorCount : Nat := 128

structure Generators (G : Type) where
  g : G
  h : G
  gs : List G
  hs : List G
  gsum : G

variable {G : Type} (E : Hashes G)

def Hashes.hashToNumber (input : List UInt8) : Nat := beValue (E.keccak256 input).1

def Hashes.reducedHash (input : List UInt8) : Nat := Scalars.reduce (E.hashToNumber input)

/-- The labels are `"G"` and `"H"`. -/
def Hashes.indexedSeed (label : UInt8) (i : Nat) : Nat :=
  E.hashToNumber (protocolConstant ++ [label] ++ to32Be i)

/-- `compute`, whose result is kept. -/
def Hashes.generators [AddCommGroup G] : Generators G :=
  let gs := table generatorCount fun i => E.hashToPoint (E.indexedSeed 0x47 i)
  let hs := table generatorCount fun i => E.hashToPoint (E.indexedSeed 0x48 i)
  { g := E.hashToPoint (E.hashToNumber (protocolConstant ++ [0x47]))
    h := E.hashToPoint (E.hashToNumber (protocolConstant ++ [0x48]))
    gs, hs
    gsum := gs.foldl (fun sum p => sum + p) 0 }

theorem reducedHash_lt (input : List UInt8) : E.reducedHash input < Scalars.order :=
  Scalars.reduce_lt _

section Generators

variable [AddCommGroup G]

theorem gs_length : E.generators.gs.length = 128 := table_length _ _

theorem hs_length : E.generators.hs.length = 128 := table_length _ _

theorem gs_getD {i : Nat} (hi : i < 128) :
    E.generators.gs.getD i 0 = E.hashToPoint (E.indexedSeed 0x47 i) := getD_table _ 0 hi

/-- The sum of the generators. -/
theorem gsum_eq : E.generators.gsum = ∑ i ∈ Finset.range 128, E.generators.gs.getD i 0 := by
  have hfold : ∀ (n : Nat) (f : Nat → G),
      (table n f).foldl (fun sum p => sum + p) 0 = ∑ i ∈ Finset.range n, f i := by
    intro n f
    induction n with
    | zero => rfl
    | succ n ih => rw [foldl_table, ih, Finset.sum_range_succ]
  calc E.generators.gsum
      = ∑ i ∈ Finset.range 128, E.hashToPoint (E.indexedSeed 0x47 i) := hfold _ _
    _ = ∑ i ∈ Finset.range 128, E.generators.gs.getD i 0 := by
      apply Finset.sum_congr rfl
      intro i hi
      rw [gs_getD E (Finset.mem_range.mp hi)]

end Generators

end DirtybirdMiner.Crypto.Hashing
