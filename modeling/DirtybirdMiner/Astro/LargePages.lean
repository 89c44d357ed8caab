import DirtybirdMiner.Lib.Buffers

/-!
The buffer of `astrobwt/src/lpbuf.rs` against the vector it stands for.  A cell of its
memory is empty until something is written there.  The allocator may give more than it was
asked for, and how much more is part of a call; a failed allocation ends the program.
-/

namespace DirtybirdMiner.Astro.LargePages

open DirtybirdMiner.Lib.Bytes
open DirtybirdMiner.Lib.Buffers hiding resize
open DirtybirdMiner.Lib

/-- Where the memory came from. -/
inductive Kind where
  | large
  | heap
deriving DecidableEq

/-- `usize::MAX`. -/
def usizeMax : Nat := 2 ^ 64 - 1

structure LpVec (T : Type) where
  cells : List (Option T)
  len : Nat
  kind : Kind
deriving DecidableEq

namespace LpVec

variable {T : Type}

/-- What `with_capacity` returns, on either kind of memory. -/
def fresh (kind : Kind) (cap : Nat) : LpVec T where
  cells := List.replicate cap none
  len := 0
  kind := kind

def capacity (v : LpVec T) : Nat := v.cells.length

def asSlice (v : LpVec T) : List (Option T) := v.cells.take v.len

def clear (v : LpVec T) : LpVec T := { v with len := 0 }

/-- The pointer is left dangling, with no cells behind it. -/
def free (v : LpVec T) : LpVec T := { v with cells := [], len := 0 }

def growTo (v : LpVec T) (needed extra : Nat) : LpVec T :=
  let newCap := max (max needed (min (v.capacity * 2) usizeMax)) 8
  let block : List (Option T) := List.replicate (newCap + extra) none
  let block := copyAt block 0 v.asSlice
  { v.free with cells := block, kind := .heap }

def extendFromSlice (v : LpVec T) (src : List T) (extra : Nat) : LpVec T :=
  let newLen := v.len + src.length
  let v := if newLen > v.capacity then v.growTo newLen extra else v
  { v with cells := copyAt v.cells v.len (src.map some), len := newLen }

def resize (v : LpVec T) (newLen : Nat) (value : T) (extra : Nat) : LpVec T :=
  let v := if newLen > v.capacity then v.growTo newLen extra else v
  let v := if newLen > v.len then
      { v with cells := copyAt v.cells v.len (List.replicate (newLen - v.len) (some value)) }
    else v
  { v with len := newLen }

end LpVec

inductive Call (T : Type) where
  | clear
  | extendFromSlice (src : List T) (extra : Nat)
  | resize (newLen : Nat) (value : T) (extra : Nat)

variable {T : Type}

def step (v : LpVec T) : Call T → LpVec T
  | .clear => v.clear
  | .extendFromSlice src extra => v.extendFromSlice src extra
  | .resize newLen value extra => v.resize newLen value extra

/-- The same call of an ordinary vector. -/
def vecStep (xs : List T) : Call T → List T
  | .clear => []
  | .extendFromSlice src _ => xs ++ src
  | .resize newLen value _ => Buffers.resize xs newLen value

def run (v : LpVec T) (calls : List (Call T)) : LpVec T := calls.foldl step v

def vecRun (xs : List T) (calls : List (Call T)) : List T := calls.foldl vecStep xs

/-- Every cell of the slice holds what the vector holds there. -/
structure Refines (v : LpVec T) (xs : List T) : Prop where
  asSlice_eq : v.asSlice = xs.map some
  len_le : v.len ≤ v.capacity

/-- Growing must lose nothing: there is nothing to lose, or the fill of a `resize` writes
it again. -/
def Keeps (v : LpVec T) : Call T → Prop
  | .clear => True
  | .extendFromSlice src _ => v.len + src.length ≤ v.capacity ∨ v.len = 0
  | .resize newLen value _ => newLen ≤ v.capacity ∨ ∀ c ∈ v.asSlice, c = some value

def KeepsRun (v : LpVec T) : List (Call T) → Prop
  | [] => True
  | call :: calls => Keeps v call ∧ KeepsRun (step v call) calls

section Growth

variable {v : LpVec T} {xs src : List T} {newLen extra : Nat} {value : T}

theorem Refines.len_eq (h : Refines v xs) : v.len = xs.length := by
  have hlen := congrArg List.length h.asSlice_eq
  have hle : v.len ≤ v.cells.length := h.len_le
  simp only [LpVec.asSlice, List.length_take, List.length_map] at hlen
  omega

theorem growTo_capacity (h : Refines v xs) (hgrow : newLen > v.capacity) :
    newLen ≤ (v.growTo newLen extra).capacity := by
  have hlen := h.len_eq
  have hle := h.len_le
  have hslice : v.asSlice.length = xs.length := by rw [h.asSlice_eq, List.length_map]
  simp only [LpVec.growTo, LpVec.capacity] at hle hgrow ⊢
  rw [copyAt_length (by simp only [List.length_replicate, hslice]; omega), List.length_replicate]
  omega

/-- The length is not restored. -/
theorem growTo_len : (v.growTo newLen extra).len = 0 := rfl

theorem growTo_take (h : Refines v xs) (hgrow : newLen > v.capacity) :
    (v.growTo newLen extra).cells.take newLen =
      xs.map some ++ List.replicate (newLen - xs.length) none := by
  have hlen := h.len_eq
  have hle := h.len_le
  simp only [LpVec.growTo, LpVec.capacity] at hle hgrow ⊢
  rw [h.asSlice_eq, copyAt, List.take_zero, List.nil_append, List.drop_replicate,
    List.take_append, List.take_of_length_le (by simp; omega), List.length_map, List.take_replicate]
  congr 2
  omega

end Growth

section Steps

variable {v : LpVec T} {xs src : List T} {newLen extra : Nat} {value : T}

theorem fresh_refines (kind : Kind) (cap : Nat) : Refines (LpVec.fresh kind cap : LpVec T) [] :=
  ⟨by simp [LpVec.fresh, LpVec.asSlice], Nat.zero_le _⟩

theorem clear_refines : Refines v.clear [] :=
  ⟨by simp [LpVec.clear, LpVec.asSlice], Nat.zero_le _⟩

theorem extend_refines (h : Refines v xs) (hfits : v.len + src.length ≤ v.capacity) :
    Refines (v.extendFromSlice src extra) (xs ++ src) := by
  have hroom : v.len + (src.map some).length ≤ v.cells.length := by
    rw [List.length_map]
    exact hfits
  have hsame : v.extendFromSlice src extra =
      { v with cells := copyAt v.cells v.len (src.map some), len := v.len + src.length } := by
    simp only [LpVec.extendFromSlice, if_neg (Nat.not_lt.mpr hfits)]
  rw [hsame]
  constructor
  · have htake := take_copyAt hroom
    rw [List.length_map] at htake
    rw [List.map_append, ← h.asSlice_eq]
    exact htake
  · change v.len + src.length ≤ (copyAt v.cells v.len (src.map some)).length
    rw [copyAt_length hroom]
    exact hfits

/-- The fresh block has the old elements and nothing behind them; the new ones are then
written over them. -/
theorem extend_grown_refines_iff (h : Refines v xs) (hgrow : v.len + src.length > v.capacity) :
    Refines (v.extendFromSlice src extra) (xs ++ src) ↔ v.len = 0 := by
  have hlen := h.len_eq
  have hle := h.len_le
  have hcap := @growTo_capacity _ _ _ _ extra h hgrow
  have hroom : 0 + (src.map some).length ≤ (v.growTo (v.len + src.length) extra).cells.length := by
    rw [List.length_map]
    change _ ≤ (v.growTo (v.len + src.length) extra).capacity
    omega
  have hsame : v.extendFromSlice src extra =
      { v.growTo (v.len + src.length) extra with
        cells := copyAt (v.growTo (v.len + src.length) extra).cells 0 (src.map some)
        len := v.len + src.length } := by
    simp only [LpVec.extendFromSlice, if_pos hgrow, growTo_len]
  rw [hsame]
  constructor
  · intro hrefines
    by_contra hpos
    have hcell := congrArg (fun cells => cells[v.len + src.length - 1]?) hrefines.asSlice_eq
    have hold := congrArg (fun cells => cells[v.len + src.length - 1]?)
      (@growTo_take _ _ _ _ extra h hgrow)
    simp only [LpVec.asSlice, copyAt, List.take_zero, List.nil_append, Nat.zero_add,
      List.length_map] at hcell
    rw [List.getElem?_take_of_lt (by omega), List.getElem?_append_right (by simp; omega),
      List.length_map, List.getElem?_drop, show src.length + (v.len + src.length - 1 - src.length) =
        v.len + src.length - 1 by omega] at hcell
    rw [List.getElem?_take_of_lt (by omega), hcell,
      List.getElem?_append_right (by simp; omega)] at hold
    simp only [List.length_map, List.getElem?_map, List.getElem?_replicate] at hold
    rw [if_pos (by omega), List.getElem?_eq_getElem (by simp; omega)] at hold
    cases hold
  · intro hzero
    have hnil : xs = [] := List.length_eq_zero_iff.mp (by omega)
    subst hnil
    constructor
    · have htake := take_copyAt hroom
      rw [List.length_map] at htake
      change (copyAt _ 0 (src.map some)).take (v.len + src.length) = _
      rw [show v.len + src.length = 0 + src.length by omega]
      rw [show v.len + src.length = 0 + src.length by omega] at htake
      exact htake
    · change v.len + src.length ≤ (copyAt _ 0 (src.map some)).length
      rw [copyAt_length hroom]
      exact hcap

theorem resize_refines (h : Refines v xs) (hfits : newLen ≤ v.capacity) :
    Refines (v.resize newLen value extra) (Buffers.resize xs newLen value) := by
  have hlen := h.len_eq
  have hle := h.len_le
  simp only [LpVec.resize, if_neg (Nat.not_lt.mpr hfits)]
  split
  · rename_i hgt
    have hroom : v.len + (List.replicate (newLen - v.len) (some value)).length ≤
        v.cells.length := by
      rw [List.length_replicate, Nat.add_sub_cancel' hgt.le]
      exact hfits
    constructor
    · have htake := take_copyAt hroom
      rw [List.length_replicate, Nat.add_sub_cancel' hgt.le] at htake
      refine htake.trans ?_
      have hkept : xs.take newLen = xs := List.take_of_length_le (by omega)
      rw [Buffers.resize, List.map_append, hkept, ← hlen, ← h.asSlice_eq, List.map_replicate]
      rfl
    · change newLen ≤ (copyAt v.cells v.len _).length
      rw [copyAt_length hroom]
      exact hfits
  · rename_i hle'
    refine ⟨?_, hfits⟩
    have htake := congrArg (List.take newLen) h.asSlice_eq
    rw [LpVec.asSlice, List.take_take, min_eq_left (Nat.le_of_not_lt hle')] at htake
    refine htake.trans ?_
    rw [Buffers.resize, show newLen - xs.length = 0 by omega, List.replicate_zero,
      List.append_nil, List.map_take]

/-- The fill starts at the front: what was there survives only if it is the fill. -/
theorem resize_grown_refines_iff (h : Refines v xs) (hgrow : newLen > v.capacity) :
    Refines (v.resize newLen value extra) (Buffers.resize xs newLen value) ↔
      ∀ c ∈ v.asSlice, c = some value := by
  have hlen := h.len_eq
  have hle := h.len_le
  have hcap := @growTo_capacity _ _ _ _ extra h hgrow
  have hroom : 0 + (List.replicate newLen (some value)).length ≤
      (v.growTo newLen extra).cells.length := by
    rw [List.length_replicate, Nat.zero_add]
    exact hcap
  have hsame : v.resize newLen value extra =
      { v.growTo newLen extra with
        cells := copyAt (v.growTo newLen extra).cells 0 (List.replicate newLen (some value))
        len := newLen } := by
    simp only [LpVec.resize, if_pos hgrow, growTo_len, gt_iff_lt, Nat.sub_zero,
      if_pos (show 0 < newLen by omega)]
  have hslice : (v.resize newLen value extra).asSlice = List.replicate newLen (some value) := by
    have htake := take_copyAt hroom
    rw [List.length_replicate, Nat.zero_add, List.take_zero, List.nil_append] at htake
    rw [hsame]
    exact htake
  have hwanted : (Buffers.resize xs newLen value).map some =
      v.asSlice ++ List.replicate (newLen - xs.length) (some value) := by
    rw [Buffers.resize, List.map_append, List.take_of_length_le (by omega), h.asSlice_eq,
      List.map_replicate]
  constructor
  · intro hrefines c hc
    have heq := hrefines.asSlice_eq
    rw [hslice, hwanted] at heq
    have hmem : c ∈ List.replicate newLen (some value) := by
      rw [heq]
      exact List.mem_append_left _ hc
    exact List.eq_of_mem_replicate hmem
  · intro hall
    constructor
    · have hold : v.asSlice = List.replicate xs.length (some value) := by
        rw [List.eq_replicate_iff]
        exact ⟨by rw [h.asSlice_eq, List.length_map], hall⟩
      rw [hslice, hwanted, hold, List.replicate_append_replicate]
      congr 1
      omega
    · rw [hsame]
      change newLen ≤ (copyAt _ 0 _).length
      rw [copyAt_length hroom]
      exact hcap

/-- One call does what it does to a vector exactly when growing loses nothing. -/
theorem step_refines_iff (h : Refines v xs) (call : Call T) :
    Refines (step v call) (vecStep xs call) ↔ Keeps v call := by
  cases call with
  | clear => exact ⟨fun _ => trivial, fun _ => clear_refines⟩
  | extendFromSlice src extra =>
      rcases Nat.lt_or_ge v.capacity (v.len + src.length) with hgrow | hfits
      · refine (extend_grown_refines_iff h hgrow).trans ?_
        exact ⟨.inr, fun hkeeps => hkeeps.resolve_left (Nat.not_le.mpr hgrow)⟩
      · exact ⟨fun _ => .inl hfits, fun _ => extend_refines h hfits⟩
  | resize newLen value extra =>
      rcases Nat.lt_or_ge v.capacity newLen with hgrow | hfits
      · refine (resize_grown_refines_iff h hgrow).trans ?_
        exact ⟨.inr, fun hkeeps => hkeeps.resolve_left (Nat.not_le.mpr hgrow)⟩
      · exact ⟨fun _ => .inl hfits, fun _ => resize_refines h hfits⟩

/-- A run stays with its vector after every call exactly when every call loses nothing. -/
theorem run_refines_iff (h : Refines v xs) (calls : List (Call T)) :
    (∀ k ≤ calls.length, Refines (run v (calls.take k)) (vecRun xs (calls.take k))) ↔
      KeepsRun v calls := by
  induction calls generalizing v xs with
  | nil => exact ⟨fun _ => trivial, fun _ k _ => by rw [List.take_nil]; exact h⟩
  | cons call calls ih =>
      constructor
      · intro hall
        have hstep : Refines (step v call) (vecStep xs call) :=
          hall 1 (by rw [List.length_cons]; omega)
        refine ⟨(step_refines_iff h call).mp hstep, (ih hstep).mp ?_⟩
        intro k hk
        exact hall (k + 1) (by rw [List.length_cons]; omega)
      · rintro ⟨hkeeps, hrest⟩ k hk
        have hstep := (step_refines_iff h call).mpr hkeeps
        cases k with
        | zero => exact h
        | succ k => exact (ih hstep).mpr hrest k (by rw [List.length_cons] at hk; omega)

end Steps

/-- The buffer is the vector it stands for in the runs that never grow over elements they
would lose, and in no others. -/
theorem lpVec_refines_iff (kind : Kind) (cap : Nat) (calls : List (Call T)) :
    (∀ k ≤ calls.length,
      Refines (run (LpVec.fresh kind cap) (calls.take k)) (vecRun [] (calls.take k))) ↔
      KeepsRun (LpVec.fresh kind cap : LpVec T) calls :=
  run_refines_iff (fresh_refines kind cap) calls

/-- One element, and another for which the buffer has to grow. -/
def growingCalls : List (Call UInt8) :=
  [.extendFromSlice [1] 0, .extendFromSlice [2] 0]

/-- The second element is written over the first, and the place of the second is empty. -/
theorem growingCalls_not_refines :
    (run (LpVec.fresh .heap 1) growingCalls).asSlice = [some 2, none] ∧
      vecRun [] growingCalls = [1, 2] ∧
      ¬Refines (run (LpVec.fresh .heap 1) growingCalls) (vecRun [] growingCalls) := by
  have hslice : (run (LpVec.fresh .heap 1) growingCalls).asSlice = [some 2, none] := by decide
  refine ⟨hslice, by decide, ?_⟩
  intro hrefines
  have heq := hrefines.asSlice_eq
  rw [hslice] at heq
  exact absurd heq (by decide)

end DirtybirdMiner.Astro.LargePages
