import DirtybirdMiner.Lib.Checked
import Mathlib.Algebra.BigOperators.Group.Finset.Basic
import Mathlib.Algebra.BigOperators.Intervals

/-!
Lists as tables of functions on the numbers below their length, and the loops that
fill tables and add up sums.
-/

namespace DirtybirdMiner.Lib.Tables

open DirtybirdMiner.Lib.Checked

variable {α β γ : Type}

def table (n : Nat) (f : Nat → α) : List α := (List.range n).map f

@[simp] theorem table_length (n : Nat) (f : Nat → α) : (table n f).length = n := by
  simp [table]

@[simp] theorem table_zero (f : Nat → α) : table 0 f = [] := rfl

theorem table_succ (n : Nat) (f : Nat → α) : table (n + 1) f = table n f ++ [f n] := by
  simp [table, List.range_succ]

theorem getElem?_table {n i : Nat} (f : Nat → α) (hi : i < n) : (table n f)[i]? = some (f i) := by
  simp [table, hi]

theorem getD_table {n i : Nat} (f : Nat → α) (d : α) (hi : i < n) : (table n f).getD i d = f i := by
  rw [List.getD_eq_getElem?_getD, getElem?_table f hi, Option.getD_some]

theorem table_congr {n : Nat} {f g : Nat → α} (h : ∀ i < n, f i = g i) : table n f = table n g := by
  apply List.map_congr_left
  intro i hi
  exact h i (List.mem_range.mp hi)

theorem getElem?_eq_getD {l : List α} {i : Nat} (d : α) (hi : i < l.length) :
    l[i]? = some (l.getD i d) := by
  rw [List.getD_eq_getElem?_getD, List.getElem?_eq_getElem hi, Option.getD_some]

/-- Every list is the table of its elements. -/
theorem eq_table (l : List α) (d : α) : l = table l.length fun i => l.getD i d := by
  apply List.ext_getElem?
  intro i
  rcases lt_or_ge i l.length with hi | hi
  · rw [getElem?_table _ hi, List.getD_eq_getElem?_getD, List.getElem?_eq_getElem hi,
      Option.getD_some]
  · rw [List.getElem?_eq_none hi, List.getElem?_eq_none (by simpa using hi)]

theorem exists_table {l : List α} {n : Nat} (d : α) (h : l.length = n) :
    ∃ f : Nat → α, l = table n f :=
  ⟨_, h ▸ eq_table l d⟩

theorem table_inj {n : Nat} {f g : Nat → α} (h : table n f = table n g) {i : Nat} (hi : i < n) :
    f i = g i := by
  have hcell := congrArg (fun l => l[i]?) h
  simpa [getElem?_table _ hi] using hcell

@[simp] theorem map_table (g : α → β) (n : Nat) (f : Nat → α) :
    (table n f).map g = table n fun i => g (f i) := by
  simp [table]

@[simp] theorem zipWith_table (g : α → β → γ) (n : Nat) (f : Nat → α) (f' : Nat → β) :
    List.zipWith g (table n f) (table n f') = table n fun i => g (f i) (f' i) := by
  simp [table, List.zipWith_map]

@[simp] theorem zip_table (n : Nat) (f : Nat → α) (f' : Nat → β) :
    List.zip (table n f) (table n f') = table n fun i => (f i, f' i) := zipWith_table ..

theorem take_table {m n : Nat} (f : Nat → α) (h : m ≤ n) : (table n f).take m = table m f := by
  simp [table, ← List.map_take, List.take_range, h]

theorem drop_table (m n : Nat) (f : Nat → α) :
    (table (m + n) f).drop m = table n fun i => f (m + i) := by
  apply List.ext_getElem?
  intro i
  rcases lt_or_ge i n with hi | hi
  · rw [List.getElem?_drop, getElem?_table _ (by omega), getElem?_table _ hi]
  · rw [List.getElem?_eq_none (by simp; omega), List.getElem?_eq_none (by simpa using hi)]

/-- Two tables, one behind the other. -/
theorem table_append (m n : Nat) (f g : Nat → α) :
    table m f ++ table n g = table (m + n) fun i => if i < m then f i else g (i - m) := by
  apply List.ext_getElem?
  intro i
  rcases lt_or_ge i m with hi | hi
  · rw [List.getElem?_append_left (by simpa using hi), getElem?_table _ hi,
      getElem?_table _ (by omega), if_pos hi]
  · rw [List.getElem?_append_right (by simpa using hi), table_length]
    rcases lt_or_ge i (m + n) with hn | hn
    · rw [getElem?_table _ (by omega), getElem?_table _ hn, if_neg (not_lt.mpr hi)]
    · rw [List.getElem?_eq_none (by simp; omega), List.getElem?_eq_none (by simpa using hn)]

theorem replicate_eq_table (n : Nat) (a : α) : List.replicate n a = table n fun _ => a := by
  simp [table]

/-- A cell is set. -/
theorem set_table (n : Nat) (f : Nat → α) (i : Nat) (a : α) :
    (table n f).set i a = table n (Function.update f i a) := by
  apply List.ext_getElem?
  intro j
  rw [List.getElem?_set]
  rcases lt_or_ge j n with hj | hj
  · rw [getElem?_table _ hj, getElem?_table _ hj, table_length]
    split
    · rename_i hij
      rw [if_pos (hij ▸ hj), hij, Function.update_self]
    · rename_i hij
      rw [Function.update_of_ne (Ne.symm hij)]
  · rw [List.getElem?_eq_none (by simpa using hj), List.getElem?_eq_none (by simpa using hj),
      table_length]
    split
    · rename_i hij
      rw [if_neg (by omega)]
    · rfl

theorem foldl_table (g : β → α → β) (n : Nat) (f : Nat → α) (b : β) :
    (table (n + 1) f).foldl g b = g ((table n f).foldl g b) (f n) := by
  rw [table_succ, List.foldl_append, List.foldl_cons, List.foldl_nil]

section Slices

/-- `l[start..stop]`. -/
def slice (l : List α) (start stop : Nat) : Option (List α) :=
  if start ≤ stop ∧ stop ≤ l.length then some ((l.drop start).take (stop - start)) else none

theorem slice_lower {m n : Nat} (f : Nat → α) (h : m ≤ n) :
    slice (table n f) 0 m = some (table m f) := by
  rw [slice, if_pos ⟨Nat.zero_le m, by simpa using h⟩, List.drop_zero, Nat.sub_zero,
    take_table f h]

theorem slice_upper (m n : Nat) (f : Nat → α) :
    slice (table (m + n) f) m (m + n) = some (table n fun i => f (m + i)) := by
  rw [slice, if_pos ⟨by omega, by simp⟩, drop_table, Nat.add_sub_cancel_left,
    take_table _ (le_refl n)]

/-- `iter().enumerate().filter(|(i, _)| i % 2 == remainder)`. -/
def everySecond (l : List α) (remainder : Nat) : List α :=
  (l.zipIdx.filter fun p => p.2 % 2 = remainder).map Prod.fst

theorem everySecond_table (h : Nat) (f : Nat → α) {r : Nat} (hr : r < 2) :
    everySecond (table (2 * h) f) r = table h fun i => f (2 * i + r) := by
  induction h with
  | zero => rfl
  | succ h ih =>
      rw [Nat.mul_succ, table_succ, table_succ, table_succ h, ← ih]
      have hcases : r = 0 ∨ r = 1 := by omega
      rcases hcases with rfl | rfl <;>
        simp [everySecond, List.zipIdx_append, List.filter_append, Nat.add_mod]

end Slices

section Loops

/-- The states of a loop are known one by one. -/
theorem forUp_states {σ : Type} {body : Nat → σ → Option σ} (states : Nat → σ) (lo count : Nat)
    (hstep : ∀ i, lo ≤ i → i < lo + count → body i (states i) = some (states (i + 1))) :
    forUp body lo count (states lo) = some (states (lo + count)) := by
  induction count generalizing lo with
  | zero => rfl
  | succ count ih =>
      have hrest := ih (lo + 1) fun i hlo hhi => hstep i (by omega) (by omega)
      rw [Nat.add_assoc, Nat.add_comm 1 count] at hrest
      rw [forUp, hstep lo (le_refl lo) (by omega), Option.bind_eq_bind, Option.bind_some, hrest]

/-- A loop that adds something in every turn. -/
theorem forUp_sum {M : Type} [AddCommMonoid M] {body : Nat → M → Option M} {n : Nat} (t : Nat → M)
    (hstep : ∀ i < n, ∀ s, body i s = some (s + t i)) (s : M) :
    forUp body 0 n s = some (s + ∑ i ∈ Finset.range n, t i) := by
  have hloop : forUp body 0 n (s + ∑ j ∈ Finset.range 0, t j) =
      some (s + ∑ j ∈ Finset.range (0 + n), t j) := by
    refine forUp_states (fun i => s + ∑ j ∈ Finset.range i, t j) 0 n ?_
    intro i _ hi
    rw [hstep i (by omega), Finset.sum_range_succ, add_assoc]
  rwa [Finset.sum_range_zero, add_zero, Nat.zero_add] at hloop

/-- A loop that pushes something in every turn. -/
theorem forUp_push {body : Nat → List α → Option (List α)} {lo n : Nat} (f : Nat → α)
    (hstep : ∀ i, lo ≤ i → i < lo + n → body i (table i f) = some (table i f ++ [f i])) :
    forUp body lo n (table lo f) = some (table (lo + n) f) := by
  refine forUp_states (fun i => table i f) lo n ?_
  intro i hlo hhi
  rw [hstep i hlo hhi, table_succ]

theorem mapM_table {n : Nat} {body : Nat → Option α} {f : Nat → α}
    (h : ∀ i < n, body i = some (f i)) : (List.range n).mapM body = some (table n f) := by
  have hmap : (List.range (table n f).length).mapM body = some (table n f) := by
    apply mapM_range
    intro i hi
    rw [table_length] at hi
    rw [h i hi]
    simp [table]
  rwa [table_length] at hmap

end Loops

end DirtybirdMiner.Lib.Tables
