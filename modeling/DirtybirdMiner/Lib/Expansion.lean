import DirtybirdMiner.Lib.Tables
import Mathlib.Data.Nat.Bitwise

/-!
The expansion of a list of binary choices: every element acts on an accumulator in two
ways, and all outcomes are listed.  The first element has the highest bit of the index.
-/

namespace DirtybirdMiner.Lib.Expansion

open DirtybirdMiner.Lib.Tables

variable {α β γ δ : Type}

/-- All outcomes, those of the left action first. -/
def expand (left right : α → β → β) : List α → β → List β
  | [], acc => [acc]
  | x :: xs, acc => expand left right xs (left x acc) ++ expand left right xs (right x acc)

/-- The outcome where the bits of the index choose. -/
def choose (left right : α → β → β) : List α → β → Nat → β
  | [], acc, _ => acc
  | x :: xs, acc, j =>
      choose left right xs (if j.testBit xs.length then right x acc else left x acc) j

section Outcomes

variable {left right : α → β → β}

theorem choose_congr {l : List α} {acc : β} {j j' : Nat}
    (h : ∀ k < l.length, j.testBit k = j'.testBit k) :
    choose left right l acc j = choose left right l acc j' := by
  induction l generalizing acc with
  | nil => rfl
  | cons x xs ih =>
      rw [List.length_cons] at h
      rw [choose, choose, h xs.length (Nat.lt_succ_self _)]
      apply ih
      intro k hk
      exact h k (by omega)

theorem choose_lower (x : α) {xs : List α} (acc : β) {j : Nat} (hj : j < 2 ^ xs.length) :
    choose left right (x :: xs) acc j = choose left right xs (left x acc) j := by
  rw [choose, Nat.testBit_lt_two_pow hj, if_neg Bool.false_ne_true]

theorem choose_upper (x : α) {xs : List α} (acc : β) {j : Nat} (hj : j < 2 ^ xs.length) :
    choose left right (x :: xs) acc (2 ^ xs.length + j) =
      choose left right xs (right x acc) j := by
  rw [choose, Nat.testBit_two_pow_add_eq, Nat.testBit_lt_two_pow hj]
  exact choose_congr fun k hk => Nat.testBit_two_pow_add_gt hk j

theorem expand_eq_table (l : List α) (acc : β) :
    expand left right l acc = table (2 ^ l.length) (choose left right l acc) := by
  induction l generalizing acc with
  | nil => rfl
  | cons x xs ih =>
      rw [expand, ih, ih, table_append, List.length_cons, pow_succ, Nat.mul_two]
      apply table_congr
      intro j hj
      split
      · rename_i hlow
        rw [choose_lower x acc hlow]
      · rename_i hlow
        obtain ⟨k, rfl⟩ := Nat.exists_eq_add_of_le (not_lt.mp hlow)
        rw [Nat.add_sub_cancel_left, choose_upper x acc (by omega)]

/-- What both actions keep, every outcome has. -/
theorem choose_induction {P : β → Prop} {l : List α} {acc : β} (hacc : P acc)
    (hleft : ∀ x ∈ l, ∀ b, P b → P (left x b)) (hright : ∀ x ∈ l, ∀ b, P b → P (right x b))
    (j : Nat) : P (choose left right l acc j) := by
  induction l generalizing acc with
  | nil => exact hacc
  | cons x xs ih =>
      rw [choose]
      apply ih
      · split
        · exact hright x (by simp) acc hacc
        · exact hleft x (by simp) acc hacc
      · intro y hy
        exact hleft y (List.mem_cons_of_mem x hy)
      · intro y hy
        exact hright y (List.mem_cons_of_mem x hy)

end Outcomes

section Maps

variable {left right : α → β → β} {left' right' : α → γ → γ}

/-- A map that follows both actions follows the outcomes. -/
theorem choose_map {φ : β → γ} {l : List α} (hleft : ∀ x ∈ l, ∀ b, φ (left x b) = left' x (φ b))
    (hright : ∀ x ∈ l, ∀ b, φ (right x b) = right' x (φ b)) (acc : β) (j : Nat) :
    φ (choose left right l acc j) = choose left' right' l (φ acc) j := by
  induction l generalizing acc with
  | nil => rfl
  | cons x xs ih =>
      rw [choose, choose, ih (fun y hy => hleft y (List.mem_cons_of_mem x hy))
        (fun y hy => hright y (List.mem_cons_of_mem x hy))]
      congr 1
      split
      · exact hright x (by simp) acc
      · exact hleft x (by simp) acc

/-- The elements are images. -/
theorem choose_comp (g : δ → α) (l : List δ) (acc : β) (j : Nat) :
    choose left right (l.map g) acc j =
      choose (fun x => left (g x)) (fun x => right (g x)) l acc j := by
  induction l generalizing acc with
  | nil => rfl
  | cons x xs ih => rw [List.map_cons, choose, choose, List.length_map, ih]

end Maps

end DirtybirdMiner.Lib.Expansion
