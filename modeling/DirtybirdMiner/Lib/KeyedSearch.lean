import Mathlib.Data.List.Basic
import Mathlib.Order.Lattice

/-!
Searching a sorted list by a key that several elements may share: the elements with a key
stand together, and start where the binary search by the key ends.
-/

namespace DirtybirdMiner.Lib.KeyedSearch

variable {α κ : Type} [LinearOrder κ]

/-- `partition_point`, on a list whose elements with the property come first. -/
def partitionPoint (p : α → Bool) (l : List α) : Nat := (l.takeWhile p).length

theorem drop_partitionPoint (p : α → Bool) (l : List α) :
    l.drop (partitionPoint p l) = l.dropWhile p := by
  have hsplit := List.takeWhile_append_dropWhile (p := p) (l := l)
  calc l.drop (partitionPoint p l)
      = (l.takeWhile p ++ l.dropWhile p).drop (l.takeWhile p).length := by
        rw [hsplit, partitionPoint]
    _ = l.dropWhile p := List.drop_left

/-- From the partition point on, the elements with the key come first, and none is missed. -/
theorem takeWhile_drop_partitionPoint (key : α → κ) (k : κ) {l : List α}
    (hsorted : l.Pairwise fun a b => key a ≤ key b) :
    (l.drop (partitionPoint (fun a => key a < k) l)).takeWhile (fun a => key a = k) =
      l.filter fun a => key a = k := by
  rw [drop_partitionPoint]
  induction l with
  | nil => rfl
  | cons a l ih =>
      obtain ⟨hhead, htail⟩ := List.pairwise_cons.mp hsorted
      rcases lt_trichotomy (key a) k with hlt | heq | hgt
      · rw [List.dropWhile_cons_of_pos (by simpa using hlt),
          List.filter_cons_of_neg (by simpa using hlt.ne), ih htail]
      · have hskip : l.dropWhile (fun a => key a < k) = l := by
          cases l with
          | nil => rfl
          | cons b l =>
              have hb : k ≤ key b := heq ▸ hhead b List.mem_cons_self
              rw [List.dropWhile_cons_of_neg (by simpa using hb)]
        have hrest := ih htail
        rw [hskip] at hrest
        rw [List.dropWhile_cons_of_neg (by simp [heq]),
          List.takeWhile_cons_of_pos (by simpa using heq),
          List.filter_cons_of_pos (by simpa using heq), hrest]
      · have hnone : ∀ b ∈ a :: l, ¬key b = k := by
          intro b hb
          rcases List.mem_cons.mp hb with rfl | hb
          · exact hgt.ne'
          · exact (lt_of_lt_of_le hgt (hhead b hb)).ne'
        rw [List.dropWhile_cons_of_neg (by simpa using hgt.le),
          List.takeWhile_cons_of_neg (by simpa using hgt.ne')]
        exact (List.filter_eq_nil_iff.mpr (by simpa using hnone)).symm

end DirtybirdMiner.Lib.KeyedSearch
