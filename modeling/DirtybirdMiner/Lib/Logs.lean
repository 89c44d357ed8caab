import Mathlib.Data.List.Basic
import Mathlib.Data.List.Pairwise

/-!
Logs: where an entry of a list stands in the part of the list that satisfies a
predicate, and how long a stretch of one key is in a list sorted by keys.
-/

namespace DirtybirdMiner.Lib.Logs

variable {α : Type}

/-- An entry's position in a filtered list is the number of entries before it
that pass the filter. -/
theorem getElem?_filter_countP {l : List α} {f : α → Bool} {p : Nat} {x : α}
    (hx : l[p]? = some x) (hf : f x = true) :
    (l.filter f)[(l.take p).countP f]? = some x := by
  induction l generalizing p with
  | nil => simp at hx
  | cons y l ih =>
      cases p with
      | zero =>
          simp only [List.getElem?_cons_zero, Option.some.injEq] at hx
          subst hx
          simp [hf]
      | succ p =>
          rw [List.getElem?_cons_succ] at hx
          by_cases hy : f y = true
          · simpa [List.filter_cons, List.countP_cons, hy] using ih hx
          · simpa [List.filter_cons, List.countP_cons, hy] using ih hx

theorem countP_take_lt {l : List α} {f : α → Bool} {p q : Nat} {x : α}
    (hx : l[p]? = some x) (hf : f x = true) (hlt : p < q) :
    (l.take p).countP f < (l.take q).countP f := by
  have hsucc : (l.take (p + 1)).countP f = (l.take p).countP f + 1 := by
    rw [List.take_add_one, hx, List.countP_append]
    simp [hf]
  have hle : (l.take (p + 1)).countP f ≤ (l.take q).countP f :=
    List.Sublist.countP_le (List.take_sublist_take_left hlt)
  omega

/-- Between two entries of the same key a sorted list has only that key. -/
theorem length_filter_of_sorted {l : List α} {key : α → Nat} {i j v : Nat} {x y : α}
    (hsorted : l.Pairwise fun a b => key a ≤ key b) (hij : i < j)
    (hx : l[i]? = some x) (hy : l[j]? = some y) (hkx : key x = v) (hky : key y = v) :
    j - i < (l.filter fun a => key a = v).length := by
  have hjlt := (List.getElem?_eq_some_iff.mp hy).1
  have hle : ∀ (a b : Nat) (x y : α), a ≤ b → l[a]? = some x → l[b]? = some y → key x ≤ key y := by
    intro a b x y hab hx hy
    rcases Nat.eq_or_lt_of_le hab with rfl | hlt
    · exact Nat.le_of_eq (congrArg key (Option.some.inj (hx.symm.trans hy)))
    · obtain ⟨ha, rfl⟩ := List.getElem?_eq_some_iff.mp hx
      obtain ⟨hb, rfl⟩ := List.getElem?_eq_some_iff.mp hy
      exact List.pairwise_iff_getElem.mp hsorted a b ha hb hlt
  have hall : ((l.drop i).take (j - i + 1)).filter (fun a => key a = v) =
      (l.drop i).take (j - i + 1) := by
    apply List.filter_eq_self.mpr
    intro a hmem
    obtain ⟨k, hk⟩ := List.mem_iff_getElem?.mp hmem
    rw [List.getElem?_take, Option.ite_none_right_eq_some, List.getElem?_drop] at hk
    have hlow := hle i (i + k) x a (by omega) hx hk.2
    have hhigh := hle (i + k) j a y (by omega) hk.2 hy
    simp only [decide_eq_true_eq]
    omega
  have hsub : ((l.drop i).take (j - i + 1)).Sublist l :=
    (List.take_sublist _ _).trans (List.drop_sublist _ _)
  have hlen := (hsub.filter fun a => key a = v).length_le
  rw [hall] at hlen
  simp only [List.length_take, List.length_drop] at hlen
  omega

end DirtybirdMiner.Lib.Logs
