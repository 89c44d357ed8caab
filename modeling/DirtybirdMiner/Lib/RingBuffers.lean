import Mathlib.Data.List.OfFn
import Mathlib.Algebra.Group.Fin.Basic
import Mathlib.Logic.Function.Basic

/-!
Ring buffers that are always full: a push overwrites the oldest element and returns it.  Such a
buffer is a queue of fixed length.
-/

namespace DirtybirdMiner.Lib.RingBuffers

variable {α : Type} {n : Nat}

/-- A buffer of `n + 1` slots; `next` is the slot of the oldest element. -/
structure Ring (α : Type) (n : Nat) where
  points : Fin (n + 1) → α
  next : Fin (n + 1)

namespace Ring

def new (a : α) : Ring α n := { points := fun _ => a, next := 0 }

/-- The element that is overwritten, and the buffer after it. -/
def push (r : Ring α n) (x : α) : α × Ring α n :=
  (r.points r.next, { points := Function.update r.points r.next x, next := r.next + 1 })

/-- The elements, the oldest one first. -/
def toList (r : Ring α n) : List α := List.ofFn fun i => r.points (r.next + i)

@[simp] theorem toList_new (a : α) : (new a : Ring α n).toList = List.replicate (n + 1) a :=
  List.ofFn_const (n + 1) a

/-- A push takes from the front of the queue and adds at its end. -/
theorem push_toList (r : Ring α n) (x : α) :
    (r.push x).1 :: (r.push x).2.toList = r.toList ++ [x] := by
  have hlast : r.next + 1 + Fin.last n = r.next := by
    rw [add_assoc, add_comm 1, Fin.last_add_one, add_zero]
  have hinit : ∀ i : Fin n, r.next + 1 + i.castSucc = r.next + i.succ := by
    intro i
    rw [add_assoc, add_comm 1, Fin.coeSucc_eq_succ]
  have hne : ∀ i : Fin n, r.next + i.succ ≠ r.next := by
    intro i h
    exact Fin.succ_ne_zero i (add_eq_left.mp h)
  have hsplit : (r.push x).2.toList =
      (List.ofFn fun i : Fin n => r.points (r.next + i.succ)) ++ [x] := by
    rw [toList, List.ofFn_succ', List.concat_eq_append]
    congr 1
    · congr 1
      funext i
      change Function.update r.points r.next x (r.next + 1 + i.castSucc) = _
      rw [hinit, Function.update_of_ne (hne i)]
    · change [Function.update r.points r.next x (r.next + 1 + Fin.last n)] = _
      rw [hlast, Function.update_self]
  rw [hsplit, toList, List.ofFn_succ, add_zero]
  rfl

end Ring

/-- In an ordered run, what waits in a queue of copies of the first element is below what comes
in. -/
theorem rel_window {R : α → α → Prop} {first : α} {xs : List α} (h : (first :: xs).Pairwise R)
    {i : Nat} (hi : i < xs.length) (hqueue : i < (List.replicate (n + 1) first ++ xs).length) :
    R (List.replicate (n + 1) first ++ xs)[i] xs[i] := by
  obtain ⟨hfirst, hxs⟩ := List.pairwise_cons.mp h
  rw [List.getElem_append]
  split
  · rw [List.getElem_replicate]
    exact hfirst _ (List.getElem_mem hi)
  · rename_i hge
    rw [List.length_replicate] at hge
    exact List.pairwise_iff_getElem.mp hxs _ _ _ hi (by simp only [List.length_replicate]; omega)

end DirtybirdMiner.Lib.RingBuffers
