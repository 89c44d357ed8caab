import Mathlib.Data.List.Induction
import Mathlib.Tactic.Ring

/-!
Numbers as lists of digits of `k` bits, the most significant first.
-/

namespace DirtybirdMiner.Lib.Digits

variable {k : Nat}

/-- The number that the digits stand for. -/
def number (k : Nat) (digits : List Nat) : Nat := digits.foldl (fun acc d => acc * 2 ^ k + d) 0

@[simp] theorem number_nil : number k [] = 0 := rfl

theorem number_concat (digits : List Nat) (d : Nat) :
    number k (digits ++ [d]) = number k digits * 2 ^ k + d := by
  simp [number]

theorem number_append (s t : List Nat) :
    number k (s ++ t) = number k s * 2 ^ (k * t.length) + number k t := by
  induction t using List.reverseRecOn with
  | nil => simp
  | append_singleton t d ih =>
      rw [← List.append_assoc, number_concat, ih, number_concat, List.length_append,
        List.length_singleton, Nat.mul_add, Nat.mul_one, pow_add]
      ring

theorem number_cons (d : Nat) (digits : List Nat) :
    number k (d :: digits) = d * 2 ^ (k * digits.length) + number k digits := by
  rw [← List.singleton_append, number_append]
  simp [number]

theorem number_lt {digits : List Nat} (h : ∀ d ∈ digits, d < 2 ^ k) :
    number k digits < 2 ^ (k * digits.length) := by
  induction digits with
  | nil => simp
  | cons d digits ih =>
      rw [List.forall_mem_cons] at h
      have htail := ih h.2
      have hhead : (d + 1) * 2 ^ (k * digits.length) ≤ 2 ^ k * 2 ^ (k * digits.length) :=
        Nat.mul_le_mul_right _ h.1
      rw [number_cons, List.length_cons, Nat.mul_add, Nat.mul_one, Nat.add_comm, pow_add,
        Nat.mul_comm (2 ^ (k * digits.length))]
      rw [Nat.add_mul, Nat.one_mul] at hhead
      omega

/-- Digits are determined by their number. -/
theorem number_injective {s t : List Nat} (hlen : s.length = t.length) (hs : ∀ d ∈ s, d < 2 ^ k)
    (ht : ∀ d ∈ t, d < 2 ^ k) (h : number k s = number k t) : s = t := by
  induction s generalizing t with
  | nil => exact (List.length_eq_zero_iff.mp hlen.symm).symm
  | cons d s ih =>
      cases t with
      | nil => cases hlen
      | cons e t =>
          rw [List.length_cons, List.length_cons, Nat.add_right_cancel_iff] at hlen
          rw [List.forall_mem_cons] at hs ht
          have hslt := number_lt hs.2
          have htlt := number_lt ht.2
          rw [number_cons, number_cons, hlen] at h
          rw [hlen] at hslt
          have hhead : d = e := by
            have hd := Nat.mul_add_div (Nat.two_pow_pos (k * t.length)) d (number k s)
            have he := Nat.mul_add_div (Nat.two_pow_pos (k * t.length)) e (number k t)
            rw [Nat.div_eq_of_lt hslt, Nat.mul_comm] at hd
            rw [Nat.div_eq_of_lt htlt, Nat.mul_comm] at he
            rw [← Nat.add_zero d, ← hd, h, he, Nat.add_zero]
          subst hhead
          rw [ih hlen hs.2 ht.2 (by omega)]

/-- The digits of the upper half of a number and of its lower half. -/
theorem mod_pow_add (n a b : Nat) :
    n % 2 ^ (a + b) = n / 2 ^ b % 2 ^ a * 2 ^ b + n % 2 ^ b := by
  rw [Nat.add_comm a b, pow_add, Nat.mod_mul]
  ring

end DirtybirdMiner.Lib.Digits
