import Mathlib.Tactic.Common
import Mathlib.Tactic.Ring

/-!
Numbers as lists of 64-bit words, least significant first, and the carry and
borrow chains over them.  The carry out of a word is computed from the top bits
of the summands and of the wrapped sum.
-/

namespace DirtybirdMiner.Lib.Words

def wordsValue : List UInt64 → Nat
  | [] => 0
  | w :: ws => w.toNat + 2 ^ 64 * wordsValue ws

theorem wordsValue_lt (ws : List UInt64) : wordsValue ws < 2 ^ (64 * ws.length) := by
  induction ws with
  | nil => simp [wordsValue]
  | cons w ws ih =>
      have hw := w.toNat_lt
      rw [wordsValue, List.length_cons, Nat.mul_succ, Nat.pow_add]
      omega

theorem wordsValue_append (s t : List UInt64) :
    wordsValue (s ++ t) = wordsValue s + 2 ^ (64 * s.length) * wordsValue t := by
  induction s with
  | nil => simp [wordsValue]
  | cons w s ih =>
      rw [List.cons_append, wordsValue, wordsValue, ih, List.length_cons, Nat.mul_succ, Nat.pow_add]
      ring

theorem wordsValue_injective {s t : List UInt64} (hlen : s.length = t.length)
    (h : wordsValue s = wordsValue t) : s = t := by
  induction s generalizing t with
  | nil => exact (List.length_eq_zero_iff.mp hlen.symm).symm
  | cons w s ih =>
      obtain _ | ⟨v, t⟩ := t
      · cases hlen
      have hw := w.toNat_lt
      have hv := v.toNat_lt
      rw [wordsValue, wordsValue] at h
      rw [UInt64.toNat_inj.mp (by omega : w.toNat = v.toNat),
        ih (Nat.succ_inj.mp hlen) (by omega)]

section Carries

/-- The carry out of `z = x + y + carry`. -/
def carryOut (x y z : UInt64) : UInt64 := (x &&& y ||| (x ||| y) &&& ~~~z) >>> 63

/-- The borrow out of `z = x - y - borrow`. -/
def borrowOut (x y z : UInt64) : UInt64 := (y &&& ~~~x ||| (y ||| ~~~x) &&& z) >>> 63

private theorem testBit_top {n : Nat} (hn : n < 2 ^ 64) :
    n.testBit 63 = decide (2 ^ 63 ≤ n) := by
  rw [Nat.testBit_eq_decide_div_mod_eq]
  congr 1
  apply propext
  omega

private theorem shiftRight_top (w : UInt64) : (w >>> 63).toNat = (w.toNat.testBit 63).toNat := by
  have hw := w.toNat_lt
  have hdiv : (w >>> 63).toNat = w.toNat / 2 ^ 63 := by
    rw [UInt64.toNat_shiftRight, Nat.shiftRight_eq_div_pow]
    rfl
  rw [hdiv, testBit_top hw]
  by_cases h : 2 ^ 63 ≤ w.toNat
  · rw [decide_eq_true h, Bool.toNat_true]
    omega
  · rw [decide_eq_false h, Bool.toNat_false]
    omega

private theorem testBit_not_top (w : UInt64) :
    (~~~w).toNat.testBit 63 = !w.toNat.testBit 63 := by
  have hw := w.toNat_lt
  have hnot : (~~~w).toNat = 2 ^ 64 - 1 - w.toNat := by
    rw [UInt64.toNat_not]
    rfl
  rw [testBit_top hw, testBit_top (~~~w).toNat_lt, hnot, ← decide_not]
  congr 1
  apply propext
  omega

theorem carryOut_toNat (x y z : UInt64) :
    (carryOut x y z).toNat =
      (x.toNat.testBit 63 && y.toNat.testBit 63 ||
        (x.toNat.testBit 63 || y.toNat.testBit 63) && !z.toNat.testBit 63).toNat := by
  rw [carryOut, shiftRight_top]
  simp only [UInt64.toNat_or, UInt64.toNat_and, Nat.testBit_or, Nat.testBit_and, testBit_not_top]

theorem borrowOut_toNat (x y z : UInt64) :
    (borrowOut x y z).toNat =
      (y.toNat.testBit 63 && !x.toNat.testBit 63 ||
        (y.toNat.testBit 63 || !x.toNat.testBit 63) && z.toNat.testBit 63).toNat := by
  rw [borrowOut, shiftRight_top]
  simp only [UInt64.toNat_or, UInt64.toNat_and, Nat.testBit_or, Nat.testBit_and, testBit_not_top]

theorem carryOut_le (x y z : UInt64) : (carryOut x y z).toNat ≤ 1 := by
  rw [carryOut_toNat]
  exact Bool.toNat_le _

theorem borrowOut_le (x y z : UInt64) : (borrowOut x y z).toNat ≤ 1 := by
  rw [borrowOut_toNat]
  exact Bool.toNat_le _

theorem add_carry (x y carry : UInt64) (hcarry : carry.toNat ≤ 1) :
    (x + y + carry).toNat + 2 ^ 64 * (carryOut x y (x + y + carry)).toNat =
      x.toNat + y.toNat + carry.toNat := by
  have hx := x.toNat_lt
  have hy := y.toNat_lt
  have hz := (x + y + carry).toNat_lt
  have hsum : (x + y + carry).toNat = (x.toNat + y.toNat + carry.toNat) % 2 ^ 64 := by
    rw [UInt64.toNat_add, UInt64.toNat_add, Nat.mod_add_mod]
  rw [carryOut_toNat, testBit_top hx, testBit_top hy, testBit_top hz]
  generalize (x + y + carry).toNat = z at *
  by_cases h1 : 2 ^ 63 ≤ x.toNat <;> by_cases h2 : 2 ^ 63 ≤ y.toNat <;>
    by_cases h3 : 2 ^ 63 ≤ z <;>
    simp only [h1, h2, h3, decide_true, decide_false, Bool.and_true, Bool.and_false,
      Bool.or_true, Bool.or_false, Bool.not_true, Bool.not_false, Bool.toNat_true,
      Bool.toNat_false] <;> omega

theorem sub_borrow (x y borrow : UInt64) (hborrow : borrow.toNat ≤ 1) :
    (x - y - borrow).toNat + y.toNat + borrow.toNat =
      x.toNat + 2 ^ 64 * (borrowOut x y (x - y - borrow)).toNat := by
  have hx := x.toNat_lt
  have hy := y.toNat_lt
  have hz := (x - y - borrow).toNat_lt
  have hdiff : ((x - y - borrow).toNat + y.toNat + borrow.toNat) % 2 ^ 64 = x.toNat := by
    rw [UInt64.toNat_sub, UInt64.toNat_sub]
    omega
  rw [borrowOut_toNat, testBit_top hx, testBit_top hy, testBit_top hz]
  generalize (x - y - borrow).toNat = z at *
  by_cases h1 : 2 ^ 63 ≤ x.toNat <;> by_cases h2 : 2 ^ 63 ≤ y.toNat <;>
    by_cases h3 : 2 ^ 63 ≤ z <;>
    simp only [h1, h2, h3, decide_true, decide_false, Bool.and_true, Bool.and_false,
      Bool.or_true, Bool.or_false, Bool.not_true, Bool.not_false, Bool.toNat_true,
      Bool.toNat_false] <;> omega

end Carries

section Chains

/-- `for i in 0..n { c[i] = a[i] + b[i] + carry }`, with the carry out. -/
def addWords : UInt64 → List UInt64 → List UInt64 → List UInt64 × UInt64
  | carry, a :: as, b :: bs =>
      let c := a + b + carry
      let rest := addWords (carryOut a b c) as bs
      (c :: rest.1, rest.2)
  | carry, _, _ => ([], carry)

/-- `for i in 0..n { c[i] = a[i] - b[i] - borrow }`, with the borrow out. -/
def subWords : UInt64 → List UInt64 → List UInt64 → List UInt64 × UInt64
  | borrow, a :: as, b :: bs =>
      let c := a - b - borrow
      let rest := subWords (borrowOut a b c) as bs
      (c :: rest.1, rest.2)
  | borrow, _, _ => ([], borrow)

theorem addWords_length (carry : UInt64) {as bs : List UInt64} (hlen : as.length = bs.length) :
    (addWords carry as bs).1.length = as.length := by
  induction as generalizing carry bs with
  | nil => rfl
  | cons a as ih =>
      obtain _ | ⟨b, bs⟩ := bs
      · simp at hlen
      · simp [addWords, ih _ (Nat.succ_inj.mp hlen)]

theorem subWords_length (borrow : UInt64) {as bs : List UInt64} (hlen : as.length = bs.length) :
    (subWords borrow as bs).1.length = as.length := by
  induction as generalizing borrow bs with
  | nil => rfl
  | cons a as ih =>
      obtain _ | ⟨b, bs⟩ := bs
      · simp at hlen
      · simp [subWords, ih _ (Nat.succ_inj.mp hlen)]

theorem addWords_carry_le {carry : UInt64} (hcarry : carry.toNat ≤ 1) (as bs : List UInt64) :
    (addWords carry as bs).2.toNat ≤ 1 := by
  induction as generalizing carry bs with
  | nil => exact hcarry
  | cons a as ih =>
      cases bs with
      | nil => exact hcarry
      | cons b bs => exact ih (carryOut_le _ _ _) bs

theorem subWords_borrow_le {borrow : UInt64} (hborrow : borrow.toNat ≤ 1) (as bs : List UInt64) :
    (subWords borrow as bs).2.toNat ≤ 1 := by
  induction as generalizing borrow bs with
  | nil => exact hborrow
  | cons a as ih =>
      cases bs with
      | nil => exact hborrow
      | cons b bs => exact ih (borrowOut_le _ _ _) bs

theorem addWords_value {carry : UInt64} (hcarry : carry.toNat ≤ 1) {as bs : List UInt64}
    (hlen : as.length = bs.length) :
    wordsValue (addWords carry as bs).1 + 2 ^ (64 * as.length) * (addWords carry as bs).2.toNat =
      wordsValue as + wordsValue bs + carry.toNat := by
  induction as generalizing carry bs with
  | nil =>
      obtain rfl : bs = [] := by simpa using hlen.symm
      simp [addWords, wordsValue]
  | cons a as ih =>
      obtain _ | ⟨b, bs⟩ := bs
      · simp at hlen
      have hrest := ih (carryOut_le a b (a + b + carry)) (Nat.succ_inj.mp hlen)
      have hword := add_carry a b carry hcarry
      simp only [addWords, wordsValue, List.length_cons]
      rw [Nat.mul_succ, Nat.pow_add, Nat.mul_comm (2 ^ (64 * as.length)), Nat.mul_assoc]
      omega

theorem subWords_value {borrow : UInt64} (hborrow : borrow.toNat ≤ 1) {as bs : List UInt64}
    (hlen : as.length = bs.length) :
    wordsValue (subWords borrow as bs).1 + wordsValue bs + borrow.toNat =
      wordsValue as + 2 ^ (64 * as.length) * (subWords borrow as bs).2.toNat := by
  induction as generalizing borrow bs with
  | nil =>
      obtain rfl : bs = [] := by simpa using hlen.symm
      simp [subWords, wordsValue]
  | cons a as ih =>
      obtain _ | ⟨b, bs⟩ := bs
      · simp at hlen
      have hrest := ih (borrowOut_le a b (a - b - borrow)) (Nat.succ_inj.mp hlen)
      have hword := sub_borrow a b borrow hborrow
      simp only [subWords, wordsValue, List.length_cons]
      rw [Nat.mul_succ, Nat.pow_add, Nat.mul_comm (2 ^ (64 * as.length)), Nat.mul_assoc]
      omega

end Chains

end DirtybirdMiner.Lib.Words
