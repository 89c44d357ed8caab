import DirtybirdMiner.Bn256.Prime
import DirtybirdMiner.Lib.Tables
import Mathlib.FieldTheory.Finite.Basic
import Mathlib.RingTheory.RootsOfUnity.PrimitiveRoots

/-!
Arithmetic modulo the group order, from `crypto/src/scalar.rs`, on big unsigned
integers that need not be reduced, and their values in the field of that order.
-/

namespace DirtybirdMiner.Crypto.Scalars

open DirtybirdMiner.Lib.Checked
open DirtybirdMiner.Lib.Powers
open DirtybirdMiner.Lib.Tables
open DirtybirdMiner.Bn256.Prime

section Functions

abbrev order : Nat := groupOrder

def reduce (x : Nat) : Nat := x % order

def add (a b : Nat) : Nat := (a + b) % order

/-- What is subtracted is reduced, so that the difference is not negative. -/
def sub (a b : Nat) : Nat := (a % order + order - b % order) % order

def mul (a b : Nat) : Nat := a * b % order

def neg (a : Nat) : Nat := if a % order = 0 then 0 else order - a % order

/-- The inverse by a power, zero for zero. -/
def inv (a : Nat) : Nat := modpow a (order - 2) order

def half : Nat := inv 2

/-- The difference of big unsigned integers, which panics below zero. -/
def bigSub (a b : Nat) : Option Nat := if b ≤ a then some (a - b) else none

/-- `vec![1]`, and then `count - 1` times the last element times `x`. -/
def powers (x count : Nat) : Option (List Nat) :=
  forUp (fun i s => do some (s ++ [mul (← s[i - 1]?) x])) 1 (count - 1) [1]

/-- `unity`, a root of unity of order `2 ^ 28`. -/
def unity : Nat := 0x14a3074b02521e3b1ed9852e5028452693e87be4e910500c7ba9bbddb2f46edd

end Functions

/-- The field that the scalars stand for. -/
abbrev Scalar : Type := ZMod order

section Values

theorem order_pos : 0 < order := groupOrder_prime.pos

theorem natCast_mod (a : Nat) : ((a % order : Nat) : Scalar) = a := ZMod.natCast_mod a order

theorem natCast_order : ((order : Nat) : Scalar) = 0 := ZMod.natCast_self order

@[simp] theorem cast_reduce (a : Nat) : ((reduce a : Nat) : Scalar) = a := natCast_mod a

@[simp] theorem cast_add (a b : Nat) : ((add a b : Nat) : Scalar) = a + b := by
  rw [add, natCast_mod, Nat.cast_add]

@[simp] theorem cast_mul (a b : Nat) : ((mul a b : Nat) : Scalar) = a * b := by
  rw [mul, natCast_mod, Nat.cast_mul]

@[simp] theorem cast_sub (a b : Nat) : ((sub a b : Nat) : Scalar) = a - b := by
  have hb := Nat.mod_lt b order_pos
  rw [sub, natCast_mod, Nat.cast_sub (by omega), Nat.cast_add, natCast_mod, natCast_mod,
    natCast_order, add_zero]

@[simp] theorem cast_neg (a : Nat) : ((neg a : Nat) : Scalar) = -a := by
  have ha := Nat.mod_lt a order_pos
  unfold neg
  split
  · rename_i hzero
    rw [← natCast_mod a, hzero]
    simp
  · rw [Nat.cast_sub ha.le, natCast_mod, natCast_order, zero_sub]

@[simp] theorem cast_inv (a : Nat) : ((inv a : Nat) : Scalar) = (a : Scalar)⁻¹ := by
  rw [inv, modpow_eq, natCast_mod, Nat.cast_pow]
  by_cases ha : (a : Scalar) = 0
  · rw [ha, inv_zero, zero_pow (by decide +kernel)]
  · have hfermat := ZMod.pow_card_sub_one_eq_one ha
    have hexp : order - 1 = order - 2 + 1 := by decide +kernel
    rw [hexp, pow_succ] at hfermat
    exact eq_inv_of_mul_eq_one_left hfermat

@[simp] theorem cast_half : ((half : Nat) : Scalar) = 2⁻¹ := by
  rw [half, cast_inv, Nat.cast_ofNat]

theorem add_lt (a b : Nat) : add a b < order := Nat.mod_lt _ order_pos

theorem mul_lt (a b : Nat) : mul a b < order := Nat.mod_lt _ order_pos

theorem reduce_lt (a : Nat) : reduce a < order := Nat.mod_lt _ order_pos

theorem two_ne_zero : (2 : Scalar) ≠ 0 := by
  intro h
  have hdvd : order ∣ 2 := (ZMod.natCast_eq_zero_iff 2 order).mp (by exact_mod_cast h)
  exact absurd (Nat.le_of_dvd (by decide) hdvd) (by decide +kernel)

theorem bigSub_eq {a b : Nat} (h : b ≤ a) : bigSub a b = some (a - b) := if_pos h

end Values

section Powers

/-- The power that the loop computes. -/
def power (x : Nat) : Nat → Nat
  | 0 => 1
  | i + 1 => mul (power x i) x

@[simp] theorem cast_power (x i : Nat) : ((power x i : Nat) : Scalar) = (x : Scalar) ^ i := by
  induction i with
  | zero => simp [power]
  | succ i ih => rw [power, cast_mul, ih, pow_succ]

theorem powers_eq (x : Nat) {count : Nat} (h : 0 < count) :
    powers x count = some (table count (power x)) := by
  have hpush : forUp (fun i s => do some (s ++ [mul (← s[i - 1]?) x])) 1 (count - 1)
      (table 1 (power x)) = some (table (1 + (count - 1)) (power x)) := by
    apply forUp_push
    intro i hlo hhi
    have hlast : power x i = mul (power x (i - 1)) x := by
      obtain ⟨j, rfl⟩ : ∃ j, i = j + 1 := ⟨i - 1, by omega⟩
      rfl
    rw [getElem?_table _ (by omega), hlast]
    rfl
  rwa [Nat.add_sub_cancel' h] at hpush

theorem unity_primitive : IsPrimitiveRoot (unity : Scalar) (2 ^ 28) := by
  have hpow : ∀ e, (unity : Scalar) ^ e = 1 ↔ modpow unity e order = 1 := by
    intro e
    rw [modpow_eq, ← Nat.cast_pow, ← Nat.cast_one, ZMod.natCast_eq_natCast_iff',
      Nat.mod_eq_of_lt groupOrder_prime.one_lt]
  have horder : orderOf (unity : Scalar) = 2 ^ (27 + 1) := by
    apply orderOf_eq_prime_pow
    · rw [hpow]
      decide +kernel
    · rw [hpow]
      decide +kernel
  exact horder ▸ IsPrimitiveRoot.orderOf _

end Powers

end DirtybirdMiner.Crypto.Scalars
