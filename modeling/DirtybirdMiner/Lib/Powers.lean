import Mathlib.NumberTheory.LucasPrimality
import Mathlib.Tactic.Ring

/-!
Powers by repeated squaring, over any operation that a map turns into the
product of a monoid; modular powers of numbers as an instance, and Lucas
primality certificates that are checked with them.
-/

namespace DirtybirdMiner.Lib.Powers

section SquareMultiply

variable {α M : Type} [CommMonoid M]

/-- The number whose binary digits these are, lowest first. -/
def bitsValue : List Bool → Nat
  | [] => 0
  | bit :: bits => bit.toNat + 2 * bitsValue bits

/-- The lowest `count` bits of a number. -/
def lowBits : Nat → Nat → List Bool
  | 0, _ => []
  | count + 1, e => decide (e % 2 = 1) :: lowBits count (e / 2)

/-- `for bit in bits { if bit { sum *= power }; power *= power }`. -/
def squareMultiply (mul : α → α → α) : List Bool → α → α → α
  | [], sum, _ => sum
  | bit :: bits, sum, power =>
      squareMultiply mul bits (if bit then mul sum power else sum) (mul power power)

/-- The operation need only respect the product on the elements that a
predicate singles out, as long as it stays among them. -/
theorem squareMultiply_spec (mul : α → α → α) (good : α → Prop) (φ : α → M)
    (hgood : ∀ a b, good a → good b → good (mul a b))
    (hmul : ∀ a b, good a → good b → φ (mul a b) = φ a * φ b) (bits : List Bool)
    {sum power : α} (hsum : good sum) (hpower : good power) :
    good (squareMultiply mul bits sum power) ∧
      φ (squareMultiply mul bits sum power) = φ sum * φ power ^ bitsValue bits := by
  induction bits generalizing sum power with
  | nil => simp [squareMultiply, bitsValue, hsum]
  | cons bit bits ih =>
      rw [squareMultiply]
      have hsquare := hgood power power hpower hpower
      cases bit with
      | false =>
          obtain ⟨hres, heq⟩ := ih hsum hsquare
          refine ⟨hres, ?_⟩
          simp only [Bool.false_eq_true, if_false]
          rw [heq, hmul power power hpower hpower, ← pow_two, ← pow_mul, bitsValue]
          simp
      | true =>
          obtain ⟨hres, heq⟩ := ih (hgood sum power hsum hpower) hsquare
          refine ⟨hres, ?_⟩
          simp only [if_true]
          rw [heq, hmul power power hpower hpower, hmul sum power hsum hpower, ← pow_two,
            ← pow_mul, bitsValue, Bool.toNat_true, pow_add, pow_one, mul_assoc]

theorem bitsValue_lowBits (count e : Nat) : bitsValue (lowBits count e) = e % 2 ^ count := by
  induction count generalizing e with
  | zero => simp [lowBits, bitsValue, Nat.mod_one]
  | succ count ih =>
      rw [lowBits, bitsValue, ih, Nat.pow_succ', Nat.mod_mul]
      congr 1
      rcases Nat.mod_two_eq_zero_or_one e with h | h <;> simp [h]

end SquareMultiply

section Modular

/-- `base.modpow(exp, modulus)`. -/
def modpow (base exp modulus : Nat) : Nat :=
  squareMultiply (fun a b => a * b % modulus) (lowBits (exp.log2 + 1) exp) (1 % modulus)
    (base % modulus)

theorem modpow_eq (base exp modulus : Nat) :
    modpow base exp modulus = base ^ exp % modulus := by
  have hspec := squareMultiply_spec (fun a b => a * b % modulus)
    (fun a => a % modulus = a) (fun a => (a : ZMod modulus)) (fun a b _ _ => Nat.mod_mod _ _)
    (fun a b _ _ => by simp) (lowBits (exp.log2 + 1) exp) (Nat.mod_mod 1 modulus)
    (Nat.mod_mod base modulus)
  obtain ⟨hgood, heq⟩ := hspec
  rw [bitsValue_lowBits, Nat.mod_eq_of_lt Nat.lt_log2_self] at heq
  have hcast : ((modpow base exp modulus : Nat) : ZMod modulus) = (base ^ exp : Nat) := by
    rw [modpow, heq]
    simp
  rw [ZMod.natCast_eq_natCast_iff'] at hcast
  rwa [modpow, hgood, ← modpow] at hcast

/-- Lucas' test: the factors of `n - 1` are listed with their multiplicity. -/
theorem prime_of_factors {n : Nat} (root : Nat) (factors : List Nat) (hn : 1 < n)
    (hprime : ∀ q ∈ factors, q.Prime) (hprod : factors.prod = n - 1)
    (hone : modpow root (n - 1) n = 1) (hpart : ∀ q ∈ factors, modpow root ((n - 1) / q) n ≠ 1) :
    n.Prime := by
  have hcast : ∀ e, (root : ZMod n) ^ e = 1 ↔ modpow root e n = 1 := by
    intro e
    rw [modpow_eq, ← Nat.cast_pow, ← Nat.cast_one, ZMod.natCast_eq_natCast_iff',
      Nat.mod_eq_of_lt hn]
  apply lucas_primality n (root : ZMod n) ((hcast _).mpr hone)
  intro q hq hdvd
  rw [← hprod] at hdvd
  obtain ⟨f, hf, hqf⟩ := hq.prime.dvd_prod_iff.mp hdvd
  obtain rfl : q = f := (Nat.prime_dvd_prime_iff_eq hq (hprime f hf)).mp hqf
  rw [Ne, hcast]
  exact hpart q hf

/-- A number, a root and the factors of the number before it. -/
structure Certificate where
  n : Nat
  root : Nat
  factors : List Nat

/-- The test is passed, with factors that are known. -/
def Certificate.check (known : List Nat) (c : Certificate) : Bool :=
  decide (1 < c.n) && c.factors.all (known.contains ·) && c.factors.prod == c.n - 1 &&
    modpow c.root (c.n - 1) c.n == 1 &&
    c.factors.all fun q => modpow c.root ((c.n - 1) / q) c.n != 1

/-- Every number is tested with the numbers before it. -/
def checkAll : List Nat → List Certificate → Bool
  | _, [] => true
  | known, c :: certificates => c.check known && checkAll (c.n :: known) certificates

theorem prime_of_check {known : List Nat} (hknown : ∀ q ∈ known, q.Prime) {c : Certificate}
    (h : c.check known = true) : c.n.Prime := by
  simp only [Certificate.check, Bool.and_eq_true, decide_eq_true_eq, List.all_eq_true,
    List.contains_iff_mem, beq_iff_eq, bne_iff_ne] at h
  obtain ⟨⟨⟨⟨hn, hfactors⟩, hprod⟩, hone⟩, hpart⟩ := h
  exact prime_of_factors c.root c.factors hn (fun q hq => hknown q (hfactors q hq)) hprod hone hpart

theorem prime_of_checkAll {known : List Nat} (hknown : ∀ q ∈ known, q.Prime)
    {certificates : List Certificate} (h : checkAll known certificates = true) :
    ∀ c ∈ certificates, c.n.Prime := by
  induction certificates generalizing known with
  | nil => simp
  | cons c certificates ih =>
      rw [checkAll, Bool.and_eq_true] at h
      have hc := prime_of_check hknown h.1
      rw [List.forall_mem_cons]
      exact ⟨hc, ih (List.forall_mem_cons.mpr ⟨hc, hknown⟩) h.2⟩

end Modular

end DirtybirdMiner.Lib.Powers
