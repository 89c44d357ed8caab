import DirtybirdMiner.Bn256.Prime
import DirtybirdMiner.Lib.Products
import Mathlib.Data.ZMod.Basic
import Mathlib.FieldTheory.Finite.Basic

/-!
The base field of the curve, from `cryptography/bn256/src/gfp.rs`: four 64-bit words in
Montgomery form, added and subtracted with carry chains and multiplied by way of the
16-bit parts of the words.
-/

namespace DirtybirdMiner.Bn256.Gfp

open DirtybirdMiner.Lib.Words
open DirtybirdMiner.Lib.Products
open DirtybirdMiner.Bn256.Prime

section Model

/-- `P2`, the words of the field prime. -/
def p2 : List UInt64 :=
  [0x3c208c16d87cfd47, 0x97816a916871ca8d, 0xb85045b68181585d, 0x30644e72e131a029]

/-- `NP`. -/
def np : List UInt64 :=
  [0x87d20782e4866389, 0x9ede7d651eca6ac9, 0xd8afcbd01833da80, 0xf57a22b791888c6b]

/-- `gfp_carry`: the field prime is taken off once, unless that is too much. -/
def gfpCarry (a : List UInt64) (head : UInt64) : List UInt64 :=
  let (b, carry) := subWords 0 a p2
  let carry := carry &&& ~~~head
  let carry := 0 - carry
  let ncarry := ~~~carry
  List.zipWith (fun ai bi => (ai &&& carry) ||| (bi &&& ncarry)) a b

def gfpNeg (a : List UInt64) : List UInt64 := gfpCarry (subWords 0 p2 a).1 0

def gfpAdd (a b : List UInt64) : List UInt64 :=
  let (c, carry) := addWords 0 a b
  gfpCarry c carry

def gfpSub (a b : List UInt64) : List UInt64 :=
  let (t, _) := subWords 0 p2 b
  let (c, carry) := addWords 0 a t
  gfpCarry c carry

/-- The cells of `mul` before they are put together. -/
def mulCells (a b : List UInt64) : List UInt64 := addRows partials 0 a b (List.replicate 32 0)

def mul (a b : List UInt64) : List UInt64 := column 8 (combineAll 8 (mulCells a b))

/-- The cells of `half_mul`. -/
def halfMulCells (a b : List UInt64) : List UInt64 :=
  addHalfRows partials 4 0 a b (List.replicate 18 0)

def halfMul (a b : List UInt64) : List UInt64 := column 4 (combineAll 4 (halfMulCells a b))

def gfpMul (a b : List UInt64) : List UInt64 :=
  let t := mul a b
  let m := halfMul (t.take 4) np
  let tp := mul m p2
  let (t, carry) := addWords 0 t tp
  gfpCarry (t.drop 4) carry

end Model

section Chains

theorem p2_value : wordsValue p2 = fieldPrime := by decide

/-- The words of a mask of ones or of zeros. -/
theorem zipWith_mask {carry : UInt64} {a b : List UInt64} (hlen : a.length = b.length) :
    (carry = 0 → List.zipWith (fun ai bi => (ai &&& carry) ||| (bi &&& ~~~carry)) a b = b) ∧
      (carry = 0 - 1 →
        List.zipWith (fun ai bi => (ai &&& carry) ||| (bi &&& ~~~carry)) a b = a) := by
  induction a generalizing b with
  | nil =>
      obtain rfl : b = [] := List.length_eq_zero_iff.mp hlen.symm
      simp
  | cons ai a ih =>
      obtain _ | ⟨bi, b⟩ := b
      · cases hlen
      obtain ⟨hzero, hones⟩ := ih (Nat.succ_inj.mp hlen)
      constructor
      · intro h
        rw [List.zipWith_cons_cons, hzero h, h]
        simp
      · intro h
        rw [List.zipWith_cons_cons, hones h, h]
        simp

/-- What is left of a number below twice the field prime. -/
theorem gfpCarry_value {a : List UInt64} {head : UInt64} (hlen : a.length = 4)
    (hlt : wordsValue a + 2 ^ 256 * head.toNat < 2 * fieldPrime) :
    (gfpCarry a head).length = 4 ∧
      wordsValue (gfpCarry a head) = (wordsValue a + 2 ^ 256 * head.toNat) % fieldPrime := by
  have hlen' : a.length = p2.length := hlen
  have hvalue := @subWords_value 0 (by decide) _ _ hlen'
  have hb := subWords_length 0 hlen'
  have hborrow := @subWords_borrow_le 0 (by decide) a p2
  have hsub := wordsValue_lt (subWords 0 a p2).1
  have hp : fieldPrime < 2 ^ 254 := by decide
  obtain ⟨hkeepB, hkeepA⟩ := @zipWith_mask (0 - ((subWords 0 a p2).2 &&& ~~~head)) a
    ((subWords 0 a p2).1) hb.symm
  have hhead : head = 0 := by
    apply UInt64.toNat_inj.mp
    change head.toNat = 0
    omega
  subst hhead
  change wordsValue a + 2 ^ 256 * 0 < _ at hlt
  have hmask : (subWords 0 a p2).2 &&& ~~~(0 : UInt64) = (subWords 0 a p2).2 := by simp
  rw [hlen] at hb hvalue
  rw [hb] at hsub
  rw [p2_value] at hvalue
  rw [hmask] at hkeepA hkeepB
  change _ ∧ _ = (wordsValue a + 2 ^ 256 * 0) % fieldPrime
  unfold gfpCarry
  dsimp only
  rw [hmask]
  change wordsValue (subWords 0 a p2).1 + fieldPrime + 0 = _ at hvalue
  generalize (subWords 0 a p2).1 = b at *
  generalize (subWords 0 a p2).2 = borrow at *
  obtain hzero | hone : borrow.toNat = 0 ∨ borrow.toNat = 1 := by omega
  · obtain rfl : borrow = 0 := UInt64.toNat_inj.mp hzero
    rw [hkeepB (by simp)]
    change _ = wordsValue a + 2 ^ 256 * 0 at hvalue
    refine ⟨hb, ?_⟩
    rw [Nat.mod_eq_sub_mod (by omega), Nat.mod_eq_of_lt (by omega)]
    omega
  · obtain rfl : borrow = 1 := UInt64.toNat_inj.mp hone
    rw [hkeepA rfl]
    change _ = wordsValue a + 2 ^ 256 * 1 at hvalue
    refine ⟨hlen, ?_⟩
    rw [Nat.mod_eq_of_lt (by omega)]
    omega

variable {a b : List UInt64}

theorem gfpNeg_value (hlen : a.length = 4) (ha : wordsValue a < fieldPrime) :
    (gfpNeg a).length = 4 ∧ wordsValue (gfpNeg a) = (fieldPrime - wordsValue a) % fieldPrime := by
  have hlen' : p2.length = a.length := hlen.symm
  have hvalue := @subWords_value 0 (by decide) _ _ hlen'
  have hlength := subWords_length 0 hlen'
  have hlt := wordsValue_lt (subWords 0 p2 a).1
  rw [hlength] at hlt
  rw [p2_value] at hvalue
  change _ < 2 ^ 256 at hlt
  change _ + 0 = fieldPrime + 2 ^ 256 * _ at hvalue
  have hdiff : wordsValue (subWords 0 p2 a).1 = fieldPrime - wordsValue a := by omega
  have hcarry := @gfpCarry_value ((subWords 0 p2 a).1) 0 hlength
    (by change _ + 2 ^ 256 * 0 < _; omega)
  change _ ∧ _ = (_ + 2 ^ 256 * 0) % _ at hcarry
  rw [Nat.mul_zero, Nat.add_zero, hdiff] at hcarry
  exact hcarry

theorem gfpAdd_value (hlenA : a.length = 4) (hlenB : b.length = 4) (ha : wordsValue a < fieldPrime)
    (hb : wordsValue b < fieldPrime) :
    (gfpAdd a b).length = 4 ∧
      wordsValue (gfpAdd a b) = (wordsValue a + wordsValue b) % fieldPrime := by
  have hlen : a.length = b.length := hlenA.trans hlenB.symm
  have hvalue := @addWords_value 0 (by decide) _ _ hlen
  have hlength := addWords_length 0 hlen
  rw [hlenA] at hvalue hlength
  change wordsValue _ + 2 ^ 256 * _ = _ + 0 at hvalue
  have hcarry := gfpCarry_value hlength (by rw [hvalue]; omega)
  rw [hvalue] at hcarry
  exact hcarry

theorem gfpSub_value (hlenA : a.length = 4) (hlenB : b.length = 4) (ha : wordsValue a < fieldPrime)
    (hb : wordsValue b < fieldPrime) :
    (gfpSub a b).length = 4 ∧
      wordsValue (gfpSub a b) = (wordsValue a + (fieldPrime - wordsValue b)) % fieldPrime := by
  have hlen' : p2.length = b.length := hlenB.symm
  have hdiff := @subWords_value 0 (by decide) _ _ hlen'
  have hlengthT := subWords_length 0 hlen'
  have hltT := wordsValue_lt (subWords 0 p2 b).1
  rw [hlengthT] at hltT
  rw [p2_value] at hdiff
  change _ < 2 ^ 256 at hltT
  change _ + 0 = fieldPrime + 2 ^ 256 * _ at hdiff
  have ht : wordsValue (subWords 0 p2 b).1 = fieldPrime - wordsValue b := by omega
  have hlen : a.length = (subWords 0 p2 b).1.length := hlenA.trans hlengthT.symm
  have hvalue := @addWords_value 0 (by decide) _ _ hlen
  have hlength := addWords_length 0 hlen
  rw [hlenA] at hvalue hlength
  rw [ht] at hvalue
  change wordsValue _ + 2 ^ 256 * _ = _ + 0 at hvalue
  have hcarry := gfpCarry_value hlength (by rw [hvalue]; omega)
  rw [hvalue] at hcarry
  exact hcarry

end Chains

section Products

variable {a b : List UInt64}

/-- The cells of `mul` hold the exact sums of the partial products. -/
theorem mulCells_exact (ha : a.length = 4) (hb : b.length = 4) :
    Exact (2 ^ 53) (mulCells a b) (addRows exactPartials 0 a b (List.replicate 32 0)) := by
  have hcells := (exact_zeros 32).addRows 0 a b (by rw [ha, hb]; decide)
  rw [ha, hb] at hcells
  exact hcells

theorem halfMulCells_exact (ha : a.length = 4) (hb : b.length = 4) :
    Exact (2 ^ 53) (halfMulCells a b)
      (addHalfRows exactPartials 4 0 a b (List.replicate 18 0)) := by
  have hcells := @Exact.addHalfRows _ 4 _ _ (exact_zeros 18) 0 a b (by rw [ha, hb]; decide)
  rw [ha, hb] at hcells
  exact hcells

theorem mulCells_length : (mulCells a b).length = 32 := by
  have hrows : ∀ (a : List UInt64) (off : Nat) (buff : List UInt64),
      (addRows partials off a b buff).length = buff.length := by
    intro a
    induction a with
    | nil => exact fun _ _ => rfl
    | cons ai a ih =>
        intro off buff
        rw [addRows, ih, addRow_length]
  rw [mulCells, hrows, List.length_replicate]

theorem halfMulCells_length : (halfMulCells a b).length = 18 := by
  have hrows : ∀ (a : List UInt64) (i : Nat) (buff : List UInt64),
      (addHalfRows partials 4 i a b buff).length = buff.length := by
    intro a
    induction a with
    | nil => exact fun _ _ => rfl
    | cons ai a ih =>
        intro i buff
        rw [addHalfRows, ih, addRow_length]
  rw [halfMulCells, hrows, List.length_replicate]

theorem mul_value (ha : a.length = 4) (hb : b.length = 4) :
    (mul a b).length = 8 ∧ wordsValue (mul a b) = wordsValue a * wordsValue b := by
  have hlength := mulCells_length (a := a) (b := b)
  have hrows := @cellsValue_addRows 0 a b (List.replicate 32 0)
    (by rw [ha, hb, List.length_replicate]; decide)
  have hltA := wordsValue_lt a
  have hltB := wordsValue_lt b
  rw [ha] at hltA
  rw [hb] at hltB
  refine ⟨column_length (by rw [combineAll_length, hlength]), ?_⟩
  rw [mul, wordsValue_combineAll (by rw [hlength]), (mulCells_exact ha hb).cells_eq, hrows,
    cellsValue_zeros, Nat.mul_zero, pow_zero, Nat.one_mul, Nat.zero_add]
  apply Nat.mod_eq_of_lt
  calc wordsValue a * wordsValue b < 2 ^ (64 * 4) * 2 ^ (64 * 4) := Nat.mul_lt_mul'' hltA hltB
    _ = 2 ^ (64 * 8) := by rw [← pow_add]

theorem halfMul_value (ha : a.length = 4) (hb : b.length = 4) :
    (halfMul a b).length = 4 ∧
      wordsValue (halfMul a b) = wordsValue a * wordsValue b % 2 ^ 256 := by
  have hlength := halfMulCells_length (a := a) (b := b)
  have hrows := @cellsValue_addHalfRows 4 0 a b (List.replicate 18 0) ha hb
    (by rw [List.length_replicate])
  rw [cellsValue_zeros, Nat.mul_zero, pow_zero, Nat.one_mul, Nat.zero_add] at hrows
  refine ⟨column_length (by rw [combineAll_length, hlength]; decide), ?_⟩
  rw [halfMul, wordsValue_combineAll (by rw [hlength]; decide), (halfMulCells_exact ha hb).cells_eq]
  exact hrows

theorem np_value : (wordsValue np * fieldPrime + 1) % 2 ^ 256 = 0 := by decide

/-- The multiple of the field prime that clears the lower half of a product. -/
theorem reduction_dvd (t : Nat) :
    2 ^ 256 ∣ t + t % 2 ^ 256 * wordsValue np % 2 ^ 256 * fieldPrime := by
  have hcong : t + t % 2 ^ 256 * wordsValue np % 2 ^ 256 * fieldPrime ≡
      t + t * wordsValue np * fieldPrime [MOD 2 ^ 256] := by
    refine Nat.ModEq.add_left t (Nat.ModEq.mul_right _ ?_)
    exact (Nat.mod_modEq _ _).trans ((Nat.mod_modEq _ _).mul_right _)
  have hfactor : t + t * wordsValue np * fieldPrime = t * (wordsValue np * fieldPrime + 1) := by
    ring
  rw [hfactor] at hcong
  have hzero : t * (wordsValue np * fieldPrime + 1) ≡ 0 [MOD 2 ^ 256] :=
    Nat.modEq_zero_iff_dvd.mpr ((Nat.dvd_of_mod_eq_zero np_value).mul_left t)
  exact Nat.modEq_zero_iff_dvd.mp (hcong.trans hzero)

/-- Montgomery multiplication: the product without a factor of `2 ^ 256`. -/
theorem gfpMul_value (hlenA : a.length = 4) (hlenB : b.length = 4)
    (hlt : wordsValue a * wordsValue b < fieldPrime * 2 ^ 256) :
    (gfpMul a b).length = 4 ∧ wordsValue (gfpMul a b) < fieldPrime ∧
      wordsValue (gfpMul a b) * 2 ^ 256 ≡ wordsValue a * wordsValue b [MOD fieldPrime] := by
  obtain ⟨htLen, ht⟩ := mul_value hlenA hlenB
  have htakeLen : ((mul a b).take 4).length = 4 := by
    rw [List.length_take, htLen]
    rfl
  have htake : wordsValue ((mul a b).take 4) = wordsValue a * wordsValue b % 2 ^ 256 := by
    have hsplit := congrArg wordsValue (List.take_append_drop 4 (mul a b))
    have hlow := wordsValue_lt ((mul a b).take 4)
    rw [wordsValue_append, htakeLen, ht] at hsplit
    rw [htakeLen] at hlow
    omega
  obtain ⟨hmLen, hm⟩ := halfMul_value (b := np) htakeLen rfl
  rw [htake] at hm
  obtain ⟨htpLen, htp⟩ := mul_value (b := p2) hmLen rfl
  rw [p2_value, hm] at htp
  have hlen : (mul a b).length = (mul (halfMul ((mul a b).take 4) np) p2).length :=
    htLen.trans htpLen.symm
  have hsum := @addWords_value 0 (by decide) _ _ hlen
  have hsumLen := addWords_length 0 hlen
  rw [htLen] at hsum hsumLen
  rw [ht, htp] at hsum
  have hpow : 2 ^ (64 * 8) = 2 ^ 256 * 2 ^ 256 := by rw [← pow_add]
  rw [hpow, Nat.mul_assoc] at hsum
  change _ = _ + 0 at hsum
  set t := wordsValue a * wordsValue b with htdef
  set m := t % 2 ^ 256 * wordsValue np % 2 ^ 256 with hmdef
  have hmlt : m < 2 ^ 256 := Nat.mod_lt _ (by decide)
  have hmul : m * fieldPrime < 2 ^ 256 * fieldPrime :=
    Nat.mul_lt_mul_of_pos_right hmlt fieldPrime_prime.pos
  obtain ⟨c, hc⟩ := reduction_dvd t
  rw [← hmdef] at hc
  have hdropLen : ((addWords 0 (mul a b) (mul (halfMul ((mul a b).take 4) np) p2)).1.drop 4).length =
      4 := by
    rw [List.length_drop, hsumLen]
  have hsplit := congrArg wordsValue (List.take_append_drop 4
    (addWords 0 (mul a b) (mul (halfMul ((mul a b).take 4) np) p2)).1)
  have hlow := wordsValue_lt
    ((addWords 0 (mul a b) (mul (halfMul ((mul a b).take 4) np) p2)).1.take 4)
  rw [wordsValue_append] at hsplit
  rw [List.length_take, hsumLen] at hsplit hlow
  change _ + 2 ^ 256 * _ = _ at hsplit
  change _ < 2 ^ 256 at hlow
  unfold gfpMul
  dsimp only
  generalize addWords 0 (mul a b) (mul (halfMul ((mul a b).take 4) np) p2) = r at *
  have hvalue : wordsValue (r.1.drop 4) + 2 ^ 256 * r.2.toNat = c := by omega
  have hbound : c < 2 * fieldPrime := by omega
  obtain ⟨hresLen, hres⟩ := gfpCarry_value hdropLen (by rw [hvalue]; exact hbound)
  rw [hvalue] at hres
  refine ⟨hresLen, ?_, ?_⟩
  · rw [hres]
    exact Nat.mod_lt _ fieldPrime_prime.pos
  · rw [hres]
    calc c % fieldPrime * 2 ^ 256 ≡ c * 2 ^ 256 [MOD fieldPrime] :=
          (Nat.mod_modEq c fieldPrime).mul_right _
      _ = t + m * fieldPrime := by rw [hc, Nat.mul_comm]
      _ ≡ t [MOD fieldPrime] := by rw [Nat.ModEq, Nat.add_mul_mod_self_right]

end Products

section Field

/-- A field element: four words below the field prime. -/
structure GfP where
  words : List UInt64
  length_eq : words.length = 4
  reduced : wordsValue words < fieldPrime
deriving DecidableEq

namespace GfP

theorem ext_value {a b : GfP} (h : wordsValue a.words = wordsValue b.words) : a = b := by
  have hwords := wordsValue_injective (a.length_eq.trans b.length_eq.symm) h
  cases a
  cases b
  exact (GfP.mk.injEq ..).mpr hwords

theorem mul_lt (a b : GfP) :
    wordsValue a.words * wordsValue b.words < fieldPrime * 2 ^ 256 := by
  have hp : fieldPrime < 2 ^ 256 := by decide
  exact Nat.mul_lt_mul'' a.reduced (b.reduced.trans hp)

def zero : GfP := ⟨[0, 0, 0, 0], rfl, by decide⟩

/-- `RN1`, the inverse of `2 ^ 256`. -/
def rN1 : GfP :=
  ⟨[0xed84884a014afa37, 0xeb2022850278edf8, 0xcf63e9cfb74492d9, 0x2e67157159e5c639], rfl, by decide⟩

/-- `R2`, the square of `2 ^ 256`. -/
def r2 : GfP :=
  ⟨[0xf32cfc5b538afa89, 0xb5e71911d44501fb, 0x47ab1eff0a417ff6, 0x06d89f71cab8351f], rfl, by decide⟩

/-- `R3`, the cube of `2 ^ 256`. -/
def r3 : GfP :=
  ⟨[0xb1cd6dafda1530df, 0x62f210e6a7283db6, 0xef7f0b0c0ada0afb, 0x20fd6e902d592544], rfl, by decide⟩

/-- `GfP([1, 0, 0, 0])`. -/
def unit : GfP := ⟨[1, 0, 0, 0], rfl, by decide⟩

def neg (a : GfP) : GfP :=
  ⟨gfpNeg a.words, (gfpNeg_value a.length_eq a.reduced).1, by
    rw [(gfpNeg_value a.length_eq a.reduced).2]
    exact Nat.mod_lt _ fieldPrime_prime.pos⟩

def add (a b : GfP) : GfP :=
  ⟨gfpAdd a.words b.words, (gfpAdd_value a.length_eq b.length_eq a.reduced b.reduced).1, by
    rw [(gfpAdd_value a.length_eq b.length_eq a.reduced b.reduced).2]
    exact Nat.mod_lt _ fieldPrime_prime.pos⟩

def sub (a b : GfP) : GfP :=
  ⟨gfpSub a.words b.words, (gfpSub_value a.length_eq b.length_eq a.reduced b.reduced).1, by
    rw [(gfpSub_value a.length_eq b.length_eq a.reduced b.reduced).2]
    exact Nat.mod_lt _ fieldPrime_prime.pos⟩

def mul (a b : GfP) : GfP :=
  ⟨gfpMul a.words b.words, (gfpMul_value a.length_eq b.length_eq (mul_lt a b)).1,
    (gfpMul_value a.length_eq b.length_eq (mul_lt a b)).2.1⟩

def montEncode (a : GfP) : GfP := mul a r2

def montDecode (a : GfP) : GfP := mul a unit

/-- `BITS`, the field prime less two. -/
def bits : List UInt64 :=
  [0x3c208c16d87cfd45, 0x97816a916871ca8d, 0xb85045b68181585d, 0x30644e72e131a029]

/-- One bit of the exponent. -/
def invertStep (word : UInt64) (state : GfP × GfP) (bit : Nat) : GfP × GfP :=
  let (sum, power) := state
  (if (word >>> UInt64.ofNat bit) &&& 1 = 1 then mul sum power else sum, mul power power)

def invert (a : GfP) : GfP :=
  let (sum, _) := bits.foldl (fun state word => (List.range 64).foldl (invertStep word) state)
    (rN1, a)
  mul sum r3

theorem small_length (x : Nat) : [UInt64.ofNat x, 0, 0, 0].length = 4 := rfl

theorem small_reduced (x : Nat) (h : x < 2 ^ 63) :
    wordsValue [UInt64.ofNat x, 0, 0, 0] < fieldPrime := by
  have hp : 2 ^ 63 < fieldPrime := by decide
  have hx : (UInt64.ofNat x).toNat = x := by
    rw [UInt64.toNat_ofNat', Nat.mod_eq_of_lt (by omega)]
  simp only [wordsValue, hx]
  change x + 2 ^ 64 * (0 + 2 ^ 64 * (0 + 2 ^ 64 * (0 + 2 ^ 64 * 0))) < _
  omega

/-- A number of one word. -/
def small (x : Nat) (h : x < 2 ^ 63) : GfP :=
  ⟨[UInt64.ofNat x, 0, 0, 0], small_length x, small_reduced x h⟩

/-- `GfP::new`. -/
def new (x : Int) (h : x.natAbs < 2 ^ 63) : GfP :=
  montEncode (if x ≥ 0 then small x.natAbs h else neg (small x.natAbs h))

theorem one_small : (1 : Int).natAbs < 2 ^ 63 := by decide

def one : GfP := new 1 one_small

end GfP

end Field

section Meaning

namespace GfP

/-- `2 ^ 256` in the field. -/
def radix : ZMod fieldPrime := ((2 : Nat) : ZMod fieldPrime) ^ 256

theorem radix_ne_zero : radix ≠ 0 := by
  apply pow_ne_zero
  intro h
  have hdvd := (ZMod.natCast_eq_zero_iff 2 fieldPrime).mp (by exact_mod_cast h)
  exact absurd (Nat.le_of_dvd (by decide) hdvd) (by decide)

/-- The words as an element of the field. -/
def raw (a : GfP) : ZMod fieldPrime := (wordsValue a.words : Nat)

/-- What a field element in Montgomery form stands for. -/
def toField (a : GfP) : ZMod fieldPrime := a.raw * radix⁻¹

theorem raw_injective {a b : GfP} (h : a.raw = b.raw) : a = b := by
  apply ext_value
  rw [raw, raw, ZMod.natCast_eq_natCast_iff'] at h
  rwa [Nat.mod_eq_of_lt a.reduced, Nat.mod_eq_of_lt b.reduced] at h

theorem toField_injective {a b : GfP} (h : a.toField = b.toField) : a = b :=
  raw_injective (mul_right_cancel₀ (inv_ne_zero radix_ne_zero) h)

theorem toField_inj {a b : GfP} : a.toField = b.toField ↔ a = b :=
  ⟨toField_injective, fun h => h ▸ rfl⟩

theorem raw_add (a b : GfP) : (add a b).raw = a.raw + b.raw := by
  rw [raw, add, (gfpAdd_value a.length_eq b.length_eq a.reduced b.reduced).2, ZMod.natCast_mod,
    Nat.cast_add]
  rfl

theorem raw_neg (a : GfP) : (neg a).raw = -a.raw := by
  rw [raw, neg, (gfpNeg_value a.length_eq a.reduced).2, ZMod.natCast_mod,
    Nat.cast_sub a.reduced.le, ZMod.natCast_self, zero_sub]
  rfl

theorem raw_sub (a b : GfP) : (sub a b).raw = a.raw - b.raw := by
  rw [raw, sub, (gfpSub_value a.length_eq b.length_eq a.reduced b.reduced).2, ZMod.natCast_mod,
    Nat.cast_add, Nat.cast_sub b.reduced.le, ZMod.natCast_self, zero_sub, sub_eq_add_neg]
  rfl

theorem raw_mul (a b : GfP) : (mul a b).raw = a.raw * b.raw * radix⁻¹ := by
  have hmont := (gfpMul_value a.length_eq b.length_eq (mul_lt a b)).2.2
  rw [← ZMod.natCast_eq_natCast_iff] at hmont
  rw [Nat.cast_mul, Nat.cast_mul, Nat.cast_pow, Nat.cast_ofNat] at hmont
  rw [eq_mul_inv_iff_mul_eq₀ radix_ne_zero, radix]
  exact hmont

@[simp] theorem toField_add (a b : GfP) : (add a b).toField = a.toField + b.toField := by
  rw [toField, raw_add, add_mul]
  rfl

@[simp] theorem toField_neg (a : GfP) : (neg a).toField = -a.toField := by
  rw [toField, raw_neg, neg_mul]
  rfl

@[simp] theorem toField_sub (a b : GfP) : (sub a b).toField = a.toField - b.toField := by
  rw [toField, raw_sub, sub_mul]
  rfl

@[simp] theorem toField_mul (a b : GfP) : (mul a b).toField = a.toField * b.toField := by
  rw [toField, raw_mul, toField, toField]
  ring

@[simp] theorem toField_zero : zero.toField = 0 := by
  have hraw : zero.raw = 0 := Nat.cast_zero
  rw [toField, hraw, zero_mul]

theorem natCast_radix : ((2 ^ 256 : Nat) : ZMod fieldPrime) = radix := by
  rw [Nat.cast_pow, radix]

theorem raw_unit : unit.raw = 1 := Nat.cast_one

theorem raw_rN1 : rN1.raw = radix⁻¹ := by
  have hmod : wordsValue rN1.words * 2 ^ 256 % fieldPrime = 1 % fieldPrime := by decide
  rw [← ZMod.natCast_eq_natCast_iff', Nat.cast_mul, natCast_radix, Nat.cast_one] at hmod
  exact eq_inv_of_mul_eq_one_left hmod

theorem raw_r2 : r2.raw = radix ^ 2 := by
  have hmod : wordsValue r2.words % fieldPrime = 2 ^ 256 * 2 ^ 256 % fieldPrime := by decide
  rw [← ZMod.natCast_eq_natCast_iff', Nat.cast_mul, natCast_radix] at hmod
  rw [pow_two]
  exact hmod

theorem raw_r3 : r3.raw = radix ^ 3 := by
  have hmod : wordsValue r3.words % fieldPrime = 2 ^ 256 * 2 ^ 256 * 2 ^ 256 % fieldPrime := by
    decide
  rw [← ZMod.natCast_eq_natCast_iff', Nat.cast_mul, Nat.cast_mul, natCast_radix] at hmod
  rw [pow_three', ← hmod]
  rfl

theorem raw_montEncode (a : GfP) : (montEncode a).raw = a.raw * radix := by
  have hne := radix_ne_zero
  rw [montEncode, raw_mul, raw_r2]
  field_simp

theorem raw_montDecode (a : GfP) : (montDecode a).raw = a.raw * radix⁻¹ := by
  rw [montDecode, raw_mul, raw_unit, mul_one]

/-- Encoding is the inverse of what an element stands for. -/
theorem toField_montEncode (a : GfP) : (montEncode a).toField = a.raw := by
  rw [toField, raw_montEncode, mul_assoc, mul_inv_cancel₀ radix_ne_zero, mul_one]

theorem raw_montDecode_eq (a : GfP) : (montDecode a).raw = a.toField := raw_montDecode a

theorem raw_small {x : Nat} (h : x < 2 ^ 63) : (small x h).raw = x := by
  have hx : (UInt64.ofNat x).toNat = x := by
    rw [UInt64.toNat_ofNat', Nat.mod_eq_of_lt (by omega)]
  have hvalue : wordsValue (small x h).words = x := by
    change (UInt64.ofNat x).toNat + 2 ^ 64 * (0 + 2 ^ 64 * (0 + 2 ^ 64 * (0 + 2 ^ 64 * 0))) = x
    rw [hx]
    omega
  rw [raw, hvalue]

@[simp] theorem toField_new {x : Int} (h : x.natAbs < 2 ^ 63) : (new x h).toField = x := by
  rw [new, toField_montEncode]
  split
  · rename_i hx
    rw [raw_small, ← Int.cast_natCast, Int.natAbs_of_nonneg hx]
  · rename_i hx
    rw [raw_neg, raw_small, ← Int.cast_natCast, Int.ofNat_natAbs_of_nonpos (by omega),
      Int.cast_neg, neg_neg]

@[simp] theorem toField_one : one.toField = 1 := by
  rw [one, toField_new, Int.cast_one]

/-- One word of the exponent. -/
theorem invertStep_word (word : UInt64) (sum power : GfP) {n : Nat} (hn : n ≤ 64) :
    ∃ sum' power', (List.range n).foldl (invertStep word) (sum, power) = (sum', power') ∧
      sum'.toField = sum.toField * power.toField ^ (word.toNat % 2 ^ n) ∧
      power'.toField = power.toField ^ 2 ^ n := by
  induction n with
  | zero => exact ⟨sum, power, rfl, by simp [Nat.mod_one], by simp⟩
  | succ n ih =>
      obtain ⟨sum', power', hrun, hsum, hpower⟩ := ih (by omega)
      have hbit : ((word >>> UInt64.ofNat n) &&& 1 = 1) ↔ word.toNat / 2 ^ n % 2 = 1 := by
        rw [← UInt64.toNat_inj, UInt64.toNat_and, UInt64.toNat_shiftRight, UInt64.toNat_ofNat',
          Nat.mod_eq_of_lt (by omega : n < 2 ^ 64), Nat.mod_eq_of_lt (by omega : n < 64),
          Nat.shiftRight_eq_div_pow]
        change _ &&& 1 = 1 ↔ _
        rw [Nat.and_one_is_mod]
      rw [List.range_succ, List.foldl_append, hrun]
      refine ⟨_, _, rfl, ?_, ?_⟩
      · rw [Nat.mod_pow_succ]
        split
        · rename_i hset
          rw [toField_mul, hsum, hpower, hbit.mp hset, Nat.mul_one, pow_add, mul_assoc]
        · rename_i hset
          rw [hbit, Nat.mod_two_not_eq_one] at hset
          rw [hsum, hset, Nat.mul_zero, Nat.add_zero]
      · rw [toField_mul, hpower, pow_succ, pow_mul, pow_two]

/-- All words of an exponent. -/
theorem invertStep_words (words : List UInt64) (sum power : GfP) :
    ∃ sum' power', words.foldl (fun state word => (List.range 64).foldl (invertStep word) state)
        (sum, power) = (sum', power') ∧
      sum'.toField = sum.toField * power.toField ^ wordsValue words := by
  induction words generalizing sum power with
  | nil => exact ⟨sum, power, rfl, by simp [wordsValue]⟩
  | cons word words ih =>
      obtain ⟨sum', power', hrun, hsum, hpower⟩ := invertStep_word word sum power (Nat.le_refl 64)
      obtain ⟨sum'', power'', hrest, hvalue⟩ := ih sum' power'
      refine ⟨sum'', power'', ?_, ?_⟩
      · rw [List.foldl_cons, hrun, hrest]
      · rw [hvalue, hsum, hpower, Nat.mod_eq_of_lt word.toNat_lt, wordsValue, pow_add, pow_mul,
          mul_assoc]

/-- The power by the field prime less two is the inverse. -/
@[simp] theorem toField_invert (a : GfP) : (invert a).toField = a.toField⁻¹ := by
  have hne := radix_ne_zero
  obtain ⟨sum, power, hrun, hsum⟩ := invertStep_words bits rN1 a
  have hbits : wordsValue bits = fieldPrime - 2 := by decide
  have hpower : a.toField ^ (fieldPrime - 2) = a.toField⁻¹ := by
    by_cases hzero : a.toField = 0
    · rw [hzero, inv_zero]
      exact zero_pow (by decide)
    · apply eq_inv_of_mul_eq_one_left
      rw [← pow_succ]
      exact ZMod.pow_card_sub_one_eq_one hzero
  rw [invert, hrun]
  dsimp only
  have hfactor : rN1.toField * r3.toField = 1 := by
    rw [toField, toField, raw_rN1, raw_r3]
    field_simp
  rw [toField_mul, hsum, hbits, hpower, mul_right_comm, hfactor, one_mul]

end GfP

end Meaning

section Statement

open GfP

theorem montDecode_montEncode (a : GfP) : montDecode (montEncode a) = a := by
  apply raw_injective
  rw [raw_montDecode, raw_montEncode, mul_assoc, mul_inv_cancel₀ radix_ne_zero, mul_one]

theorem montEncode_montDecode (a : GfP) : montEncode (montDecode a) = a := by
  apply raw_injective
  rw [raw_montEncode, raw_montDecode, mul_assoc, inv_mul_cancel₀ radix_ne_zero, mul_one]

theorem mul_invert {a : GfP} (h : a ≠ zero) : GfP.mul a a.invert = one := by
  have hne : a.toField ≠ 0 := by
    rw [← toField_zero, Ne, toField_inj]
    exact h
  apply toField_injective
  rw [toField_mul, toField_invert, toField_one, mul_inv_cancel₀ hne]

/-- The arithmetic of the field is exact: on reduced words the operations are those of the field,
with reduced results, Montgomery products lacking a factor of `2 ^ 256`; and for any words the
cells of the products hold the exact sums of the partial products. -/
theorem montgomery_exact (a b : GfP) (x y : List UInt64) (hx : x.length = 4) (hy : y.length = 4) :
    (wordsValue (gfpMul a.words b.words) < fieldPrime ∧
      ((wordsValue (gfpMul a.words b.words) : Nat) : ZMod fieldPrime) =
        (wordsValue a.words : Nat) * (wordsValue b.words : Nat) * ((2 : ZMod fieldPrime) ^ 256)⁻¹) ∧
    wordsValue (gfpAdd a.words b.words) =
      (wordsValue a.words + wordsValue b.words) % fieldPrime ∧
    wordsValue (gfpSub a.words b.words) =
      (wordsValue a.words + (fieldPrime - wordsValue b.words)) % fieldPrime ∧
    wordsValue (gfpNeg a.words) = (fieldPrime - wordsValue a.words) % fieldPrime ∧
    montDecode (montEncode a) = a ∧ montEncode (montDecode a) = a ∧
    (a ≠ zero → gfpMul a.words a.invert.words = one.words) ∧
    wordsValue one.words = 2 ^ 256 % fieldPrime ∧
    (mulCells x y).map UInt64.toNat = addRows exactPartials 0 x y (List.replicate 32 0) ∧
    (halfMulCells x y).map UInt64.toNat =
      addHalfRows exactPartials 4 0 x y (List.replicate 18 0) ∧
    wordsValue (mul x y) = wordsValue x * wordsValue y ∧
    wordsValue (halfMul x y) = wordsValue x * wordsValue y % 2 ^ 256 := by
  refine ⟨⟨(GfP.mul a b).reduced, raw_mul a b⟩, ?_⟩
  refine ⟨(gfpAdd_value a.length_eq b.length_eq a.reduced b.reduced).2,
    (gfpSub_value a.length_eq b.length_eq a.reduced b.reduced).2,
    (gfpNeg_value a.length_eq a.reduced).2, montDecode_montEncode a, montEncode_montDecode a, ?_⟩
  refine ⟨fun hne => congrArg GfP.words (mul_invert hne), ?_, (mulCells_exact hx hy).cells_eq,
    (halfMulCells_exact hx hy).cells_eq, (mul_value hx hy).2, (halfMul_value hx hy).2⟩
  have hone : one.raw = radix := by
    have hfield := toField_one
    rwa [toField, mul_inv_eq_one₀ radix_ne_zero] at hfield
  rw [raw, ← natCast_radix, ZMod.natCast_eq_natCast_iff', Nat.mod_eq_of_lt one.reduced] at hone
  exact hone

/-- Factors with all bits set. -/
theorem montgomery_exact_ones :
    let x : List UInt64 := List.replicate 4 0xffffffffffffffff
    one ≠ zero ∧ gfpMul one.words one.invert.words = one.words ∧
      wordsValue (mul x x) = wordsValue x * wordsValue x := by
  intro x
  have hne : one ≠ zero := by
    intro h
    have hfield := congrArg toField h
    rw [toField_one, toField_zero] at hfield
    exact one_ne_zero hfield
  obtain ⟨-, -, -, -, -, -, hinv, -, -, -, hmul, -⟩ := montgomery_exact one one x x rfl rfl
  exact ⟨hne, hinv hne, hmul⟩

end Statement

end DirtybirdMiner.Bn256.Gfp
