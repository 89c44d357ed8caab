import DirtybirdMiner.Args.Decoding
import Mathlib.Data.Nat.Bitwise

/-!
The conversions between single and half precision of `block/src/arguments.rs`, bit for bit: which
numbers they keep, that no intermediate integer overflows, and the form of a float that the
encoder chooses.
-/

namespace DirtybirdMiner.Args.HalfFloats

open DirtybirdMiner.Lib.Bytes
open DirtybirdMiner.Lib.Floats
open DirtybirdMiner.Args.Encoding
open DirtybirdMiner.Args.WellFormed
open DirtybirdMiner.Args.Validator
open DirtybirdMiner.Args.Parser
open DirtybirdMiner.Args.Decoding

section Checked

/-- An `i32`. -/
def i32 (n : Int) : Option Int := if -(2 ^ 31) ≤ n ∧ n < 2 ^ 31 then some n else none

/-- `n as u32`, for a number that is kept. -/
def asU32 (n : Int) : Option UInt32 :=
  if 0 ≤ n ∧ n < 2 ^ 32 then some (UInt32.ofNat n.toNat) else none

/-- `a as u16`, for a number that is kept. -/
def asU16 (a : UInt32) : Option UInt16 := if a.toNat < 2 ^ 16 then some a.toUInt16 else none

def add (a b : UInt32) : Option UInt32 := if a.toNat + b.toNat < 2 ^ 32 then some (a + b) else none

def sub (a b : UInt32) : Option UInt32 := if b.toNat ≤ a.toNat then some (a - b) else none

/-- `a << b`, without a bit lost. -/
def shl (a b : UInt32) : Option UInt32 :=
  if b.toNat < 32 ∧ a.toNat * 2 ^ b.toNat < 2 ^ 32 then some (a <<< b) else none

def shr (a b : UInt32) : Option UInt32 := if b.toNat < 32 then some (a >>> b) else none

/-- The loop, `none` when an operation overflows or the budget is used up. -/
def normalizeChecked : Nat → Int → UInt32 → Option (Int × UInt32)
  | 0, _, _ => none
  | budget + 1, e, m =>
      if m &&& 0x00800000 = 0 then do
        let m ← shl m 1
        let e ← i32 (e - 1)
        normalizeChecked budget e m
      else some (e, m)

/-- `f16_bits_to_f32`, `none` when an operation overflows. -/
def f16BitsToF32Checked (h : UInt16) : Option UInt32 := do
  let sign ← shl (h &&& 0x8000).toUInt32 16
  let exp := ((h >>> 10) &&& 0x1f).toUInt32
  let man := (h &&& 0x03ff).toUInt32
  if exp = 0 then
    if man = 0 then some sign
    else
      let m ← shl man 13
      let (e, m) ← normalizeChecked 24 (127 - 15 + 1) m
      let e ← asU32 e
      let e ← shl e 23
      some (sign ||| e ||| (m &&& 0x007fffff))
  else if exp = 0x1f then
    let man ← shl man 13
    some (sign ||| (0x7f800000 : UInt32) ||| man)
  else
    let exp ← add exp 127
    let exp ← sub exp 15
    let exp ← shl exp 23
    let man ← shl man 13
    some (sign ||| exp ||| man)

/-- One more where the rounding asks for it. -/
def roundUp (up : Bool) (h : UInt32) : Option UInt16 :=
  if up then do
    let h ← add h 1
    asU16 h
  else asU16 h

/-- `f32_to_f16_bits`, `none` when an operation overflows. -/
def f32ToF16BitsChecked (x : UInt32) : Option UInt16 := do
  let sign ← asU16 ((x >>> 16) &&& 0x8000)
  let exp := ((x >>> 23) &&& 0xff).toNat
  let man := x &&& 0x007fffff
  if exp = 0xff then
    let nanBit : UInt16 := if man ≠ 0 ∧ man >>> 13 = 0 then 0x0200 else 0
    let payload ← asU16 (man >>> 13)
    some (sign ||| (0x7c00 : UInt16) ||| nanBit ||| payload)
  else
    let unbiased ← i32 (exp - 127)
    if unbiased ≥ 16 then some (sign ||| 0x7c00)
    else if unbiased ≥ -14 then
      let biased ← i32 (unbiased + 15)
      let biased ← asU32 biased
      let biased ← shl biased 10
      let h := sign.toUInt32 ||| (biased ||| (man >>> 13))
      let round := man &&& 0x1fff
      roundUp (round > 0x1000 ∨ (round = 0x1000 ∧ h &&& 1 = 1)) h
    else if unbiased ≥ -24 then
      let m := man ||| 0x00800000
      let shift ← i32 (-(unbiased + 1))
      let shift ← asU32 shift
      let high ← shr m shift
      let h := sign.toUInt32 ||| high
      let bit ← shl 1 shift
      let mask ← sub bit 1
      let rem := m &&& mask
      let below ← sub shift 1
      let half ← shl 1 below
      roundUp (rem > half ∨ (rem = half ∧ h &&& 1 = 1)) h
    else some sign

end Checked

section Bits

theorem and_two_pow (a k : Nat) : a &&& 2 ^ k = a / 2 ^ k % 2 * 2 ^ k := by
  rw [Nat.and_two_pow, Nat.toNat_testBit]

/-- The sign of a half, in its place in a single. -/
theorem sign16_toNat (h : UInt16) :
    ((h &&& 0x8000).toUInt32).toNat = binary16.sign h.toNat * 2 ^ 15 := by
  have hlt := h.toNat_lt
  rw [UInt16.toNat_toUInt32, UInt16.toNat_and]
  have hmask : (0x8000 : UInt16).toNat = 2 ^ 15 := rfl
  rw [hmask, and_two_pow, Format.sign]
  change h.toNat / 2 ^ 15 % 2 * 2 ^ 15 = h.toNat / 2 ^ 15 * 2 ^ 15
  omega

theorem exponent16_toNat (h : UInt16) :
    (((h >>> 10) &&& 0x1f).toUInt32).toNat = binary16.exponentField h.toNat := by
  rw [UInt16.toNat_toUInt32, UInt16.toNat_and, UInt16.toNat_shiftRight]
  have hmask : (0x1f : UInt16).toNat = 2 ^ 5 - 1 := rfl
  have hcount : (10 : UInt16).toNat % 16 = 10 := rfl
  rw [hmask, hcount, Nat.and_two_pow_sub_one_eq_mod, Nat.shiftRight_eq_div_pow]
  rfl

theorem fraction16_toNat (h : UInt16) :
    ((h &&& 0x03ff).toUInt32).toNat = binary16.fractionField h.toNat := by
  rw [UInt16.toNat_toUInt32, UInt16.toNat_and]
  have hmask : (0x03ff : UInt16).toNat = 2 ^ 10 - 1 := rfl
  rw [hmask, Nat.and_two_pow_sub_one_eq_mod]
  rfl

theorem sign32_toNat (x : UInt32) :
    ((x >>> 16) &&& 0x8000).toNat = binary32.sign x.toNat * 2 ^ 15 := by
  have hlt := x.toNat_lt
  rw [UInt32.toNat_and, UInt32.toNat_shiftRight]
  have hmask : (0x8000 : UInt32).toNat = 2 ^ 15 := rfl
  have hcount : (16 : UInt32).toNat % 32 = 16 := rfl
  rw [hmask, hcount, and_two_pow, Nat.shiftRight_eq_div_pow]
  change x.toNat / 2 ^ 16 / 2 ^ 15 % 2 * 2 ^ 15 = x.toNat / 2 ^ 31 * 2 ^ 15
  omega

theorem exponent32_toNat (x : UInt32) :
    ((x >>> 23) &&& 0xff).toNat = binary32.exponentField x.toNat := by
  rw [UInt32.toNat_and, UInt32.toNat_shiftRight]
  have hmask : (0xff : UInt32).toNat = 2 ^ 8 - 1 := rfl
  have hcount : (23 : UInt32).toNat % 32 = 23 := rfl
  rw [hmask, hcount, Nat.and_two_pow_sub_one_eq_mod, Nat.shiftRight_eq_div_pow]
  rfl

theorem fraction32_toNat (x : UInt32) :
    (x &&& 0x007fffff).toNat = binary32.fractionField x.toNat := by
  rw [UInt32.toNat_and]
  have hmask : (0x007fffff : UInt32).toNat = 2 ^ 23 - 1 := rfl
  rw [hmask, Nat.and_two_pow_sub_one_eq_mod]
  rfl

theorem shl_eq {a b : UInt32} (hb : b.toNat < 32) (h : a.toNat * 2 ^ b.toNat < 2 ^ 32) :
    shl a b = some (a <<< b) ∧ (a <<< b).toNat = a.toNat * 2 ^ b.toNat := by
  refine ⟨if_pos ⟨hb, h⟩, ?_⟩
  rw [UInt32.toNat_shiftLeft, Nat.mod_eq_of_lt hb, Nat.shiftLeft_eq, Nat.mod_eq_of_lt h]

theorem add_eq {a b : UInt32} (h : a.toNat + b.toNat < 2 ^ 32) :
    add a b = some (a + b) ∧ (a + b).toNat = a.toNat + b.toNat := by
  refine ⟨if_pos h, ?_⟩
  rw [UInt32.toNat_add, Nat.mod_eq_of_lt h]

theorem sub_eq {a b : UInt32} (h : b.toNat ≤ a.toNat) :
    sub a b = some (a - b) ∧ (a - b).toNat = a.toNat - b.toNat :=
  ⟨if_pos h, UInt32.toNat_sub_of_le _ _ h⟩

end Bits

section Halves

variable {h : UInt16}

/-- The bits of a single from a half. -/
def Gives (h : UInt16) (e f : Nat) : Prop :=
  f16BitsToF32Checked h = some (f16BitsToF32 h) ∧
    (f16BitsToF32 h).toNat = binary32.pack (binary16.sign h.toNat) e f

theorem toNat_eq_iff {a b : UInt32} : a = b ↔ a.toNat = b.toNat := UInt32.toNat_inj.symm

theorem sign16_lt (h : UInt16) : binary16.sign h.toNat < 2 := by
  have hlt := h.toNat_lt
  change h.toNat / 2 ^ 15 < 2
  omega

theorem sign16_shl (h : UInt16) :
    shl (h &&& 0x8000).toUInt32 16 = some ((h &&& 0x8000).toUInt32 <<< 16) ∧
      ((h &&& 0x8000).toUInt32 <<< 16).toNat =
        binary16.sign h.toNat * 2 ^ (binary32.fraction + binary32.exponent) := by
  have hsign := sign16_toNat h
  have hlt := sign16_lt h
  have hcount : (16 : UInt32).toNat = 16 := rfl
  obtain ⟨hshl, hvalue⟩ := shl_eq (a := (h &&& 0x8000).toUInt32) (b := 16) (by decide) (by
    rw [hsign, hcount]
    omega)
  refine ⟨hshl, ?_⟩
  rw [hvalue, hsign, hcount]
  change _ = binary16.sign h.toNat * 2 ^ 31
  omega

/-- The fraction of a half, in its place in a single. -/
theorem fraction16_shl (h : UInt16) :
    shl (h &&& 0x03ff).toUInt32 13 = some ((h &&& 0x03ff).toUInt32 <<< 13) ∧
      ((h &&& 0x03ff).toUInt32 <<< 13).toNat = binary16.fractionField h.toNat * 2 ^ 13 := by
  have hfraction := fraction16_toNat h
  have hlt : binary16.fractionField h.toNat < 2 ^ 10 := binary16.fractionField_lt _
  have hcount : (13 : UInt32).toNat = 13 := rfl
  obtain ⟨hshl, hvalue⟩ := shl_eq (a := (h &&& 0x03ff).toUInt32) (b := 13) (by decide) (by
    rw [hfraction, hcount]
    omega)
  exact ⟨hshl, by rw [hvalue, hfraction, hcount]⟩

theorem gives_normal (hlo : binary16.exponentField h.toNat ≠ 0)
    (hhi : binary16.exponentField h.toNat ≠ 31) :
    Gives h (binary16.exponentField h.toNat + 112) (binary16.fractionField h.toNat * 2 ^ 13) := by
  have he := exponent16_toNat h
  have helt : binary16.exponentField h.toNat < 2 ^ 5 := binary16.exponentField_lt _
  have hflt : binary16.fractionField h.toNat < 2 ^ 10 := binary16.fractionField_lt _
  obtain ⟨hsign, hsignValue⟩ := sign16_shl h
  obtain ⟨hman, hmanValue⟩ := fraction16_shl h
  have h0 : ((h >>> 10) &&& 0x1f).toUInt32 ≠ 0 := by
    rw [Ne, toNat_eq_iff, he]
    exact hlo
  have h31 : ((h >>> 10) &&& 0x1f).toUInt32 ≠ 0x1f := by
    rw [Ne, toNat_eq_iff, he]
    exact hhi
  obtain ⟨hadd, haddValue⟩ := add_eq (a := ((h >>> 10) &&& 0x1f).toUInt32) (b := 127) (by
    rw [he]
    have hb : (127 : UInt32).toNat = 127 := rfl
    omega)
  have hb127 : (127 : UInt32).toNat = 127 := rfl
  have hb15 : (15 : UInt32).toNat = 15 := rfl
  have hb23 : (23 : UInt32).toNat = 23 := rfl
  rw [he, hb127] at haddValue
  obtain ⟨hsub, hsubValue⟩ := sub_eq (a := ((h >>> 10) &&& 0x1f).toUInt32 + 127) (b := 15) (by
    omega)
  rw [haddValue, hb15] at hsubValue
  obtain ⟨hshl, hshlValue⟩ := shl_eq (a := ((h >>> 10) &&& 0x1f).toUInt32 + 127 - 15) (b := 23)
    (by decide) (by
      rw [hsubValue, hb23]
      omega)
  rw [hsubValue, hb23] at hshlValue
  have hbits : f16BitsToF32 h = (h &&& 0x8000).toUInt32 <<< 16 |||
      (((h >>> 10) &&& 0x1f).toUInt32 + 127 - 15) <<< 23 ||| (h &&& 0x03ff).toUInt32 <<< 13 := by
    unfold f16BitsToF32
    simp only [if_neg h0, if_neg h31]
  constructor
  · rw [hbits, f16BitsToF32Checked, hsign]
    simp only [Option.bind_eq_bind, Option.bind_some]
    rw [if_neg h0, if_neg h31, hadd, Option.bind_some, hsub, Option.bind_some, hshl,
      Option.bind_some, hman, Option.bind_some]
  · rw [hbits, UInt32.toNat_or, UInt32.toNat_or, hsignValue, hshlValue, hmanValue]
    have hexp : binary16.exponentField h.toNat + 127 - 15 =
        binary16.exponentField h.toNat + 112 := by omega
    rw [hexp]
    exact Format.or_fields _ (by change _ < 2 ^ 8; omega) (by change _ < 2 ^ 23; omega)

/-- The test of the loop. -/
theorem leading_clear_iff {m : UInt32} (h : m.toNat < 2 ^ 24) :
    m &&& 0x00800000 = 0 ↔ m.toNat < 2 ^ 23 := by
  have hmask : (0x00800000 : UInt32).toNat = 2 ^ 23 := rfl
  have hzero : (0 : UInt32).toNat = 0 := rfl
  rw [toNat_eq_iff, UInt32.toNat_and, hmask, hzero, and_two_pow]
  omega

/-- The loop ends when the leading bit is reached, and nothing overflows before. -/
theorem normalize_eq {budget t e : Nat} {m : UInt32} (hbudget : t < budget) (he : t ≤ e)
    (hmax : e < 2 ^ 31) (hlo : 2 ^ 23 ≤ m.toNat * 2 ^ t) (hhi : m.toNat * 2 ^ t < 2 ^ 24) :
    ∃ m', Encoding.normalize budget e m = (e - t, m') ∧
      normalizeChecked budget e m = some (((e - t : Nat) : Int), m') ∧
      m'.toNat = m.toNat * 2 ^ t := by
  induction t generalizing budget e m with
  | zero =>
      obtain ⟨budget, rfl⟩ : ∃ b, budget = b + 1 := ⟨budget - 1, by omega⟩
      rw [pow_zero, Nat.mul_one] at hlo hhi
      have hset : ¬(m &&& 0x00800000 = 0) := by
        rw [leading_clear_iff hhi]
        omega
      refine ⟨m, ?_, ?_, by rw [pow_zero, Nat.mul_one]⟩
      · rw [Encoding.normalize, if_neg hset, Nat.sub_zero]
      · rw [normalizeChecked, if_neg hset, Nat.sub_zero]
  | succ t ih =>
      obtain ⟨budget, rfl⟩ : ∃ b, budget = b + 1 := ⟨budget - 1, by omega⟩
      have hdouble : m.toNat * 2 ^ (t + 1) = m.toNat * 2 * 2 ^ t := by rw [pow_succ]; ring
      have hpos := Nat.two_pow_pos t
      have hsmall : m.toNat < 2 ^ 23 := by
        by_contra hge
        have hmul := Nat.mul_le_mul (Nat.le_of_not_lt hge) (show 2 ≤ 2 ^ (t + 1) by
          rw [pow_succ]
          omega)
        omega
      have hclear := (leading_clear_iff (show m.toNat < 2 ^ 24 by omega)).mpr hsmall
      have hone : (1 : UInt32).toNat = 1 := rfl
      obtain ⟨hshl, hvalue⟩ := shl_eq (a := m) (b := 1) (by decide) (by rw [hone]; omega)
      rw [hone, pow_one] at hvalue
      rw [hdouble] at hlo hhi ⊢
      obtain ⟨m', hnormal, hchecked, hm'⟩ := @ih budget (e - 1) (m <<< 1)
        (by omega) (by omega) (by omega) (by rwa [hvalue]) (by rwa [hvalue])
      have hi32 : i32 ((e : Int) - 1) = some (((e - 1 : Nat) : Int)) := by
        rw [i32, if_pos (by omega)]
        congr 1
        omega
      have hexp : e - 1 - t = e - (t + 1) := by omega
      refine ⟨m', ?_, ?_, by rw [hm', hvalue]⟩
      · rw [Encoding.normalize, if_pos hclear, hnormal, hexp]
      · rw [normalizeChecked, if_pos hclear, hshl, Option.bind_eq_bind, Option.bind_some, hi32,
          Option.bind_eq_bind, Option.bind_some, hchecked, hexp]

theorem gives_zero (he : binary16.exponentField h.toNat = 0)
    (hf : binary16.fractionField h.toNat = 0) : Gives h 0 0 := by
  obtain ⟨hsign, hsignValue⟩ := sign16_shl h
  have h0 : ((h >>> 10) &&& 0x1f).toUInt32 = 0 := by
    rw [toNat_eq_iff, exponent16_toNat, he]
    rfl
  have hman : (h &&& 0x03ff).toUInt32 = 0 := by
    rw [toNat_eq_iff, fraction16_toNat, hf]
    rfl
  have hbits : f16BitsToF32 h = (h &&& 0x8000).toUInt32 <<< 16 := by
    unfold f16BitsToF32
    simp only [if_pos h0, if_pos hman]
  constructor
  · rw [hbits, f16BitsToF32Checked, hsign]
    simp only [Option.bind_eq_bind, Option.bind_some]
    rw [if_pos h0, if_pos hman]
  · rw [hbits, hsignValue, Format.pack, Nat.add_zero, Nat.add_zero, Nat.mul_assoc, ← pow_add,
      Nat.add_comm binary32.exponent]

/-- A subnormal half is normalised. -/
theorem gives_subnormal {t : Nat} (he : binary16.exponentField h.toNat = 0) (ht : t ≤ 10)
    (hlo : 2 ^ 23 ≤ binary16.fractionField h.toNat * 2 ^ (13 + t))
    (hhi : binary16.fractionField h.toNat * 2 ^ (13 + t) < 2 ^ 24) :
    Gives h (113 - t) (binary16.fractionField h.toNat * 2 ^ (13 + t) - 2 ^ 23) := by
  obtain ⟨hsign, hsignValue⟩ := sign16_shl h
  obtain ⟨hman, hmanValue⟩ := fraction16_shl h
  have h0 : ((h >>> 10) &&& 0x1f).toUInt32 = 0 := by
    rw [toNat_eq_iff, exponent16_toNat, he]
    rfl
  have hne : ¬(h &&& 0x03ff).toUInt32 = 0 := by
    rw [toNat_eq_iff, fraction16_toNat]
    intro hzero
    have hzero' : binary16.fractionField h.toNat = 0 := hzero
    rw [hzero', Nat.zero_mul] at hlo
    omega
  rw [pow_add, ← Nat.mul_assoc, ← hmanValue] at hlo hhi ⊢
  obtain ⟨m', hnormal, hchecked, hm'⟩ := @normalize_eq 24 t 113 _ (by omega) (by omega) (by omega)
    hlo hhi
  rw [← hm'] at hlo hhi ⊢
  have hasU32 : asU32 (((113 - t : Nat) : Int)) = some (UInt32.ofNat (113 - t)) := by
    rw [asU32, if_pos (by omega), Int.toNat_natCast]
  have hofNat : (UInt32.ofNat (113 - t)).toNat = 113 - t := by
    rw [UInt32.toNat_ofNat', Nat.mod_eq_of_lt (by omega)]
  have hb23 : (23 : UInt32).toNat = 23 := rfl
  obtain ⟨hshl, hshlValue⟩ := shl_eq (a := UInt32.ofNat (113 - t)) (b := 23) (by decide) (by
    rw [hofNat, hb23]
    omega)
  rw [hofNat, hb23] at hshlValue
  have hbits : f16BitsToF32 h = (h &&& 0x8000).toUInt32 <<< 16 |||
      UInt32.ofNat (113 - t) <<< 23 ||| (m' &&& 0x007fffff) := by
    unfold f16BitsToF32
    simp only [if_pos h0, if_neg hne]
    rw [hnormal]
  constructor
  · rw [hbits, f16BitsToF32Checked, hsign]
    simp only [Option.bind_eq_bind, Option.bind_some]
    rw [if_pos h0, if_neg hne, hman, Option.bind_some]
    have hstart : (127 - 15 + 1 : Int) = ((113 : Nat) : Int) := by norm_num
    rw [hstart, hchecked, Option.bind_some, hasU32, Option.bind_some, hshl, Option.bind_some]
  · have hfraction : (m' &&& 0x007fffff).toNat = m'.toNat - 2 ^ 23 := by
      rw [fraction32_toNat]
      change m'.toNat % 2 ^ 23 = _
      omega
    rw [hbits, UInt32.toNat_or, UInt32.toNat_or, hsignValue, hshlValue, hfraction]
    exact Format.or_fields _ (by change _ < 2 ^ 8; omega) (by change _ < 2 ^ 23; omega)

theorem gives_special (he : binary16.exponentField h.toNat = 31) :
    Gives h 255 (binary16.fractionField h.toNat * 2 ^ 13) := by
  have hflt : binary16.fractionField h.toNat < 2 ^ 10 := binary16.fractionField_lt _
  obtain ⟨hsign, hsignValue⟩ := sign16_shl h
  obtain ⟨hman, hmanValue⟩ := fraction16_shl h
  have h0 : ¬((h >>> 10) &&& 0x1f).toUInt32 = 0 := by
    rw [toNat_eq_iff, exponent16_toNat, he]
    decide
  have h31 : ((h >>> 10) &&& 0x1f).toUInt32 = 0x1f := by
    rw [toNat_eq_iff, exponent16_toNat, he]
    rfl
  have hbits : f16BitsToF32 h = (h &&& 0x8000).toUInt32 <<< 16 ||| (0x7f800000 : UInt32) |||
      (h &&& 0x03ff).toUInt32 <<< 13 := by
    unfold f16BitsToF32
    simp only [if_neg h0, if_pos h31]
  constructor
  · rw [hbits, f16BitsToF32Checked, hsign]
    simp only [Option.bind_eq_bind, Option.bind_some]
    rw [if_neg h0, if_pos h31, hman, Option.bind_some]
  · have hexp : (0x7f800000 : UInt32).toNat = 255 * 2 ^ binary32.fraction := rfl
    rw [hbits, UInt32.toNat_or, UInt32.toNat_or, hsignValue, hexp, hmanValue]
    exact Format.or_fields _ (by decide) (by change _ < 2 ^ 23; omega)

/-- How far a subnormal half is moved. -/
theorem exists_shift {f : Nat} (hpos : f ≠ 0) (hlt : f < 2 ^ 10) :
    ∃ t, 1 ≤ t ∧ t ≤ 10 ∧ 2 ^ 23 ≤ f * 2 ^ (13 + t) ∧ f * 2 ^ (13 + t) < 2 ^ 24 := by
  have hlo := Nat.log2_self_le hpos
  have hhi : f < 2 ^ (f.log2 + 1) := Nat.lt_log2_self
  have hlog : f.log2 < 10 := (Nat.log2_lt hpos).mpr hlt
  refine ⟨10 - f.log2, by omega, by omega, ?_, ?_⟩
  · calc 2 ^ 23 = 2 ^ f.log2 * 2 ^ (13 + (10 - f.log2)) := by
          rw [← pow_add]
          congr 1
          omega
      _ ≤ f * 2 ^ (13 + (10 - f.log2)) := Nat.mul_le_mul_right _ hlo
  · calc f * 2 ^ (13 + (10 - f.log2)) < 2 ^ (f.log2 + 1) * 2 ^ (13 + (10 - f.log2)) :=
          Nat.mul_lt_mul_of_pos_right hhi (Nat.two_pow_pos _)
      _ = 2 ^ 24 := by
          rw [← pow_add]
          congr 1
          omega

/-- The fields of a single from a finite half: one of three kinds. -/
inductive Kind (h : UInt16) : Nat → Nat → Prop
  | zero (he : binary16.exponentField h.toNat = 0) (hf : binary16.fractionField h.toNat = 0) :
      Kind h 0 0
  | subnormal {t : Nat} (he : binary16.exponentField h.toNat = 0) (hpos : 1 ≤ t) (ht : t ≤ 10)
      (hlo : 2 ^ 23 ≤ binary16.fractionField h.toNat * 2 ^ (13 + t))
      (hhi : binary16.fractionField h.toNat * 2 ^ (13 + t) < 2 ^ 24) :
      Kind h (113 - t) (binary16.fractionField h.toNat * 2 ^ (13 + t) - 2 ^ 23)
  | normal (hlo : binary16.exponentField h.toNat ≠ 0)
      (hhi : binary16.exponentField h.toNat ≠ 31) :
      Kind h (binary16.exponentField h.toNat + 112) (binary16.fractionField h.toNat * 2 ^ 13)

theorem Kind.gives {e f : Nat} (hkind : Kind h e f) : Gives h e f := by
  cases hkind with
  | zero he hf => exact gives_zero he hf
  | subnormal he hpos ht hlo hhi => exact gives_subnormal he ht hlo hhi
  | normal hlo hhi => exact gives_normal hlo hhi

theorem Kind.lt {e f : Nat} (hkind : Kind h e f) :
    e < 2 ^ binary32.exponent - 1 ∧ f < 2 ^ binary32.fraction := by
  change e < 2 ^ 8 - 1 ∧ f < 2 ^ 23
  cases hkind with
  | zero he hf => decide
  | subnormal he hpos ht hlo hhi => omega
  | normal hlo hhi =>
      have helt : binary16.exponentField h.toNat < 2 ^ 5 := binary16.exponentField_lt _
      have hflt : binary16.fractionField h.toNat < 2 ^ 10 := binary16.fractionField_lt _
      omega

theorem exists_kind (hfinite : binary16.Finite h.toNat) : ∃ e f, Kind h e f := by
  by_cases he : binary16.exponentField h.toNat = 0
  · by_cases hf : binary16.fractionField h.toNat = 0
    · exact ⟨_, _, .zero he hf⟩
    · obtain ⟨t, hpos, ht, hlo, hhi⟩ := exists_shift hf (binary16.fractionField_lt _)
      exact ⟨_, _, .subnormal he hpos ht hlo hhi⟩
  · refine ⟨_, _, .normal he ?_⟩
    have hlt : binary16.exponentField h.toNat < 31 := hfinite
    omega

theorem f16BitsToF32Checked_eq (h : UInt16) :
    f16BitsToF32Checked h = some (f16BitsToF32 h) := by
  by_cases hspecial : binary16.exponentField h.toNat = 31
  · exact (gives_special hspecial).1
  · have hlt : binary16.exponentField h.toNat < 2 ^ 5 := binary16.exponentField_lt _
    have hfinite : binary16.Finite h.toNat := by
      change binary16.exponentField h.toNat < 31
      omega
    obtain ⟨e, f, hkind⟩ := exists_kind hfinite
    exact hkind.gives.1

/-- The value of a half in the units of a single. -/
theorem Kind.magnitude {e f : Nat} (hkind : Kind h e f) (s : Nat) :
    binary32.magnitude (binary32.pack s e f) =
      binary16.magnitude h.toNat * 2 ^ (binary32.unit - binary16.unit) := by
  obtain ⟨helt, hflt⟩ := hkind.lt
  have hexp : binary32.exponentField (binary32.pack s e f) = e :=
    Format.exponentField_pack s (by omega) hflt
  have hfrac : binary32.fractionField (binary32.pack s e f) = f :=
    Format.fractionField_pack binary32 s e hflt
  have hunit : binary32.unit - binary16.unit = 125 := by decide
  have hwidth : 2 ^ binary32.fraction = 2 ^ 23 := rfl
  have hwidth16 : 2 ^ binary16.fraction = 2 ^ 10 := rfl
  rw [hunit]
  cases hkind with
  | zero he hf =>
      rw [Format.magnitude_of_zero hexp, hfrac, Format.magnitude_of_zero he, hf, Nat.zero_mul]
  | @subnormal t he hpos ht hlo hhi =>
      have hscale : 13 + t + (113 - t - 1) = 125 := by omega
      rw [Format.magnitude_of_ne_zero (by rw [hexp]; omega), hexp, hfrac, hwidth,
        Format.magnitude_of_zero he, Nat.add_sub_cancel' hlo, Nat.mul_assoc, ← pow_add, hscale]
  | normal hlo hhi =>
      have hscale : binary16.exponentField h.toNat + 112 - 1 =
          binary16.exponentField h.toNat - 1 + 112 := by omega
      rw [Format.magnitude_of_ne_zero (by rw [hexp]; omega), hexp, hfrac, hwidth,
        Format.magnitude_of_ne_zero hlo, hwidth16, hscale]
      ring

theorem f16BitsToF32_fields (hfinite : binary16.Finite h.toNat) :
    binary32.magnitude (f16BitsToF32 h).toNat =
        binary16.magnitude h.toNat * 2 ^ (binary32.unit - binary16.unit) ∧
      binary32.sign (f16BitsToF32 h).toNat = binary16.sign h.toNat ∧
      binary32.Finite (f16BitsToF32 h).toNat := by
  obtain ⟨e, f, hkind⟩ := exists_kind hfinite
  obtain ⟨helt, hflt⟩ := hkind.lt
  rw [hkind.gives.2]
  refine ⟨hkind.magnitude _, Format.sign_pack _ (by omega) hflt, ?_⟩
  rw [Format.Finite, Format.exponentField_pack _ (by omega) hflt]
  exact helt

end Halves

section Singles

variable {x : UInt32}

theorem sign32_lt (x : UInt32) : binary32.sign x.toNat < 2 := by
  have hlt := x.toNat_lt
  change x.toNat / 2 ^ 31 < 2
  omega

theorem asU16_eq {a : UInt32} (h : a.toNat < 2 ^ 16) :
    asU16 a = some a.toUInt16 ∧ a.toUInt16.toNat = a.toNat := by
  refine ⟨if_pos h, ?_⟩
  rw [UInt32.toNat_toUInt16, Nat.mod_eq_of_lt h]

theorem sign32_asU16 (x : UInt32) :
    asU16 ((x >>> 16) &&& 0x8000) = some ((x >>> 16) &&& 0x8000).toUInt16 ∧
      ((x >>> 16) &&& 0x8000).toUInt16.toNat = binary32.sign x.toNat * 2 ^ 15 := by
  have hsign := sign32_toNat x
  have hlt := sign32_lt x
  obtain ⟨hcast, hvalue⟩ := asU16_eq (a := (x >>> 16) &&& 0x8000) (by rw [hsign]; omega)
  exact ⟨hcast, by rw [hvalue, hsign]⟩

theorem roundUp_eq {h : UInt32} (hlt : h.toNat + 1 < 2 ^ 16) (up : Bool) :
    roundUp up h = some (if up = true then (h + 1).toUInt16 else h.toUInt16) := by
  have hone : (1 : UInt32).toNat = 1 := rfl
  unfold roundUp
  cases up with
  | false => exact (asU16_eq (by omega)).1
  | true =>
      obtain ⟨hadd, hvalue⟩ := add_eq (a := h) (b := 1) (by rw [hone]; omega)
      rw [if_pos rfl, if_pos rfl, hadd]
      exact (asU16_eq (by rw [hvalue, hone]; omega)).1

theorem fraction32_shr (x : UInt32) :
    ((x &&& 0x007fffff) >>> 13).toNat = binary32.fractionField x.toNat / 2 ^ 13 := by
  have hcount : (13 : UInt32).toNat % 32 = 13 := rfl
  rw [UInt32.toNat_shiftRight, hcount, fraction32_toNat, Nat.shiftRight_eq_div_pow]

/-- The bits of a normal half, before they are rounded. -/
theorem f32ToF16Bits_normal (hlo : 113 ≤ binary32.exponentField x.toNat)
    (hhi : binary32.exponentField x.toNat ≤ 142) :
    ∃ h : UInt32,
      h.toNat = binary16.pack (binary32.sign x.toNat) (binary32.exponentField x.toNat - 112)
        (binary32.fractionField x.toNat / 2 ^ 13) ∧
      f32ToF16Bits x = (if (x &&& 0x007fffff) &&& 0x1fff > 0x1000 ∨
        ((x &&& 0x007fffff) &&& 0x1fff = 0x1000 ∧ h &&& 1 = 1) then (h + 1).toUInt16
        else h.toUInt16) ∧
      f32ToF16BitsChecked x = some (f32ToF16Bits x) := by
  have he := exponent32_toNat x
  have hslt := sign32_lt x
  have hflt : binary32.fractionField x.toNat < 2 ^ 23 := binary32.fractionField_lt _
  obtain ⟨hsign, hsignValue⟩ := sign32_asU16 x
  obtain ⟨u, hu⟩ : ∃ u, u = binary32.exponentField x.toNat - 112 := ⟨_, rfl⟩
  have hunbiased : i32 ((((x >>> 23) &&& 0xff).toNat : Int) - 127) =
      some ((((x >>> 23) &&& 0xff).toNat : Int) - 127) := if_pos (by omega)
  have hbiased : ((((x >>> 23) &&& 0xff).toNat : Int) - 127) + 15 = (u : Int) := by omega
  have hi32 : i32 ((u : Int)) = some (u : Int) := if_pos (by omega)
  have hasU32 : asU32 ((u : Int)) = some (UInt32.ofNat u) := by
    rw [asU32, if_pos (by omega), Int.toNat_natCast]
  have hofNat : (UInt32.ofNat u).toNat = u := by
    rw [UInt32.toNat_ofNat', Nat.mod_eq_of_lt (by omega)]
  have hb10 : (10 : UInt32).toNat = 10 := rfl
  obtain ⟨hshl, hshlValue⟩ := shl_eq (a := UInt32.ofNat u) (b := 10) (by decide) (by
    rw [hofNat, hb10]
    omega)
  rw [hofNat, hb10] at hshlValue
  obtain ⟨h, hh⟩ : ∃ h, h = ((x >>> 16) &&& 0x8000).toUInt16.toUInt32 |||
      (UInt32.ofNat u <<< 10 ||| (x &&& 0x007fffff) >>> 13) := ⟨_, rfl⟩
  have hvalue : h.toNat = binary16.pack (binary32.sign x.toNat) u
      (binary32.fractionField x.toNat / 2 ^ 13) := by
    rw [hh, UInt32.toNat_or, UInt32.toNat_or, UInt16.toNat_toUInt32, hsignValue, hshlValue,
      fraction32_shr, ← Nat.lor_assoc]
    exact Format.or_fields (F := binary16) _ (show u < 2 ^ 5 by omega)
      (show binary32.fractionField x.toNat / 2 ^ 13 < 2 ^ 10 by omega)
  have hfits : h.toNat + 1 < 2 ^ 16 := by
    rw [hvalue]
    change (binary32.sign x.toNat * 2 ^ 5 + u) * 2 ^ 10 + _ + 1 < 2 ^ 16
    omega
  have h255 : ¬((x >>> 23) &&& 0xff).toNat = 0xff := by omega
  have h16 : ¬((((x >>> 23) &&& 0xff).toNat : Int) - 127 ≥ 16) := by omega
  have h14 : (((x >>> 23) &&& 0xff).toNat : Int) - 127 ≥ -14 := by omega
  have hbits : f32ToF16Bits x = (if (x &&& 0x007fffff) &&& 0x1fff > 0x1000 ∨
      ((x &&& 0x007fffff) &&& 0x1fff = 0x1000 ∧ h &&& 1 = 1) then (h + 1).toUInt16
      else h.toUInt16) := by
    unfold f32ToF16Bits
    simp only [if_neg h255, if_neg h16, if_pos h14, hbiased, Int.toNat_natCast, ← hh]
  refine ⟨h, by rw [hvalue, hu], hbits, ?_⟩
  rw [hbits, f32ToF16BitsChecked, hsign]
  simp only [Option.bind_eq_bind, Option.bind_some]
  rw [if_neg h255, hunbiased, Option.bind_some, if_neg h16, if_pos h14, hbiased, hi32,
    Option.bind_some, hasU32, Option.bind_some, hshl, Option.bind_some, ← hh, roundUp_eq hfits]
  simp only [decide_eq_true_eq]

theorem implicit_toNat (x : UInt32) :
    ((x &&& 0x007fffff) ||| 0x00800000).toNat = 2 ^ 23 + binary32.fractionField x.toNat := by
  have hflt : binary32.fractionField x.toNat < 2 ^ 23 := binary32.fractionField_lt _
  have hbit : (0x00800000 : UInt32).toNat = 2 ^ 23 * 1 := rfl
  rw [UInt32.toNat_or, fraction32_toNat, hbit, Nat.lor_comm,
    ← Nat.two_pow_add_eq_or_of_lt hflt, Nat.mul_one]

/-- The bits of a subnormal half, before they are rounded, and what was cut off. -/
theorem f32ToF16Bits_subnormal (hlo : 103 ≤ binary32.exponentField x.toNat)
    (hhi : binary32.exponentField x.toNat ≤ 112) :
    ∃ h rem half : UInt32,
      h.toNat = binary16.pack (binary32.sign x.toNat) 0
        ((2 ^ 23 + binary32.fractionField x.toNat) /
          2 ^ (126 - binary32.exponentField x.toNat)) ∧
      rem.toNat = (2 ^ 23 + binary32.fractionField x.toNat) %
        2 ^ (126 - binary32.exponentField x.toNat) ∧
      half.toNat = 2 ^ (126 - binary32.exponentField x.toNat - 1) ∧
      f32ToF16Bits x = (if rem > half ∨ (rem = half ∧ h &&& 1 = 1) then (h + 1).toUInt16
        else h.toUInt16) ∧
      f32ToF16BitsChecked x = some (f32ToF16Bits x) := by
  have he := exponent32_toNat x
  have hslt := sign32_lt x
  have hflt : binary32.fractionField x.toNat < 2 ^ 23 := binary32.fractionField_lt _
  have hm := implicit_toNat x
  obtain ⟨hsign, hsignValue⟩ := sign32_asU16 x
  obtain ⟨k, hk⟩ : ∃ k, k = 126 - binary32.exponentField x.toNat := ⟨_, rfl⟩
  have hk14 : 14 ≤ k := by omega
  have hk23 : k ≤ 23 := by omega
  have hunbiased : i32 ((((x >>> 23) &&& 0xff).toNat : Int) - 127) =
      some ((((x >>> 23) &&& 0xff).toNat : Int) - 127) := if_pos (by omega)
  have hshift : -(((((x >>> 23) &&& 0xff).toNat : Int) - 127) + 1) = (k : Int) := by omega
  have hi32 : i32 ((k : Int)) = some (k : Int) := if_pos (by omega)
  have hasU32 : asU32 ((k : Int)) = some (UInt32.ofNat k) := by
    rw [asU32, if_pos (by omega), Int.toNat_natCast]
  have hofNat : (UInt32.ofNat k).toNat = k := by
    rw [UInt32.toNat_ofNat', Nat.mod_eq_of_lt (by omega)]
  have hone : (1 : UInt32).toNat = 1 := rfl
  have hpow : 2 ^ k ≤ 2 ^ 23 := Nat.pow_le_pow_right (by decide) hk23
  have hpow14 : 2 ^ 14 ≤ 2 ^ k := Nat.pow_le_pow_right (by decide) hk14
  have hpowSub : 2 ^ (k - 1) ≤ 2 ^ 23 := Nat.pow_le_pow_right (by decide) (by omega)
  -- the operations, one after another
  have hshr : shr ((x &&& 0x007fffff) ||| 0x00800000) (UInt32.ofNat k) =
      some (((x &&& 0x007fffff) ||| 0x00800000) >>> UInt32.ofNat k) :=
    if_pos (by rw [hofNat]; omega)
  have hshrValue : (((x &&& 0x007fffff) ||| 0x00800000) >>> UInt32.ofNat k).toNat =
      (2 ^ 23 + binary32.fractionField x.toNat) / 2 ^ k := by
    rw [UInt32.toNat_shiftRight, hofNat, Nat.mod_eq_of_lt (show k < 32 by omega), hm,
      Nat.shiftRight_eq_div_pow]
  obtain ⟨hbit, hbitValue⟩ := shl_eq (a := 1) (b := UInt32.ofNat k) (by rw [hofNat]; omega) (by
    rw [hofNat, hone]
    omega)
  rw [hofNat, hone, Nat.one_mul] at hbitValue
  obtain ⟨hmask, hmaskValue⟩ := sub_eq (a := 1 <<< UInt32.ofNat k) (b := 1) (by
    rw [hbitValue, hone]
    omega)
  rw [hbitValue, hone] at hmaskValue
  obtain ⟨hbelow, hbelowValue⟩ := sub_eq (a := UInt32.ofNat k) (b := 1) (by
    rw [hofNat, hone]
    omega)
  rw [hofNat, hone] at hbelowValue
  obtain ⟨hhalf, hhalfValue⟩ := shl_eq (a := 1) (b := UInt32.ofNat k - 1) (by
    rw [hbelowValue]
    omega) (by
    rw [hbelowValue, hone]
    omega)
  rw [hbelowValue, hone, Nat.one_mul] at hhalfValue
  obtain ⟨h, hh⟩ : ∃ h, h = ((x >>> 16) &&& 0x8000).toUInt16.toUInt32 |||
      ((x &&& 0x007fffff) ||| 0x00800000) >>> UInt32.ofNat k := ⟨_, rfl⟩
  obtain ⟨rem, hrem⟩ : ∃ rem, rem = ((x &&& 0x007fffff) ||| 0x00800000) &&&
      ((1 : UInt32) <<< UInt32.ofNat k - 1) := ⟨_, rfl⟩
  have hhigh : (2 ^ 23 + binary32.fractionField x.toNat) / 2 ^ k < 2 ^ 10 := by
    rw [Nat.div_lt_iff_lt_mul (by omega)]
    omega
  have hvalue : h.toNat = binary16.pack (binary32.sign x.toNat) 0
      ((2 ^ 23 + binary32.fractionField x.toNat) / 2 ^ k) := by
    rw [hh, UInt32.toNat_or, UInt16.toNat_toUInt32, hsignValue, hshrValue]
    have hor := Format.or_fields (F := binary16) (binary32.sign x.toNat) (show 0 < 2 ^ 5 by decide)
      hhigh
    rwa [Nat.zero_mul, Nat.or_zero] at hor
  have hremValue : rem.toNat = (2 ^ 23 + binary32.fractionField x.toNat) % 2 ^ k := by
    rw [hrem, UInt32.toNat_and, hm, hmaskValue, Nat.and_two_pow_sub_one_eq_mod]
  have hfits : h.toNat + 1 < 2 ^ 16 := by
    rw [hvalue]
    change (binary32.sign x.toNat * 2 ^ 5 + 0) * 2 ^ 10 + _ + 1 < 2 ^ 16
    omega
  have h255 : ¬((x >>> 23) &&& 0xff).toNat = 0xff := by omega
  have h16 : ¬((((x >>> 23) &&& 0xff).toNat : Int) - 127 ≥ 16) := by omega
  have h14 : ¬((((x >>> 23) &&& 0xff).toNat : Int) - 127 ≥ -14) := by omega
  have h24 : (((x >>> 23) &&& 0xff).toNat : Int) - 127 ≥ -24 := by omega
  have hbits : f32ToF16Bits x = (if rem > (1 : UInt32) <<< (UInt32.ofNat k - 1) ∨
      (rem = (1 : UInt32) <<< (UInt32.ofNat k - 1) ∧ h &&& 1 = 1) then (h + 1).toUInt16
      else h.toUInt16) := by
    unfold f32ToF16Bits
    simp only [if_neg h255, if_neg h16, if_neg h14, if_pos h24, hshift, Int.toNat_natCast, ← hh,
      ← hrem]
  rw [← hk]
  refine ⟨h, rem, (1 : UInt32) <<< (UInt32.ofNat k - 1), hvalue, hremValue, hhalfValue, hbits, ?_⟩
  rw [hbits, f32ToF16BitsChecked, hsign]
  simp only [Option.bind_eq_bind, Option.bind_some]
  rw [if_neg h255, hunbiased, Option.bind_some, if_neg h16, if_neg h14, if_pos h24, hshift, hi32,
    Option.bind_some, hasU32, Option.bind_some, hshr, Option.bind_some, hbit, Option.bind_some,
    hmask, Option.bind_some, hbelow, Option.bind_some, hhalf, Option.bind_some, ← hh, ← hrem,
    roundUp_eq hfits]
  simp only [decide_eq_true_eq]

theorem f32ToF16Bits_underflow (h : binary32.exponentField x.toNat < 103) :
    f32ToF16Bits x = ((x >>> 16) &&& 0x8000).toUInt16 ∧
      f32ToF16BitsChecked x = some (f32ToF16Bits x) := by
  have he := exponent32_toNat x
  obtain ⟨hsign, -⟩ := sign32_asU16 x
  have hunbiased : i32 ((((x >>> 23) &&& 0xff).toNat : Int) - 127) =
      some ((((x >>> 23) &&& 0xff).toNat : Int) - 127) := if_pos (by omega)
  have h255 : ¬((x >>> 23) &&& 0xff).toNat = 0xff := by omega
  have h16 : ¬((((x >>> 23) &&& 0xff).toNat : Int) - 127 ≥ 16) := by omega
  have h14 : ¬((((x >>> 23) &&& 0xff).toNat : Int) - 127 ≥ -14) := by omega
  have h24 : ¬((((x >>> 23) &&& 0xff).toNat : Int) - 127 ≥ -24) := by omega
  have hbits : f32ToF16Bits x = ((x >>> 16) &&& 0x8000).toUInt16 := by
    unfold f32ToF16Bits
    simp only [if_neg h255, if_neg h16, if_neg h14, if_neg h24]
  refine ⟨hbits, ?_⟩
  rw [hbits, f32ToF16BitsChecked, hsign]
  simp only [Option.bind_eq_bind, Option.bind_some]
  rw [if_neg h255, hunbiased, Option.bind_some, if_neg h16, if_neg h14, if_neg h24]

theorem f32ToF16BitsChecked_large (h : 142 < binary32.exponentField x.toNat) :
    f32ToF16BitsChecked x = some (f32ToF16Bits x) := by
  have he := exponent32_toNat x
  have helt : binary32.exponentField x.toNat < 2 ^ 8 := binary32.exponentField_lt _
  have hflt : binary32.fractionField x.toNat < 2 ^ 23 := binary32.fractionField_lt _
  obtain ⟨hsign, -⟩ := sign32_asU16 x
  rw [f32ToF16BitsChecked, hsign]
  simp only [Option.bind_eq_bind, Option.bind_some]
  unfold f32ToF16Bits
  by_cases h255 : ((x >>> 23) &&& 0xff).toNat = 0xff
  · obtain ⟨hpayload, -⟩ := asU16_eq (a := (x &&& 0x007fffff) >>> 13) (by
      rw [fraction32_shr]
      omega)
    rw [if_pos h255, hpayload, Option.bind_some]
    simp only [if_pos h255]
  · have hunbiased : i32 ((((x >>> 23) &&& 0xff).toNat : Int) - 127) =
        some ((((x >>> 23) &&& 0xff).toNat : Int) - 127) := if_pos (by omega)
    have h16 : (((x >>> 23) &&& 0xff).toNat : Int) - 127 ≥ 16 := by omega
    rw [if_neg h255, hunbiased, Option.bind_some, if_pos h16]
    simp only [if_neg h255, if_pos h16]

theorem f32ToF16BitsChecked_eq (x : UInt32) :
    f32ToF16BitsChecked x = some (f32ToF16Bits x) := by
  by_cases hlarge : 142 < binary32.exponentField x.toNat
  · exact f32ToF16BitsChecked_large hlarge
  by_cases hnormal : 113 ≤ binary32.exponentField x.toNat
  · obtain ⟨-, -, -, hchecked⟩ := f32ToF16Bits_normal hnormal (by omega)
    exact hchecked
  by_cases hsubnormal : 103 ≤ binary32.exponentField x.toNat
  · obtain ⟨-, -, -, -, -, -, -, hchecked⟩ := f32ToF16Bits_subnormal hsubnormal (by omega)
    exact hchecked
  · exact (f32ToF16Bits_underflow (by omega)).2

/-- What a half gives is narrowed to it without rounding. -/
theorem f32ToF16Bits_f16BitsToF32 {h : UInt16} (hfinite : binary16.Finite h.toNat) :
    f32ToF16Bits (f16BitsToF32 h) = h := by
  obtain ⟨e, f, hkind⟩ := exists_kind hfinite
  obtain ⟨-, hbits⟩ := hkind.gives
  obtain ⟨helt, hflt⟩ := hkind.lt
  have hpack := binary16.pack_fields h.toNat
  have hsign : binary32.sign (f16BitsToF32 h).toNat = binary16.sign h.toNat := by
    rw [hbits, Format.sign_pack _ (by omega) hflt]
  have hexp : binary32.exponentField (f16BitsToF32 h).toNat = e := by
    rw [hbits, Format.exponentField_pack _ (by omega) hflt]
  have hfrac : binary32.fractionField (f16BitsToF32 h).toNat = f := by
    rw [hbits, Format.fractionField_pack _ _ _ hflt]
  rw [← UInt16.toNat_inj]
  cases hkind with
  | zero he hf =>
      obtain ⟨hunder, -⟩ := f32ToF16Bits_underflow (x := f16BitsToF32 h) (by omega)
      rw [hunder, (sign32_asU16 _).2, hsign]
      rw [he, hf, Format.pack, Nat.add_zero, Nat.add_zero, Nat.mul_assoc, ← pow_add] at hpack
      exact hpack
  | @subnormal t he hpos ht hlo hhi =>
      obtain ⟨h', rem, half, hvalue, hrem, hhalf, hround, -⟩ :=
        f32ToF16Bits_subnormal (x := f16BitsToF32 h) (by omega) (by omega)
      have hshift : 126 - (113 - t) = 13 + t := by omega
      rw [hexp, hfrac, Nat.add_sub_cancel' hlo, hshift] at hvalue hrem
      rw [Nat.mul_mod_left] at hrem
      rw [Nat.mul_div_cancel _ (Nat.two_pow_pos _), hsign] at hvalue
      have hdown : ¬(rem > half ∨ (rem = half ∧ h' &&& 1 = 1)) := by
        have hhalfPos : 0 < half.toNat := by
          rw [hhalf]
          exact Nat.two_pow_pos _
        rintro (hgt | ⟨heq, -⟩)
        · rw [gt_iff_lt, UInt32.lt_iff_toNat_lt] at hgt
          omega
        · rw [toNat_eq_iff] at heq
          omega
      rw [he] at hpack
      have hfits := h.toNat_lt
      rw [hround, if_neg hdown, (asU16_eq (by rw [hvalue, hpack]; exact hfits)).2, hvalue, hpack]
  | normal hlo hhi =>
      have hfield : binary16.exponentField h.toNat < 31 := hfinite
      obtain ⟨h', hvalue, hround, -⟩ :=
        f32ToF16Bits_normal (x := f16BitsToF32 h) (by omega) (by omega)
      rw [hexp, hfrac, hsign, Nat.add_sub_cancel, Nat.mul_div_cancel _ (by decide), hpack] at hvalue
      have hcut : ((f16BitsToF32 h &&& 0x007fffff) &&& 0x1fff).toNat = 0 := by
        have hmask : (0x1fff : UInt32).toNat = 2 ^ 13 - 1 := rfl
        rw [UInt32.toNat_and, fraction32_toNat, hfrac, hmask, Nat.and_two_pow_sub_one_eq_mod,
          Nat.mul_mod_left]
      have hhalf : (0x1000 : UInt32).toNat = 4096 := rfl
      have hdown : ¬((f16BitsToF32 h &&& 0x007fffff) &&& 0x1fff > 0x1000 ∨
          ((f16BitsToF32 h &&& 0x007fffff) &&& 0x1fff = 0x1000 ∧ h' &&& 1 = 1)) := by
        rintro (hgt | ⟨heq, -⟩)
        · rw [gt_iff_lt, UInt32.lt_iff_toNat_lt] at hgt
          omega
        · rw [toNat_eq_iff] at heq
          omega
      have hfits := h.toNat_lt
      rw [hround, if_neg hdown, (asU16_eq (by rw [hvalue]; exact hfits)).2, hvalue]

end Singles

section Encoder

/-- A number that half precision has. -/
def Half (v : UInt32) : Prop :=
  ∃ h : UInt16, binary16.Finite h.toNat ∧ binary16.sign h.toNat = binary32.sign v.toNat ∧
    binary32.magnitude v.toNat =
      binary16.magnitude h.toNat * 2 ^ (binary32.unit - binary16.unit)

/-- A number that single precision has. -/
def Single (f : UInt64) : Prop :=
  ∃ v : UInt32, binary32.Finite v.toNat ∧ binary32.sign v.toNat = binary64.sign f.toNat ∧
    binary64.magnitude f.toNat =
      binary32.magnitude v.toNat * 2 ^ (binary64.unit - binary32.unit)

theorem eq_of_fields {F : Format} {a b : Nat} (ha : F.Finite a) (hb : F.Finite b)
    (hsign : F.sign a = F.sign b) (hmagnitude : F.magnitude a = F.magnitude b) : a = b := by
  rw [← Format.ofMagnitude_magnitude ha, hsign, hmagnitude, Format.ofMagnitude_magnitude hb]

theorem eq_f16BitsToF32 {v : UInt32} {h : UInt16} (hv : binary32.Finite v.toNat)
    (hh : binary16.Finite h.toNat) (hsign : binary16.sign h.toNat = binary32.sign v.toNat)
    (hmagnitude : binary32.magnitude v.toNat =
      binary16.magnitude h.toNat * 2 ^ (binary32.unit - binary16.unit)) :
    v = f16BitsToF32 h := by
  obtain ⟨hmag, hsgn, hfinite⟩ := f16BitsToF32_fields hh
  rw [toNat_eq_iff]
  exact eq_of_fields hv hfinite (by rw [hsgn, hsign]) (by rw [hmag, hmagnitude])

/-- Special halves give special singles. -/
theorem finite16_of_finite32 {h : UInt16} (hfinite : binary32.Finite (f16BitsToF32 h).toNat) :
    binary16.Finite h.toNat := by
  have hlt : binary16.exponentField h.toNat < 2 ^ 5 := binary16.exponentField_lt _
  by_contra hspecial
  have he : binary16.exponentField h.toNat = 31 := by
    have hge : ¬binary16.exponentField h.toNat < 31 := hspecial
    omega
  have hflt : binary16.fractionField h.toNat < 2 ^ 10 := binary16.fractionField_lt _
  have hbits := (gives_special he).2
  have hexp : binary32.exponentField (f16BitsToF32 h).toNat = 255 := by
    rw [hbits]
    exact Format.exponentField_pack _ (by decide)
      (show binary16.fractionField h.toNat * 2 ^ 13 < 2 ^ 23 by omega)
  have hfield : binary32.exponentField (f16BitsToF32 h).toNat < 255 := hfinite
  omega

/-- The round trip keeps a number that half precision has, and no other. -/
theorem roundTrip_iff {v : UInt32} (hv : binary32.Finite v.toNat) :
    f16BitsToF32 (f32ToF16Bits v) = v ↔ Half v := by
  constructor
  · intro htrip
    have hfinite : binary16.Finite (f32ToF16Bits v).toNat :=
      finite16_of_finite32 (by rw [htrip]; exact hv)
    obtain ⟨hmag, hsgn, -⟩ := f16BitsToF32_fields hfinite
    rw [htrip] at hmag hsgn
    exact ⟨f32ToF16Bits v, hfinite, hsgn.symm, hmag⟩
  · rintro ⟨h, hh, hsign, hmagnitude⟩
    rw [eq_f16BitsToF32 hv hh hsign hmagnitude, f32ToF16Bits_f16BitsToF32 hh]

theorem Single.widen {f : UInt64} (hf : binary64.Finite f.toNat) (h : Single f) :
    ∃ v : UInt32, binary32.Finite v.toNat ∧ widen v.toNat = f.toNat := by
  obtain ⟨v, hv, hsign, hmagnitude⟩ := h
  obtain ⟨hmag, hsgn, hfinite⟩ := widen_fields hv
  exact ⟨v, hv, eq_of_fields hfinite hf (by rw [hsgn, hsign]) (by rw [hmag, hmagnitude])⟩

theorem roundTrip_of_equal {v : UInt32}
    (h : binary32.equal (f16BitsToF32 (f32ToF16Bits v)).toNat v.toNat = true) :
    f16BitsToF32 (f32ToF16Bits v) = v := by
  rcases Format.equal_cases h with heq | ⟨-, hzero⟩
  · exact toNat_eq_iff.mpr heq
  · have hlt := v.toNat_lt
    obtain ⟨hexponent, hfraction⟩ :
        v.toNat / 2 ^ 23 % 2 ^ 8 = 0 ∧ v.toNat % 2 ^ 23 = 0 := of_decide_eq_true hzero
    have hbits : v.toNat = (0 : UInt32).toNat ∨ v.toNat = (0x80000000 : UInt32).toNat := by
      have h0 : (0 : UInt32).toNat = 0 := rfl
      have h1 : (0x80000000 : UInt32).toNat = 2 ^ 31 := rfl
      omega
    rcases hbits with hbits | hbits
    · rw [UInt32.toNat_inj.mp hbits]
      decide
    · rw [UInt32.toNat_inj.mp hbits]
      decide

theorem equal_self {F : Format} {a : Nat} (h : F.Finite a) : F.equal a a = true := by
  obtain ⟨hnan, -⟩ := (Format.finite_iff F a).mp h
  simp [Format.equal, hnan]

/-- The form of a float that single precision has. -/
theorem encFloat_single {f : UInt64} (hf : binary64.Finite f.toNat) {v : UInt32}
    (hv : binary32.Finite v.toNat) (hwiden : widen v.toNat = f.toNat) :
    (Half v → encFloat f = headBytes 7 25 (f32ToF16Bits v).toNat) ∧
      (¬Half v → encFloat f = headBytes 7 26 v.toNat) := by
  obtain ⟨hnan, hinf⟩ := (Format.finite_iff _ _).mp hf
  have hnarrow : UInt32.ofNat (narrow f.toNat) = v := by
    rw [← hwiden, narrow_widen hv, UInt32.ofNat_toNat]
  have hform : encFloat f =
      if binary32.equal (f16BitsToF32 (f32ToF16Bits v)).toNat v.toNat = true then
        headBytes 7 25 (f32ToF16Bits v).toNat
      else headBytes 7 26 v.toNat := by
    unfold encFloat
    simp only [hnan, hinf, Bool.false_eq_true, if_false, hnarrow]
    rw [if_pos (by rw [hwiden]; exact equal_self hf)]
    rfl
  rw [hform, ← roundTrip_iff hv]
  constructor
  · intro htrip
    rw [if_pos (by rw [htrip]; exact equal_self hv)]
  · intro htrip
    rw [if_neg fun hequal => htrip (roundTrip_of_equal hequal)]

theorem widen_ofNat {v : UInt32} {f : UInt64} (h : UInt64.ofNat (widen v.toNat) = f) :
    widen v.toNat = f.toNat := by
  have hsign := widen_sign v.toNat
  have hslt := sign32_lt v
  have hlt : widen v.toNat < 2 ^ 64 := by
    change widen v.toNat / 2 ^ 63 = _ at hsign
    omega
  rw [← h, UInt64.toNat_ofNat', Nat.mod_eq_of_lt hlt]

/-- No form of two bytes stands for a float that half precision does not have. -/
theorem half_of_floatOf {f : UInt64} (hf : binary64.Finite f.toNat) {v : UInt32}
    (hv : binary32.Finite v.toNat) (hwiden : widen v.toNat = f.toNat) {n : Nat}
    (h : floatOf 25 n = f) : Half v := by
  rw [floatOf, if_pos rfl] at h
  have hbits := widen_ofNat h
  have hfinite : binary32.Finite (f16BitsToF32 (UInt16.ofNat n)).toNat :=
    finite_of_widen (by rw [hbits]; exact hf)
  have hsame : v = f16BitsToF32 (UInt16.ofNat n) := by
    rw [toNat_eq_iff, ← narrow_widen hv, ← narrow_widen hfinite, hwiden, hbits]
  obtain ⟨hmag, hsgn, -⟩ := f16BitsToF32_fields (finite16_of_finite32 hfinite)
  rw [← hsame] at hmag hsgn
  exact ⟨_, finite16_of_finite32 hfinite, hsgn.symm, hmag⟩

/-- Half precision: the round trip of a single keeps it if half precision has it, and that of a
half always, no operation on the way overflows, and the encoder chooses the shortest form of a
float that single precision has, from which the parser reads the same bits. -/
theorem halfFloats_exact :
    (∀ v : UInt32, binary32.Finite v.toNat → (f16BitsToF32 (f32ToF16Bits v) = v ↔ Half v)) ∧
    (∀ h : UInt16, binary16.Finite h.toNat → f32ToF16Bits (f16BitsToF32 h) = h) ∧
    (∀ v, f32ToF16BitsChecked v = some (f32ToF16Bits v)) ∧
    (∀ h, f16BitsToF32Checked h = some (f16BitsToF32 h)) ∧
    ∀ f : UInt64, binary64.Finite f.toNat → Single f →
      (∀ fuel, parse (encFloat f) (fuel + 1) false 0 =
        some (.ok (.f64 f), (encFloat f).length)) ∧
      ∀ ai n, (ai = 25 ∨ ai = 26 ∨ ai = 27) → n < 256 ^ width ai → floatOf ai n = f →
        (encFloat f).length ≤ (headBytes 7 ai n).length := by
  refine ⟨fun v hv => roundTrip_iff hv, fun h hh => f32ToF16Bits_f16BitsToF32 hh,
    f32ToF16BitsChecked_eq, f16BitsToF32Checked_eq, ?_⟩
  intro f hf hsingle
  obtain ⟨hnan, -⟩ := (Format.finite_iff _ _).mp hf
  constructor
  · intro fuel
    obtain ⟨ai, n, hai, hn, henc, hfloat⟩ := encFloat_eq f
    have hwidth : width ai ≠ 0 := by rcases hai with rfl | rfl | rfl <;> decide
    have hat : At (headBytes 7 ai n) 0 (headBytes 7 ai n) := ⟨[], by simp⟩
    have hdec := decodes_primitive (head_of_at hat (by omega) (.inr ⟨hwidth, hn⟩)) hai
    rw [hfloat, canonicalFloat, hnan, if_neg (by decide), Nat.zero_add] at hdec
    rw [henc]
    exact hdec.value fuel
  · intro ai n hai hn hfloat
    obtain ⟨v, hv, hwiden⟩ := hsingle.widen hf
    obtain ⟨hshort, hlong⟩ := encFloat_single hf hv hwiden
    by_cases hhalf : Half v
    · rw [hshort hhalf, headBytes_length, headBytes_length]
      rcases hai with rfl | rfl | rfl <;> decide
    · rw [hlong hhalf, headBytes_length, headBytes_length]
      rcases hai with rfl | rfl | rfl
      · exact absurd (half_of_floatOf hf hv hwiden hfloat) hhalf
      · decide
      · decide

/-- One and a half. -/
theorem halfFloats_exact_one_and_a_half :
    parse (encFloat 0x3ff8000000000000) 1 false 0 = some (.ok (.f64 0x3ff8000000000000),
      (encFloat 0x3ff8000000000000).length) :=
  (halfFloats_exact.2.2.2.2 0x3ff8000000000000 (by decide)
    ⟨0x3fc00000, by decide, by decide, by decide +kernel⟩).1 0

end Encoder

end DirtybirdMiner.Args.HalfFloats
