import Mathlib.Algebra.Group.Nat.Defs
import Mathlib.Tactic.Common

/-!
Binary floating point formats on bit patterns.  A finite number is a sign and a
magnitude, counted in units of the smallest positive number of the format, so
that conversions and roundings are arithmetic on natural numbers.
-/

namespace DirtybirdMiner.Lib.Floats

/-- The widths of the fraction and of the exponent field. -/
structure Format where
  fraction : Nat
  exponent : Nat

def binary16 : Format := { fraction := 10, exponent := 5 }

def binary32 : Format := { fraction := 23, exponent := 8 }

def binary64 : Format := { fraction := 52, exponent := 11 }

namespace Format

variable (F : Format)

def sign (bits : Nat) : Nat := bits / 2 ^ (F.fraction + F.exponent)

def exponentField (bits : Nat) : Nat := bits / 2 ^ F.fraction % 2 ^ F.exponent

def fractionField (bits : Nat) : Nat := bits % 2 ^ F.fraction

def isNan (bits : Nat) : Bool :=
  F.exponentField bits = 2 ^ F.exponent - 1 ∧ F.fractionField bits ≠ 0

def isInfinite (bits : Nat) : Bool :=
  F.exponentField bits = 2 ^ F.exponent - 1 ∧ F.fractionField bits = 0

def isZero (bits : Nat) : Bool := F.exponentField bits = 0 ∧ F.fractionField bits = 0

/-- The IEEE comparison `==`: no NaN is equal to anything, the two zeros are
equal to each other, and every other number has one bit pattern. -/
def equal (a b : Nat) : Bool :=
  !F.isNan a && !F.isNan b && (a = b || (F.isZero a && F.isZero b))

theorem equal_cases {F : Format} {a b : Nat} (h : F.equal a b = true) :
    a = b ∨ (F.isZero a = true ∧ F.isZero b = true) := by
  simp only [equal, Bool.and_eq_true, Bool.or_eq_true, decide_eq_true_eq] at h
  exact h.2

/-- The smallest positive number is `2 ^ -unit`. -/
def unit : Nat := 2 ^ (F.exponent - 1) - 2 + F.fraction

/-- The absolute value of a finite number, in units. -/
def magnitude (bits : Nat) : Nat :=
  if F.exponentField bits = 0 then F.fractionField bits
  else (2 ^ F.fraction + F.fractionField bits) * 2 ^ (F.exponentField bits - 1)

/-- The bit pattern of a sign and the two fields. -/
def pack (sign exponentField fractionField : Nat) : Nat :=
  (sign * 2 ^ F.exponent + exponentField) * 2 ^ F.fraction + fractionField

/-- The bit pattern of a magnitude that the format has, infinity if it is too
large. -/
def ofMagnitude (sign m : Nat) : Nat :=
  if m < 2 ^ F.fraction then F.pack sign 0 m
  else
    let k := m.log2 - F.fraction
    if k + 1 < 2 ^ F.exponent - 1 then F.pack sign (k + 1) (m / 2 ^ k - 2 ^ F.fraction)
    else F.pack sign (2 ^ F.exponent - 1) 0

section Fields

variable {F : Format} {s e f m bits : Nat}

theorem pack_fields (F : Format) (bits : Nat) :
    F.pack (F.sign bits) (F.exponentField bits) (F.fractionField bits) = bits := by
  have hfields := Nat.div_add_mod (bits / 2 ^ F.fraction) (2 ^ F.exponent)
  have hbits := Nat.div_add_mod bits (2 ^ F.fraction)
  rw [Nat.div_div_eq_div_mul, ← Nat.pow_add, Nat.mul_comm] at hfields
  rw [Nat.mul_comm] at hbits
  rw [pack, sign, exponentField, fractionField, hfields, hbits]

theorem fractionField_pack (F : Format) (s e : Nat) (hf : f < 2 ^ F.fraction) :
    F.fractionField (F.pack s e f) = f := by
  rw [fractionField, pack, Nat.mul_comm, Nat.mul_add_mod, Nat.mod_eq_of_lt hf]

theorem pack_div (F : Format) (s e : Nat) (hf : f < 2 ^ F.fraction) :
    F.pack s e f / 2 ^ F.fraction = s * 2 ^ F.exponent + e := by
  rw [pack, Nat.mul_comm, Nat.mul_add_div (Nat.two_pow_pos _), Nat.div_eq_of_lt hf, Nat.add_zero]

theorem exponentField_pack (s : Nat) (he : e < 2 ^ F.exponent) (hf : f < 2 ^ F.fraction) :
    F.exponentField (F.pack s e f) = e := by
  rw [exponentField, pack_div F s e hf, Nat.mul_comm, Nat.mul_add_mod, Nat.mod_eq_of_lt he]

theorem sign_pack (s : Nat) (he : e < 2 ^ F.exponent) (hf : f < 2 ^ F.fraction) :
    F.sign (F.pack s e f) = s := by
  rw [sign, Nat.pow_add, ← Nat.div_div_eq_div_mul, pack_div F s e hf, Nat.mul_comm,
    Nat.mul_add_div (Nat.two_pow_pos _), Nat.div_eq_of_lt he, Nat.add_zero]

/-- The fields stand in bits of their own. -/
theorem or_fields (s : Nat) (he : e < 2 ^ F.exponent) (hf : f < 2 ^ F.fraction) :
    s * 2 ^ (F.fraction + F.exponent) ||| e * 2 ^ F.fraction ||| f = F.pack s e f := by
  have hlow : e * 2 ^ F.fraction < 2 ^ (F.fraction + F.exponent) := by
    rw [Nat.pow_add, Nat.mul_comm]
    exact Nat.mul_lt_mul_of_pos_left he (Nat.two_pow_pos _)
  have hhigh : s * 2 ^ (F.fraction + F.exponent) + e * 2 ^ F.fraction =
      2 ^ F.fraction * (s * 2 ^ F.exponent + e) := by
    rw [Nat.pow_add, Nat.mul_add, Nat.mul_left_comm, Nat.mul_comm e]
  rw [Nat.mul_comm s, ← Nat.two_pow_add_eq_or_of_lt hlow, Nat.mul_comm _ s, hhigh,
    ← Nat.two_pow_add_eq_or_of_lt hf, pack, Nat.mul_comm]

/-- Neither infinite nor a NaN. -/
def Finite (F : Format) (bits : Nat) : Prop := F.exponentField bits < 2 ^ F.exponent - 1

instance (F : Format) (bits : Nat) : Decidable (F.Finite bits) := Nat.decLt _ _

theorem exponentField_lt (F : Format) (bits : Nat) : F.exponentField bits < 2 ^ F.exponent :=
  Nat.mod_lt _ (Nat.two_pow_pos _)

theorem fractionField_lt (F : Format) (bits : Nat) : F.fractionField bits < 2 ^ F.fraction :=
  Nat.mod_lt _ (Nat.two_pow_pos _)

theorem finite_iff (F : Format) (bits : Nat) :
    F.Finite bits ↔ F.isNan bits = false ∧ F.isInfinite bits = false := by
  have hlt := F.exponentField_lt bits
  unfold Finite isNan isInfinite
  rw [decide_eq_false_iff_not, decide_eq_false_iff_not]
  omega

/-- A magnitude with few enough significant bits, that is not too large. -/
def Holds (F : Format) (m : Nat) : Prop :=
  2 ^ (m.log2 - F.fraction) ∣ m ∧ m.log2 - F.fraction + 1 < 2 ^ F.exponent - 1

theorem log2_mul_pow (hm : m ≠ 0) (k : Nat) : (m * 2 ^ k).log2 = m.log2 + k := by
  have hlo := Nat.log2_self_le hm
  have hhi : m < 2 ^ (m.log2 + 1) := Nat.lt_log2_self
  rw [Nat.log2_eq_iff (Nat.mul_ne_zero hm (Nat.ne_of_gt (Nat.two_pow_pos k))), Nat.pow_add,
    Nat.add_right_comm, Nat.pow_add 2 (m.log2 + 1)]
  exact ⟨Nat.mul_le_mul_right _ hlo, Nat.mul_lt_mul_of_pos_right hhi (Nat.two_pow_pos k)⟩

/-- A subnormal number has no more significant bits than the fraction. -/
theorem log2_sub_of_lt {k : Nat} (hm : m < 2 ^ k) : m.log2 - k = 0 := by
  by_cases hzero : m = 0
  · rw [hzero, Nat.log2_zero, Nat.zero_sub]
  · have hlt := (Nat.log2_lt hzero).mpr hm
    omega

theorem log2_normal (hf : f < 2 ^ F.fraction) (k : Nat) :
    ((2 ^ F.fraction + f) * 2 ^ k).log2 = F.fraction + k := by
  have hpos := Nat.two_pow_pos F.fraction
  have hlog : (2 ^ F.fraction + f).log2 = F.fraction := by
    rw [Nat.log2_eq_iff (by omega), Nat.pow_succ]
    omega
  rw [log2_mul_pow (by omega), hlog]

theorem magnitude_of_zero (h : F.exponentField bits = 0) :
    F.magnitude bits = F.fractionField bits := if_pos h

theorem magnitude_of_ne_zero (h : F.exponentField bits ≠ 0) :
    F.magnitude bits =
      (2 ^ F.fraction + F.fractionField bits) * 2 ^ (F.exponentField bits - 1) := if_neg h

/-- The magnitudes of finite numbers are those that the format holds. -/
theorem holds_magnitude (hF : 2 ≤ F.exponent) (h : F.Finite bits) : F.Holds (F.magnitude bits) := by
  have hfour : 2 ^ 2 ≤ 2 ^ F.exponent := Nat.pow_le_pow_right (by decide) hF
  by_cases hzero : F.exponentField bits = 0
  · rw [magnitude_of_zero hzero, Holds, log2_sub_of_lt (F.fractionField_lt bits)]
    exact ⟨Nat.one_dvd _, by omega⟩
  · rw [magnitude_of_ne_zero hzero, Holds, log2_normal (F.fractionField_lt bits),
      Nat.add_sub_cancel_left]
    refine ⟨Nat.dvd_mul_left _ _, ?_⟩
    unfold Finite at h
    omega

/-- Finite numbers are determined by their signs and magnitudes. -/
theorem ofMagnitude_magnitude (h : F.Finite bits) :
    F.ofMagnitude (F.sign bits) (F.magnitude bits) = bits := by
  have hfields := F.pack_fields bits
  have hfrac := F.fractionField_lt bits
  by_cases hzero : F.exponentField bits = 0
  · rw [magnitude_of_zero hzero, ofMagnitude, if_pos hfrac, ← hzero, hfields]
  · have hpos := Nat.two_pow_pos (F.exponentField bits - 1)
    have hge : 2 ^ F.fraction ≤
        (2 ^ F.fraction + F.fractionField bits) * 2 ^ (F.exponentField bits - 1) :=
      Nat.le_trans (Nat.le_add_right _ _) (Nat.le_mul_of_pos_right _ hpos)
    rw [magnitude_of_ne_zero hzero, ofMagnitude, if_neg (by omega)]
    simp only [log2_normal hfrac, Nat.add_sub_cancel_left, Nat.mul_div_cancel _ hpos]
    unfold Finite at h
    rw [if_pos (by omega), Nat.sub_add_cancel (by omega), hfields]

/-- The fields of the number with a magnitude that the format holds. -/
theorem fields_ofMagnitude (hF : 2 ≤ F.exponent) (s : Nat) (h : F.Holds m) :
    F.magnitude (F.ofMagnitude s m) = m ∧ F.sign (F.ofMagnitude s m) = s ∧
      F.Finite (F.ofMagnitude s m) := by
  obtain ⟨hdvd, hrange⟩ := h
  have hfour : 2 ^ 2 ≤ 2 ^ F.exponent := Nat.pow_le_pow_right (by decide) hF
  unfold ofMagnitude
  by_cases hsmall : m < 2 ^ F.fraction
  · rw [if_pos hsmall]
    have hexp : F.exponentField (F.pack s 0 m) = 0 := exponentField_pack s (by omega) hsmall
    refine ⟨?_, sign_pack s (by omega) hsmall, ?_⟩
    · rw [magnitude_of_zero hexp, fractionField_pack F s 0 hsmall]
    · unfold Finite
      omega
  · rw [if_neg hsmall]
    dsimp only
    rw [if_pos hrange]
    have hne : m ≠ 0 := by
      have hpos := Nat.two_pow_pos F.fraction
      omega
    have hlog : F.fraction ≤ m.log2 := (Nat.le_log2 hne).mpr (by omega)
    have hlo := Nat.log2_self_le hne
    have hhi : m < 2 ^ (m.log2 + 1) := Nat.lt_log2_self
    obtain ⟨q, hq⟩ := hdvd
    obtain ⟨k, hk⟩ : ∃ k, m.log2 = F.fraction + k := ⟨m.log2 - F.fraction, by omega⟩
    rw [hk, Nat.add_sub_cancel_left] at hq hrange
    rw [hk, Nat.pow_add, hq, Nat.mul_comm] at hlo
    rw [hk, Nat.add_right_comm, Nat.pow_add, hq, Nat.mul_comm, Nat.pow_succ] at hhi
    have hqlo := Nat.le_of_mul_le_mul_left hlo (Nat.two_pow_pos k)
    have hqhi := Nat.lt_of_mul_lt_mul_right hhi
    have hdiv : m / 2 ^ k = q := by rw [hq, Nat.mul_div_cancel_left _ (Nat.two_pow_pos k)]
    rw [hk, Nat.add_sub_cancel_left, hdiv]
    have hfrac : q - 2 ^ F.fraction < 2 ^ F.fraction := by omega
    have hexp : F.exponentField (F.pack s (k + 1) (q - 2 ^ F.fraction)) = k + 1 :=
      exponentField_pack s (by omega) hfrac
    refine ⟨?_, sign_pack s (by omega) hfrac, ?_⟩
    · rw [magnitude_of_ne_zero (by omega), hexp, fractionField_pack F s _ hfrac,
        Nat.add_sub_cancel' hqlo, Nat.add_sub_cancel, hq, Nat.mul_comm]
    · unfold Finite
      omega

/-- A magnitude is held in other units by a format with as many significant bits. -/
theorem Holds.mul {G : Format} (h : F.Holds m) (d : Nat) (hfraction : F.fraction ≤ G.fraction)
    (hrange : m.log2 + d - G.fraction + 1 < 2 ^ G.exponent - 1) : G.Holds (m * 2 ^ d) := by
  by_cases hzero : m = 0
  · subst hzero
    rw [Nat.log2_zero] at hrange
    rw [Holds, Nat.zero_mul, Nat.log2_zero]
    exact ⟨Nat.dvd_zero _, by omega⟩
  · rw [Holds, log2_mul_pow hzero]
    refine ⟨?_, hrange⟩
    exact Nat.dvd_trans (Nat.pow_dvd_pow 2 (show m.log2 + d - G.fraction ≤
      m.log2 - F.fraction + d by omega)) (Nat.pow_add 2 _ d ▸ Nat.mul_dvd_mul_right h.1 _)

end Fields

end Format

/-- `n / 2 ^ k`, rounded to the nearest integer, to the even one of two. -/
def roundEven (n k : Nat) : Nat :=
  let q := n / 2 ^ k
  let r := n % 2 ^ k
  if 2 * r > 2 ^ k ∨ (2 * r = 2 ^ k ∧ q % 2 = 1) then q + 1 else q

/-- A magnitude with as many significant bits as the format keeps. -/
def Format.round (F : Format) (n : Nat) : Nat :=
  let k := n.log2 - F.fraction
  roundEven n k * 2 ^ k

/-- `f32 as f64`. -/
def widen (bits : Nat) : Nat :=
  let sign := binary32.sign bits
  if binary32.isNan bits then
    -- the payload is kept and the NaN made quiet
    binary64.pack sign 2047 ((binary32.fractionField bits * 2 ^ 29) ||| 2 ^ 51)
  else if binary32.isInfinite bits then binary64.pack sign 2047 0
  else binary64.ofMagnitude sign (binary32.magnitude bits * 2 ^ (binary64.unit - binary32.unit))

/-- `f64 as f32`, to the nearest number. -/
def narrow (bits : Nat) : Nat :=
  let sign := binary64.sign bits
  if binary64.isNan bits then
    binary32.pack sign 255 ((binary64.fractionField bits / 2 ^ 29) ||| 2 ^ 22)
  else if binary64.isInfinite bits then binary32.pack sign 255 0
  else
    let n := binary64.magnitude bits
    let d := binary64.unit - binary32.unit
    let k := max d (n.log2 - binary32.fraction)
    binary32.ofMagnitude sign (roundEven n k * 2 ^ (k - d))

section Conversions

open Format

variable {bits : Nat}

theorem roundEven_of_dvd {n k : Nat} (h : 2 ^ k ∣ n) : roundEven n k = n / 2 ^ k := by
  have hpos := Nat.two_pow_pos k
  unfold roundEven
  dsimp only
  rw [Nat.mod_eq_zero_of_dvd h, if_neg (by omega)]

theorem binary32_log2_lt {m : Nat} (h : binary32.Holds m) : m.log2 < 277 := by
  have hrange : m.log2 - 23 + 1 < 255 := h.2
  omega

theorem unit_sub : binary64.unit - binary32.unit = 925 := by decide

/-- Widening keeps the sign and the value. -/
theorem widen_fields (h : binary32.Finite bits) :
    binary64.magnitude (widen bits) =
        binary32.magnitude bits * 2 ^ (binary64.unit - binary32.unit) ∧
      binary64.sign (widen bits) = binary32.sign bits ∧ binary64.Finite (widen bits) := by
  have hholds := holds_magnitude (by decide) h
  have hlog := binary32_log2_lt hholds
  have hunit := unit_sub
  obtain ⟨hnan, hinf⟩ := (finite_iff _ _).mp h
  unfold widen
  simp only [hnan, hinf, Bool.false_eq_true, if_false]
  generalize binary64.unit - binary32.unit = d at hunit ⊢
  refine fields_ofMagnitude (by decide) _ (hholds.mul d (by decide) ?_)
  have hrange : (binary32.magnitude bits).log2 + d - 52 + 1 < 2047 := by omega
  exact hrange

theorem widen_special (h : ¬binary32.Finite bits) :
    ∃ f < 2 ^ binary64.fraction, widen bits = binary64.pack (binary32.sign bits) 2047 f := by
  have hfraction := binary32.fractionField_lt bits
  rw [finite_iff] at h
  by_cases hnan : binary32.isNan bits = true
  · refine ⟨(binary32.fractionField bits * 2 ^ 29) ||| 2 ^ 51, ?_, by rw [widen, if_pos hnan]⟩
    have hshift : binary32.fractionField bits * 2 ^ 29 < 2 ^ 23 * 2 ^ 29 :=
      Nat.mul_lt_mul_of_pos_right hfraction (Nat.two_pow_pos 29)
    exact Nat.or_lt_two_pow (Nat.lt_of_lt_of_le hshift (by decide)) (by decide)
  · have hinf : binary32.isInfinite bits = true := by
      rw [Bool.not_eq_true] at hnan
      rw [← Bool.not_eq_false]
      exact fun hinf => h ⟨hnan, hinf⟩
    exact ⟨0, by decide, by rw [widen, if_neg hnan, if_pos hinf]⟩

theorem widen_sign (bits : Nat) : binary64.sign (widen bits) = binary32.sign bits := by
  by_cases h : binary32.Finite bits
  · exact (widen_fields h).2.1
  · obtain ⟨f, hf, heq⟩ := widen_special h
    rw [heq, sign_pack _ (by decide) hf]

/-- Only finite numbers are widened to finite ones. -/
theorem finite_of_widen (h : binary64.Finite (widen bits)) : binary32.Finite bits := by
  by_contra hspecial
  obtain ⟨f, hf, heq⟩ := widen_special hspecial
  rw [Format.Finite, heq, exponentField_pack _ (by decide) hf] at h
  exact absurd h (by decide)

/-- What was widened is narrowed without rounding. -/
theorem narrow_widen (h : binary32.Finite bits) : narrow (widen bits) = bits := by
  obtain ⟨hmagnitude, hsign, hfinite⟩ := widen_fields h
  obtain ⟨hnan, hinf⟩ := (finite_iff _ _).mp hfinite
  have hholds := holds_magnitude (by decide) h
  have hunit := unit_sub
  unfold narrow
  simp only [hnan, hinf, Bool.false_eq_true, if_false]
  rw [hmagnitude, hsign]
  generalize binary64.unit - binary32.unit = d at hunit ⊢
  have hround : ∀ k, k = max d ((binary32.magnitude bits * 2 ^ d).log2 - binary32.fraction) →
      roundEven (binary32.magnitude bits * 2 ^ d) k * 2 ^ (k - d) = binary32.magnitude bits := by
    intro k hk
    generalize binary32.magnitude bits = m at hholds hk
    have hle : d ≤ k := by omega
    have hdvd : 2 ^ (k - d) ∣ m := by
      by_cases hzero : m = 0
      · rw [hzero]
        exact Nat.dvd_zero _
      · rw [log2_mul_pow hzero] at hk
        exact Nat.dvd_trans (Nat.pow_dvd_pow 2 (show k - d ≤ m.log2 - binary32.fraction by omega))
          hholds.1
    obtain ⟨q, hq⟩ := hdvd
    have hn : m * 2 ^ d = 2 ^ k * q := by
      rw [hq, Nat.mul_right_comm, ← Nat.pow_add, Nat.sub_add_cancel hle]
    rw [roundEven_of_dvd ⟨q, hn⟩, hn, Nat.mul_div_cancel_left _ (Nat.two_pow_pos k), hq,
      Nat.mul_comm]
  rw [hround _ rfl, ofMagnitude_magnitude h]

end Conversions

end DirtybirdMiner.Lib.Floats
