import Mathlib.Tactic.Common

/-!
UTF-8: a byte string is valid when an automaton that reads it byte by byte ends
between two characters.  The automaton knows the range of the next byte and how
many continuation bytes follow it; overlong forms, surrogates and numbers past
the last character are ruled out by the range of a second byte.
-/

namespace DirtybirdMiner.Lib.Utf8

inductive Position where
  /-- Between two characters. -/
  | boundary
  /-- The next byte lies in the range, and as many continuation bytes follow it. -/
  | inside (lo hi : UInt8) (more : Nat)
deriving DecidableEq

/-- The position behind the first byte of a character. -/
def start (b : UInt8) : Option Position :=
  if b < 0x80 then some .boundary
  else if b < 0xc2 then none
  else if b ≤ 0xdf then some (.inside 0x80 0xbf 0)
  else if b = 0xe0 then some (.inside 0xa0 0xbf 1)
  else if b = 0xed then some (.inside 0x80 0x9f 1)
  else if b ≤ 0xef then some (.inside 0x80 0xbf 1)
  else if b = 0xf0 then some (.inside 0x90 0xbf 2)
  else if b ≤ 0xf3 then some (.inside 0x80 0xbf 2)
  else if b = 0xf4 then some (.inside 0x80 0x8f 2)
  else none

def step : Position → UInt8 → Option Position
  | .boundary, b => start b
  | .inside lo hi more, b =>
      if lo ≤ b ∧ b ≤ hi then
        match more with
        | 0 => some .boundary
        | more + 1 => some (.inside 0x80 0xbf more)
      else none

def walk : Position → List UInt8 → Option Position
  | q, [] => some q
  | q, b :: bytes =>
      match step q b with
      | none => none
      | some q => walk q bytes

def valid (bytes : List UInt8) : Bool := walk .boundary bytes = some .boundary

/-- A string: bytes that are valid UTF-8. -/
structure Text where
  bytes : List UInt8
  isValid : valid bytes = true
deriving DecidableEq

theorem Text.ext {s t : Text} (h : s.bytes = t.bytes) : s = t := by
  cases s
  cases t
  simp_all

/-- `str::from_utf8`. -/
def fromUtf8 (bytes : List UInt8) : Option Text :=
  if h : valid bytes then some ⟨bytes, h⟩ else none

theorem fromUtf8_bytes (s : Text) : fromUtf8 s.bytes = some s := by
  simp [fromUtf8, s.isValid]

theorem fromUtf8_eq_some {bytes : List UInt8} {s : Text} (h : fromUtf8 bytes = some s) :
    s.bytes = bytes := by
  unfold fromUtf8 at h
  split at h
  · cases h
    rfl
  · cases h

theorem walk_append (q : Position) (s t : List UInt8) :
    walk q (s ++ t) = (walk q s).bind fun q => walk q t := by
  induction s generalizing q with
  | nil => rfl
  | cons b s ih =>
      rw [List.cons_append, walk, walk]
      cases step q b with
      | none => rfl
      | some q => exact ih q

theorem valid_nil : valid [] := rfl

theorem valid_append {s t : List UInt8} (hs : valid s) (ht : valid t) : valid (s ++ t) := by
  simp only [valid, decide_eq_true_eq] at hs ht ⊢
  rw [walk_append, hs]
  exact ht

theorem step_start {b : UInt8} (hb : b < 0x80) : step .boundary b = some .boundary := by
  simp [step, start, hb]

theorem valid_singleton {b : UInt8} (hb : b < 0x80) : valid [b] := by
  simp [valid, walk, step_start hb]

/-- The ranges of the bytes to come lie in the upper half. -/
def Position.High : Position → Prop
  | boundary => True
  | inside lo _ _ => 0x80 ≤ lo

theorem step_high {q q' : Position} {b : UInt8} (hq : q.High) (h : step q b = some q') :
    q'.High := by
  cases q with
  | boundary =>
      simp only [step, start] at h
      split_ifs at h <;> cases h <;> simp [Position.High]
  | inside lo hi more =>
      simp only [step] at h
      split_ifs at h
      cases more with
      | zero =>
          cases h
          trivial
      | succ more =>
          cases h
          exact UInt8.le_refl _

theorem walk_high {bytes : List UInt8} {q q' : Position} (hq : q.High)
    (h : walk q bytes = some q') : q'.High := by
  induction bytes generalizing q with
  | nil =>
      cases h
      exact hq
  | cons b bytes ih =>
      rw [walk] at h
      split at h
      · cases h
      · rename_i hstep
        exact ih (step_high hq hstep) h

/-- An ASCII byte only stands between two characters. -/
theorem eq_boundary_of_step {q q' : Position} {b : UInt8} (hq : q.High) (hb : b < 0x80)
    (h : step q b = some q') : q = .boundary := by
  cases q with
  | boundary => rfl
  | inside lo hi more =>
      simp only [step] at h
      split_ifs at h with hrange
      exact absurd (UInt8.lt_of_lt_of_le hb (UInt8.le_trans hq hrange.1)) (UInt8.lt_irrefl b)

/-- What stands before an ASCII byte at the end is a string. -/
theorem valid_of_concat {s : List UInt8} {b : UInt8} (hb : b < 0x80) (h : valid (s ++ [b])) :
    valid s := by
  simp only [valid, decide_eq_true_eq] at h ⊢
  rw [walk_append] at h
  cases hs : walk .boundary s with
  | none =>
      rw [hs] at h
      cases h
  | some q =>
      rw [hs, Option.bind_some, walk] at h
      split at h
      · cases h
      · rename_i q' hstep
        rw [eq_boundary_of_step (walk_high (q := .boundary) trivial hs) hb hstep]

end DirtybirdMiner.Lib.Utf8
