import Mathlib.Data.List.Lex
import Mathlib.Order.Compare
import DirtybirdMiner.Lib.Bytes

/-!
Three-way comparison of lists in lexicographic order, taken apart at a position
and through zero-padded windows of a fixed width.
-/

namespace DirtybirdMiner.Lib.LexCompare

open DirtybirdMiner.Lib.Bytes

section Comparing

variable {α : Type} [LinearOrder α]

def lexCmp : List α → List α → Ordering
  | [], [] => .eq
  | [], _ :: _ => .lt
  | _ :: _, [] => .gt
  | a :: s, b :: t => (cmp a b).then (lexCmp s t)

theorem lexCmp_nil : lexCmp ([] : List α) [] = .eq := rfl

theorem lexCmp_nil_cons (b : α) (t : List α) : lexCmp [] (b :: t) = .lt := rfl

theorem lexCmp_cons_nil (a : α) (s : List α) : lexCmp (a :: s) [] = .gt := rfl

theorem lexCmp_cons (a b : α) (s t : List α) :
    lexCmp (a :: s) (b :: t) = (cmp a b).then (lexCmp s t) := rfl

@[simp] theorem lexCmp_eq_lt_iff (s t : List α) : lexCmp s t = .lt ↔ s < t := by
  induction s generalizing t with
  | nil => cases t <;> simp [lexCmp_nil, lexCmp_nil_cons]
  | cons a s ih =>
      cases t with
      | nil => simp [lexCmp_cons_nil]
      | cons b t =>
          rw [lexCmp_cons, Ordering.then_eq_lt, cmp_eq_lt_iff, cmp_eq_eq_iff, ih, List.cons_lt_cons_iff]

@[simp] theorem lexCmp_eq_eq_iff (s t : List α) : lexCmp s t = .eq ↔ s = t := by
  induction s generalizing t with
  | nil => cases t <;> simp [lexCmp_nil, lexCmp_nil_cons]
  | cons a s ih =>
      cases t with
      | nil => simp [lexCmp_cons_nil]
      | cons b t => rw [lexCmp_cons, Ordering.then_eq_eq, cmp_eq_eq_iff, ih, List.cons.injEq]

@[simp] theorem lexCmp_eq_gt_iff (s t : List α) : lexCmp s t = .gt ↔ t < s := by
  rcases lt_trichotomy s t with h | h | h
  · simp [(lexCmp_eq_lt_iff s t).mpr h, h.le]
  · simp [h, (lexCmp_eq_eq_iff t t).mpr rfl]
  · refine ⟨fun _ => h, fun _ => ?_⟩
    cases hc : lexCmp s t with
    | lt => exact absurd ((lexCmp_eq_lt_iff s t).mp hc) (lt_asymm h)
    | eq => exact absurd ((lexCmp_eq_eq_iff s t).mp hc) h.ne'
    | gt => rfl

@[simp] theorem lexCmp_self (s : List α) : lexCmp s s = .eq := (lexCmp_eq_eq_iff s s).mpr rfl

theorem lexCmp_append {s s' : List α} (t t' : List α) (h : s.length = s'.length) :
    lexCmp (s ++ t) (s' ++ t') = (lexCmp s s').then (lexCmp t t') := by
  induction s generalizing s' with
  | nil =>
      obtain rfl : s' = [] := by simpa using h.symm
      rfl
  | cons a s ih =>
      cases s' with
      | nil => simp at h
      | cons b s' =>
          rw [List.cons_append, List.cons_append, lexCmp_cons, ih (by simpa using h), lexCmp_cons,
            Ordering.then_assoc]

theorem cmp_nat (a b : Nat) : cmp a b = if a < b then .lt else if b < a then .gt else .eq := rfl

theorem cmp_succ (a b : Nat) : cmp (a + 1) (b + 1) = cmp a b := by
  simp [↓cmp_nat]

/-- The shorter list comes first where one is a prefix of the other. -/
theorem lexCmp_eq_then_length (s t : List α) :
    lexCmp s t = (lexCmp (s.take (min s.length t.length)) (t.take (min s.length t.length))).then
      (cmp s.length t.length) := by
  induction s generalizing t with
  | nil => cases t <;> simp [lexCmp_nil_cons, ↓cmp_nat]
  | cons a s ih =>
      cases t with
      | nil => simp [lexCmp_cons_nil, ↓cmp_nat]
      | cons b t =>
          rw [List.length_cons, List.length_cons, Nat.add_min_add_right, List.take_succ_cons,
            List.take_succ_cons, lexCmp_cons, lexCmp_cons, ih t, cmp_succ, Ordering.then_assoc]

/-- Lists that agree on a window compare as what follows it. -/
theorem lexCmp_drop_of_take_eq {k : Nat} {s t : List α} (h : s.take k = t.take k) :
    lexCmp s t = lexCmp (s.drop k) (t.drop k) := by
  have hs := List.take_append_drop k s
  have ht := List.take_append_drop k t
  conv_lhs => rw [← hs, ← ht]
  rw [lexCmp_append _ _ (by rw [h]), h, lexCmp_self]
  rfl

end Comparing

section Windows

/-- The first `k` entries, zeros past the end. -/
def pad (k : Nat) (s : List Nat) : List Nat := (s ++ List.replicate k 0).take k

@[simp] theorem pad_zero (s : List Nat) : pad 0 s = [] := by simp [pad]

@[simp] theorem pad_succ_cons (k a : Nat) (s : List Nat) : pad (k + 1) (a :: s) = a :: pad k s := by
  rw [pad, List.cons_append, List.take_succ_cons, pad, List.replicate_succ', ← List.append_assoc,
    List.take_append_of_le_length (by simp)]

@[simp] theorem pad_succ_nil (k : Nat) : pad (k + 1) [] = 0 :: pad k [] := by
  simp [pad, List.replicate_succ]

@[simp] theorem pad_length (k : Nat) (s : List Nat) : (pad k s).length = k := by
  simp [pad]

theorem pad_of_le {k : Nat} {s : List Nat} (h : k ≤ s.length) : pad k s = s.take k := by
  rw [pad, List.take_append_of_le_length h]

/-- Zeros past the end never put a list behind a longer one. -/
theorem lt_of_pad_lt {k : Nat} {s t : List Nat} (h : pad k s < pad k t) : s < t := by
  induction k generalizing s t with
  | zero =>
      rw [pad_zero, pad_zero] at h
      exact absurd h (lt_irrefl _)
  | succ k ih =>
      cases s with
      | nil =>
          cases t with
          | nil => exact absurd h (lt_irrefl _)
          | cons b t => exact List.nil_lt_cons b t
      | cons a s =>
          cases t with
          | nil =>
              rw [pad_succ_cons, pad_succ_nil, List.cons_lt_cons_iff] at h
              rcases h with h | ⟨-, h⟩
              · exact absurd h (Nat.not_lt_zero a)
              · exact absurd (ih h) (List.not_lt_nil s)
          | cons b t =>
              rw [pad_succ_cons, pad_succ_cons, List.cons_lt_cons_iff] at h
              rw [List.cons_lt_cons_iff]
              exact h.imp_right fun h => ⟨h.1, ih h.2⟩

/-- Lists with the same window, one of which ends in it, compare by length. -/
theorem lexCmp_of_pad_eq {k : Nat} {s t : List Nat} (h : pad k s = pad k t)
    (hshort : min s.length t.length ≤ k) : lexCmp s t = cmp s.length t.length := by
  induction k generalizing s t with
  | zero => cases s <;> cases t <;>
      simp [lexCmp_nil_cons, lexCmp_cons_nil, ↓cmp_nat] at hshort ⊢
  | succ k ih =>
      cases s with
      | nil => cases t <;> simp [lexCmp_nil_cons, ↓cmp_nat]
      | cons a s =>
          cases t with
          | nil => simp [lexCmp_cons_nil, ↓cmp_nat]
          | cons b t =>
              rw [pad_succ_cons, pad_succ_cons, List.cons.injEq] at h
              rw [lexCmp_cons, h.1, cmp_self_eq_eq, ih h.2 (by simp at hshort; omega),
                List.length_cons, List.length_cons, cmp_succ]
              rfl

end Windows

section Values

theorem compare_toNat (a b : UInt8) : compare a b = cmp a.toNat b.toNat := by
  rw [cmp_eq_compare]
  rcases lt_trichotomy a.toNat b.toNat with h | h | h
  · rw [compare_lt_iff_lt.mpr h]
    exact Std.compare_eq_lt.mpr (UInt8.lt_iff_toNat_lt.mpr h)
  · rw [compare_eq_iff_eq.mpr h, UInt8.toNat_inj.mp h]
    exact Std.ReflCmp.compare_self
  · rw [compare_gt_iff_gt.mpr h]
    exact Std.compare_eq_gt.mpr (UInt8.lt_iff_toNat_lt.mpr h)

theorem beValue_cons (b : UInt8) (s : List UInt8) :
    beValue (b :: s) = b.toNat * 256 ^ s.length + beValue s := by
  rw [show b :: s = [b] ++ s from rfl, beValue_append]
  simp [beValue, leValue]

/-- Numbers of two digits compare as their digits. -/
theorem cmp_mul_add {m a b x y : Nat} (hx : x < m) (hy : y < m) :
    cmp (a * m + x) (b * m + y) = (cmp a b).then (cmp x y) := by
  rcases lt_trichotomy a b with h | rfl | h
  · have hmul : (a + 1) * m ≤ b * m := Nat.mul_le_mul_right m h
    rw [Nat.add_mul, Nat.one_mul] at hmul
    rw [(cmp_eq_lt_iff a b).mpr h]
    exact (cmp_eq_lt_iff _ _).mpr (by omega)
  · rw [cmp_self_eq_eq]
    simp [↓cmp_nat]
  · have hmul : (b + 1) * m ≤ a * m := Nat.mul_le_mul_right m h
    rw [Nat.add_mul, Nat.one_mul] at hmul
    rw [(cmp_eq_gt_iff a b).mpr h]
    exact (cmp_eq_gt_iff _ _).mpr (by omega)

/-- Strings of one length compare as the numbers they write, most significant
byte first. -/
theorem cmp_beValue {s t : List UInt8} (h : s.length = t.length) :
    cmp (beValue s) (beValue t) = lexCmp (s.map UInt8.toNat) (t.map UInt8.toNat) := by
  induction s generalizing t with
  | nil =>
      obtain rfl : t = [] := by simpa using h.symm
      rfl
  | cons a s ih =>
      cases t with
      | nil => simp at h
      | cons b t =>
          have hlen : s.length = t.length := by simpa using h
          rw [List.map_cons, List.map_cons, lexCmp_cons, ← ih hlen, beValue_cons, beValue_cons, ← hlen]
          exact cmp_mul_add (beValue_lt s) (by rw [hlen]; exact beValue_lt t)

end Values

end DirtybirdMiner.Lib.LexCompare
