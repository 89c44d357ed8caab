import Mathlib.Data.Finset.Card
import Mathlib.Data.Finset.Range
import Mathlib.Order.Interval.Finset.Nat
import Mathlib.Tactic.Common

/-!
Counting the numbers below a bound that satisfy a predicate.  Everything here
is classical, so the predicates carry no decidability instances around.
-/

namespace DirtybirdMiner.Lib.Count

open Classical in
/-- How many numbers below `n` satisfy `p`. -/
noncomputable def cnt (n : Nat) (p : Nat → Prop) : Nat :=
  ((Finset.range n).filter p).card

theorem cnt_mono {n : Nat} {p q : Nat → Prop} (h : ∀ x, x < n → p x → q x) :
    cnt n p ≤ cnt n q := by
  classical
  apply Finset.card_le_card
  intro x hx
  simp only [Finset.mem_filter, Finset.mem_range] at hx ⊢
  exact ⟨hx.1, h x hx.1 hx.2⟩

theorem cnt_congr {n : Nat} {p q : Nat → Prop} (h : ∀ x, x < n → (p x ↔ q x)) :
    cnt n p = cnt n q :=
  le_antisymm (cnt_mono fun x hx => (h x hx).mp) (cnt_mono fun x hx => (h x hx).mpr)

theorem cnt_lt {n : Nat} {p q : Nat → Prop} (h : ∀ x, x < n → p x → q x) {k : Nat}
    (hk : k < n) (hp : ¬p k) (hq : q k) : cnt n p < cnt n q := by
  classical
  apply Finset.card_lt_card
  refine (Finset.ssubset_iff_of_subset ?_).mpr ⟨k, ?_, ?_⟩
  · intro x hx
    simp only [Finset.mem_filter, Finset.mem_range] at hx ⊢
    exact ⟨hx.1, h x hx.1 hx.2⟩
  · simp [hk, hq]
  · simp [hp]

theorem cnt_or {n : Nat} {p q : Nat → Prop} (h : ∀ x, x < n → p x → ¬q x) :
    cnt n (fun x => p x ∨ q x) = cnt n p + cnt n q := by
  classical
  have hsplit : ((Finset.range n).filter fun x => p x ∨ q x) =
      (Finset.range n).filter p ∪ (Finset.range n).filter q := by
    ext x
    simp only [Finset.mem_filter, Finset.mem_union, Finset.mem_range]
    tauto
  have hdisj : Disjoint ((Finset.range n).filter p) ((Finset.range n).filter q) :=
    Finset.disjoint_filter.mpr fun x hx => h x (Finset.mem_range.mp hx)
  calc
    cnt n (fun x => p x ∨ q x) =
        ((Finset.range n).filter p ∪ (Finset.range n).filter q).card := by
      rw [← hsplit, cnt]
      congr
    _ = cnt n p + cnt n q := Finset.card_union_of_disjoint hdisj

theorem cnt_eq_one {n k : Nat} (hk : k < n) : cnt n (fun x => x = k) = 1 := by
  classical
  refine Finset.card_eq_one.mpr ⟨k, ?_⟩
  ext x
  simp only [Finset.mem_filter, Finset.mem_range, Finset.mem_singleton]
  constructor
  · exact fun h => h.2
  · rintro rfl
    exact ⟨hk, rfl⟩

theorem cnt_insert {n k : Nat} {p q : Nat → Prop} (hk : k < n) (hp : ¬p k)
    (h : ∀ x, x < n → (q x ↔ p x ∨ x = k)) : cnt n q = cnt n p + 1 := by
  rw [cnt_congr h, cnt_or, cnt_eq_one hk]
  rintro x - hx rfl
  exact hp hx

theorem cnt_zero_of_none {n : Nat} {p : Nat → Prop} (h : ∀ x, x < n → ¬p x) :
    cnt n p = 0 := by
  classical
  unfold cnt
  rw [Finset.card_eq_zero, Finset.filter_eq_empty_iff]
  intro x hx
  exact h x (Finset.mem_range.mp hx)

theorem cnt_le (n : Nat) (p : Nat → Prop) : cnt n p ≤ n := by
  classical
  calc
    cnt n p ≤ (Finset.range n).card := Finset.card_filter_le _ _
    _ = n := Finset.card_range n

theorem cnt_true (n : Nat) : cnt n (fun _ => True) = n := by
  classical
  simp [cnt]

theorem cnt_pos {n k : Nat} {p : Nat → Prop} (hk : k < n) (hp : p k) : 0 < cnt n p := by
  have h := cnt_lt (p := fun _ => False) (q := p) (fun _ _ => False.elim) hk id hp
  omega

theorem cnt_succ_of (n : Nat) {p : Nat → Prop} (hp : p n) : cnt (n + 1) p = cnt n p + 1 := by
  classical
  unfold cnt
  rw [Finset.range_add_one, Finset.filter_insert, if_pos hp, Finset.card_insert_of_notMem]
  simp

theorem cnt_succ_of_not (n : Nat) {p : Nat → Prop} (hp : ¬p n) : cnt (n + 1) p = cnt n p := by
  classical
  unfold cnt
  rw [Finset.range_add_one, Finset.filter_insert, if_neg hp]

theorem cnt_below {n k : Nat} (hk : k ≤ n) (p : Nat → Prop) :
    (cnt n fun x => p x ∧ x < k) = cnt k p := by
  classical
  unfold cnt
  congr 1
  ext x
  simp only [Finset.mem_filter, Finset.mem_range]
  constructor
  · exact fun hx => ⟨hx.2.2, hx.2.1⟩
  · exact fun hx => ⟨hx.1.trans_le hk, hx.2, hx.1⟩

/-- An injection into an interval counts at most its length. -/
theorem cnt_le_of_inj {n lo hi : Nat} {p : Nat → Prop} {f : Nat → Nat}
    (hmem : ∀ x, x < n → p x → lo ≤ f x ∧ f x < hi)
    (hinj : ∀ x y, p x → p y → f x = f y → x = y) : cnt n p ≤ hi - lo := by
  classical
  rw [← Nat.card_Ico]
  refine Finset.card_le_card_of_injOn f (fun x hx => ?_) fun x hx y hy => ?_
  · rw [Finset.mem_coe, Finset.mem_filter, Finset.mem_range] at hx
    exact Finset.mem_coe.mpr (Finset.mem_Ico.mpr (hmem x hx.1 hx.2))
  · rw [Finset.mem_coe, Finset.mem_filter] at hx hy
    exact hinj x y hx.2 hy.2

/-- An injection into an interval of just the length counted hits all of it. -/
theorem exists_preimage_of_cnt {n lo hi : Nat} {p : Nat → Prop} {f : Nat → Nat}
    (hmem : ∀ x, x < n → p x → lo ≤ f x ∧ f x < hi)
    (hinj : ∀ x y, p x → p y → f x = f y → x = y) (hcard : hi - lo ≤ cnt n p) {q : Nat}
    (hlo : lo ≤ q) (hhi : q < hi) : ∃ x, x < n ∧ p x ∧ f x = q := by
  classical
  have himage : ((Finset.range n).filter p).image f = Finset.Ico lo hi := by
    apply Finset.eq_of_subset_of_card_le
    · intro y hy
      obtain ⟨x, hx, rfl⟩ := Finset.mem_image.mp hy
      rw [Finset.mem_filter, Finset.mem_range] at hx
      exact Finset.mem_Ico.mpr (hmem x hx.1 hx.2)
    · rw [Finset.card_image_of_injOn, Nat.card_Ico]
      · exact hcard
      · intro x hx y hy hxy
        rw [Finset.mem_coe, Finset.mem_filter] at hx hy
        exact hinj x y hx.2 hy.2 hxy
  have hq : q ∈ ((Finset.range n).filter p).image f := by
    rw [himage]
    exact Finset.mem_Ico.mpr ⟨hlo, hhi⟩
  obtain ⟨x, hx, hfx⟩ := Finset.mem_image.mp hq
  rw [Finset.mem_filter, Finset.mem_range] at hx
  exact ⟨x, hx.1, hx.2, hfx⟩

/-- An injection of the numbers below `n` into themselves hits every one. -/
theorem exists_preimage {n : Nat} {f : Nat → Nat} (hlt : ∀ x, x < n → f x < n)
    (hinj : ∀ x y, x < n → y < n → f x = f y → x = y) {q : Nat} (hq : q < n) :
    ∃ x, x < n ∧ f x = q := by
  obtain ⟨x, hx, -, hfx⟩ := exists_preimage_of_cnt (n := n) (p := fun x => x < n) (f := f)
    (fun x hx _ => ⟨Nat.zero_le _, hlt x hx⟩) hinj
    (by rw [cnt_congr (q := fun _ => True) fun x hx => by simp [hx], cnt_true]; omega)
    (Nat.zero_le q) hq
  exact ⟨x, hx, hfx⟩

end DirtybirdMiner.Lib.Count
