import DirtybirdMiner.Lib.InducedSort
import DirtybirdMiner.Lib.SuffixOrder
import Mathlib.Data.Prod.Lex

/-!
LMS-substrings as sort keys.  The key of a position is the typed text from it
to the next LMS position (`own`), where the latter counts with its character
and type only.  While the ends of LMS-substrings are the seeds of a pass, an
LMS position stands for itself alone (`cont`).  Equal keys are told apart by
the end of the substring, which makes both keys injective.

The suffix order of LMS positions is the suffix order of the text of their
keys' names (`drop_lt_drop_iff_names`).
-/

namespace DirtybirdMiner.Lib.LmsKeys

open DirtybirdMiner.Lib.Count
open DirtybirdMiner.Lib.BucketLayout
open DirtybirdMiner.Lib.InducedSort
open DirtybirdMiner.Lib.SuffixOrder

variable {α : Type} [LinearOrder α] [Inhabited α]

open Classical in
/-- The typed character at a position; L-type sorts below S-type. -/
noncomputable def typed (text : List α) (x : Nat) : α ×ₗ Bool :=
  toLex (ch text x, decide (IsS text x))

open Classical in
/-- The typed text from `x` up to and including the first LMS position at or
after `x`, and that position; up to the end of the text if there is none. -/
noncomputable def cont (text : List α) (x : Nat) : List (α ×ₗ Bool) × Nat :=
  if x < text.length then
    if IsLMS text x then ([typed text x], x)
    else (typed text x :: (cont text (x + 1)).1, (cont text (x + 1)).2)
  else ([], text.length)
termination_by text.length - x

/-- The typed text from `x` to the first LMS position after `x`, and that
position. -/
noncomputable def own (text : List α) (x : Nat) : List (α ×ₗ Bool) × Nat :=
  (typed text x :: (cont text (x + 1)).1, (cont text (x + 1)).2)

section Keys

variable {text : List α} {x y : Nat}

theorem cont_of_length_le (hx : text.length ≤ x) : cont text x = ([], text.length) := by
  rw [cont, if_neg (by omega)]

theorem cont_end : cont text text.length = ([], text.length) := cont_of_length_le le_rfl

theorem cont_of_isLMS (h : IsLMS text x) : cont text x = ([typed text x], x) := by
  have := h.lt_length
  rw [cont, if_pos (by omega), if_pos h]

theorem cont_of_not_isLMS (hx : x < text.length) (h : ¬IsLMS text x) :
    cont text x = own text x := by
  rw [cont, if_pos hx, if_neg h, own]

/-- Keys end where those of the next position do, except before an LMS position. -/
theorem own_snd_of_not_isLMS (h : ¬IsLMS text (x + 1)) : (own text x).2 = (own text (x + 1)).2 := by
  by_cases hx : x + 1 < text.length
  · rw [← cont_of_not_isLMS hx h]
    rfl
  · rw [own, own, cont_of_length_le (by omega), cont_of_length_le (by omega)]

theorem own_snd_of_isLMS (h : IsLMS text (x + 1)) : (own text x).2 = x + 1 := by
  rw [own, cont_of_isLMS h]

theorem cont_head (hx : x < text.length) : ∃ tail, (cont text x).1 = typed text x :: tail := by
  by_cases h : IsLMS text x
  · exact ⟨[], by rw [cont_of_isLMS h]⟩
  · exact ⟨_, by rw [cont_of_not_isLMS hx h, own]⟩

theorem typed_lt_of_ch (h : ch text x < ch text y) : typed text x < typed text y := by
  rw [typed, typed, Prod.Lex.toLex_lt_toLex]
  exact .inl h

theorem typed_lt_of_types (h : ch text x = ch text y) (hx : ¬IsS text x) (hy : IsS text y) :
    typed text x < typed text y := by
  rw [typed, typed, Prod.Lex.toLex_lt_toLex]
  exact .inr ⟨h, by simp [hx, hy]⟩

theorem typed_eq_iff : typed text x = typed text y ↔
    ch text x = ch text y ∧ (IsS text x ↔ IsS text y) := by
  simp [typed]

omit [Inhabited α] in
theorem lex_lt_of_head {a b : α ×ₗ Bool} {s t : List (α ×ₗ Bool)} {i j : Nat} (h : a < b) :
    toLex (a :: s, i) < toLex (b :: t, j) := by
  rw [Prod.Lex.toLex_lt_toLex]
  exact .inl (List.cons_lt_cons_iff.mpr (.inl h))

omit [Inhabited α] in
theorem lex_cons_lt_iff {a : α ×ₗ Bool} {s t : List (α ×ₗ Bool)} {i j : Nat} :
    toLex (a :: s, i) < toLex (a :: t, j) ↔ toLex (s, i) < toLex (t, j) := by
  simp [Prod.Lex.toLex_lt_toLex]

theorem cont_lt_of_typed (hx : x < text.length) (hy : y < text.length)
    (h : typed text x < typed text y) : toLex (cont text x) < toLex (cont text y) := by
  obtain ⟨s, hs⟩ := cont_head hx
  obtain ⟨t, ht⟩ := cont_head hy
  have hx' : cont text x = (typed text x :: s, (cont text x).2) := Prod.ext hs rfl
  have hy' : cont text y = (typed text y :: t, (cont text y).2) := Prod.ext ht rfl
  rw [hx', hy']
  exact lex_lt_of_head h

theorem own_lt_of_typed (h : typed text x < typed text y) :
    toLex (own text x) < toLex (own text y) :=
  lex_lt_of_head h

/-- Where the text of a key ends, and how long it therefore is. -/
theorem cont_length (hx : x ≤ text.length) :
    (cont text x).2 = text.length ∧ x + (cont text x).1.length = text.length ∨
      (cont text x).2 < text.length ∧
        x + (cont text x).1.length = (cont text x).2 + 1 ∧ IsLMS text (cont text x).2 := by
  induction hm : text.length - x using Nat.strong_induction_on generalizing x with
  | _ m ih =>
      by_cases hend : x = text.length
      · subst hend
        rw [cont_end]
        simp
      by_cases h : IsLMS text x
      · rw [cont_of_isLMS h]
        have := h.lt_length
        exact .inr ⟨by simp only; omega, by simp, h⟩
      · rw [cont_of_not_isLMS (by omega) h, own]
        simp only [List.length_cons]
        rcases ih (text.length - (x + 1)) (by omega) (x := x + 1) (by omega) rfl with
          ⟨hsnd, hlen⟩ | ⟨hsnd, hlen, hlms⟩
        · exact .inl ⟨hsnd, by omega⟩
        · exact .inr ⟨hsnd, by omega, hlms⟩

theorem cont_inj (hx : x < text.length) (hy : y < text.length)
    (h : toLex (cont text x) = toLex (cont text y)) : x = y := by
  have h' : cont text x = cont text y := h
  have := cont_length hx.le
  have := cont_length hy.le
  rw [h'] at *
  omega

theorem own_inj (hx : x < text.length) (hy : y < text.length)
    (h : toLex (own text x) = toLex (own text y)) : x = y := by
  have h' : own text x = own text y := h
  simp only [own, Prod.mk.injEq, List.cons.injEq] at h'
  have h₁ := cont_length (show x + 1 ≤ text.length by omega)
  have h₂ := cont_length (show y + 1 ≤ text.length by omega)
  rw [h'.1.2, h'.2] at h₁
  omega

/-- The end of a key lies after its start, with no LMS position between. -/
theorem cont_snd_spec (hx : x ≤ text.length) :
    x ≤ (cont text x).2 ∧ ∀ z, x ≤ z → z < (cont text x).2 → ¬IsLMS text z := by
  induction hm : text.length - x using Nat.strong_induction_on generalizing x with
  | _ m ih =>
      by_cases hend : x = text.length
      · subst hend
        rw [cont_end]
        exact ⟨le_rfl, fun z h₁ h₂ => by omega⟩
      by_cases h : IsLMS text x
      · rw [cont_of_isLMS h]
        exact ⟨le_rfl, fun z h₁ h₂ => by omega⟩
      · rw [cont_of_not_isLMS (by omega) h, own]
        obtain ⟨hle, hnone⟩ := ih (text.length - (x + 1)) (by omega) (x := x + 1) (by omega) rfl
        refine ⟨by simp only; omega, fun z h₁ h₂ => ?_⟩
        rcases Nat.eq_or_lt_of_le h₁ with rfl | hlt
        · exact h
        · exact hnone z hlt h₂

theorem drop_lt_of_typed_lt (hx : x < text.length) (hy : y < text.length)
    (h : typed text x < typed text y) : text.drop x < text.drop y := by
  rw [typed, typed, Prod.Lex.toLex_lt_toLex] at h
  rcases h with hch | ⟨hch, htype⟩
  · exact (drop_lt_drop_iff hx hy).mpr (.inl hch)
  · simp only [Bool.lt_iff, decide_eq_false_iff_not, decide_eq_true_eq] at htype
    exact drop_lt_drop_of_types hx hy hch htype.1 htype.2

/-- The typed texts decide the suffix order. -/
theorem drop_lt_of_own_lt (hx : x < text.length) (hy : y < text.length)
    (h : (own text x).1 < (own text y).1) : text.drop x < text.drop y := by
  induction hm : text.length - x using Nat.strong_induction_on generalizing x y with
  | _ m ih =>
      rcases List.cons_lt_cons_iff.mp h with hhead | ⟨hhead, htail⟩
      · exact drop_lt_of_typed_lt hx hy hhead
      obtain ⟨hch, htype⟩ := typed_eq_iff.mp hhead
      refine (drop_lt_drop_iff hx hy).mpr (.inr ⟨hch, ?_⟩)
      by_cases hy1 : y + 1 = text.length
      · rw [hy1, cont_end] at htail
        exact absurd htail (List.not_lt_nil _)
      by_cases hx1 : x + 1 = text.length
      · rw [hx1]
        exact drop_length_lt_drop (by omega)
      have hxlt : x + 1 < text.length := by omega
      have hylt : y + 1 < text.length := by omega
      obtain ⟨s, hs⟩ := cont_head hxlt
      obtain ⟨t, ht⟩ := cont_head hylt
      have htail' := htail
      rw [hs, ht, List.cons_lt_cons_iff] at htail'
      rcases htail' with hhead' | ⟨hhead', -⟩
      · exact drop_lt_of_typed_lt hxlt hylt hhead'
      -- Equal types twice in a row: the two positions are LMS together.
      have hlms : IsLMS text (x + 1) ↔ IsLMS text (y + 1) := by
        rw [isLMS_succ_iff, isLMS_succ_iff, htype, (typed_eq_iff.mp hhead').2]
      by_cases hl : IsLMS text (x + 1)
      · rw [cont_of_isLMS hl, cont_of_isLMS (hlms.mp hl), hhead'] at htail
        exact absurd htail (lt_irrefl _)
      · rw [cont_of_not_isLMS hxlt hl,
          cont_of_not_isLMS hylt fun h => hl (hlms.mpr h)] at htail
        exact ih (text.length - (x + 1)) (by omega) hxlt hylt htail rfl

/-- Positions with one typed text compare as the ends of the two texts do. -/
theorem drop_lt_iff_of_own_eq (hx : x < text.length) (hy : y < text.length) (hne : x ≠ y)
    (h : (own text x).1 = (own text y).1) :
    (own text x).2 < text.length ∧ (own text y).2 < text.length ∧
      (text.drop x < text.drop y ↔
        text.drop (own text x).2 < text.drop (own text y).2) := by
  induction hm : text.length - x using Nat.strong_induction_on generalizing x y with
  | _ m ih =>
      obtain ⟨hhead, htail⟩ := List.cons.inj h
      obtain ⟨hch, htype⟩ := typed_eq_iff.mp hhead
      have hdrop := drop_lt_drop_iff_of_ch hx hy hch
      by_cases hx1 : x + 1 = text.length
      · rw [hx1, cont_end] at htail
        have hy1 : ¬y + 1 < text.length := fun hlt => by
          obtain ⟨t, ht⟩ := cont_head hlt
          rw [ht] at htail
          exact absurd htail (by simp)
        omega
      have hxlt : x + 1 < text.length := by omega
      obtain ⟨s, hs⟩ := cont_head hxlt
      have hylt : y + 1 < text.length := by
        by_contra hge
        have hy1 : y + 1 = text.length := by omega
        rw [hy1, cont_end, hs] at htail
        exact absurd htail (by simp)
      obtain ⟨t, ht⟩ := cont_head hylt
      have hhead' : typed text (x + 1) = typed text (y + 1) := by
        rw [hs, ht] at htail
        exact (List.cons.inj htail).1
      have hlms : IsLMS text (x + 1) ↔ IsLMS text (y + 1) := by
        rw [isLMS_succ_iff, isLMS_succ_iff, htype, (typed_eq_iff.mp hhead').2]
      rw [hdrop]
      by_cases hl : IsLMS text (x + 1)
      · simp only [own, cont_of_isLMS hl, cont_of_isLMS (hlms.mp hl)]
        exact ⟨hxlt, hylt, trivial⟩
      · have hl' : ¬IsLMS text (y + 1) := fun h => hl (hlms.mpr h)
        have hsnd : ∀ z, z + 1 < text.length → ¬IsLMS text (z + 1) →
            (own text z).2 = (own text (z + 1)).2 := by
          intro z hz hlz
          rw [own, cont_of_not_isLMS hz hlz]
        rw [hsnd x hxlt hl, hsnd y hylt hl']
        rw [cont_of_not_isLMS hxlt hl, cont_of_not_isLMS hylt hl'] at htail
        exact ih (text.length - (x + 1)) (by omega) hxlt hylt (by omega) htail rfl

theorem typed_cons_map (x len : Nat) :
    (typed text x :: (List.range len).map fun k => typed text (x + 1 + k)) =
      (List.range (len + 1)).map fun k => typed text (x + k) := by
  rw [List.range_succ_eq_map, List.map_cons, List.map_map, Nat.add_zero]
  congr 1
  refine List.map_congr_left fun k _ => ?_
  rw [Function.comp_apply, Nat.add_assoc, Nat.add_comm 1 k]

/-- A key is the typed text of its length. -/
theorem cont_fst_eq (hx : x ≤ text.length) :
    (cont text x).1 = (List.range (cont text x).1.length).map fun k => typed text (x + k) := by
  induction hm : text.length - x using Nat.strong_induction_on generalizing x with
  | _ m ih =>
      by_cases hend : x = text.length
      · subst hend
        rw [cont_end]
        rfl
      by_cases h : IsLMS text x
      · rw [cont_of_isLMS h]
        rfl
      · have hnext := ih (text.length - (x + 1)) (by omega) (x := x + 1) (by omega) rfl
        rw [cont_of_not_isLMS (by omega) h, own, List.length_cons, ← typed_cons_map, ← hnext]

theorem own_fst_eq (hx : x < text.length) :
    (own text x).1 = (List.range (own text x).1.length).map fun k => typed text (x + k) := by
  rw [own, List.length_cons, ← typed_cons_map, ← cont_fst_eq hx]

theorem own_length (hx : x < text.length) (hend : (own text x).2 < text.length) :
    x + (own text x).1.length = (own text x).2 + 1 := by
  have h := cont_length (show x + 1 ≤ text.length by omega)
  rw [own] at hend ⊢
  rw [List.length_cons]
  omega

theorem lt_own_snd (hx : x < text.length) : x < (own text x).2 :=
  (cont_snd_spec (show x + 1 ≤ text.length by omega)).1

theorem isLMS_own (hx : x < text.length) (h : (own text x).2 < text.length) :
    IsLMS text (own text x).2 := by
  rcases cont_length (show x + 1 ≤ text.length by omega) with ⟨hend, -⟩ | ⟨-, -, hlms⟩
  · rw [own] at h
    omega
  · exact hlms

theorem own_snd_le (hx : x < text.length) : (own text x).2 ≤ text.length := by
  rcases cont_length (show x + 1 ≤ text.length by omega) with ⟨hend, -⟩ | ⟨hlt, -⟩
  · exact hend.le
  · exact hlt.le

/-- Two LMS-substrings with the same characters have the same types: types are
determined from the end, where both are S-type. -/
theorem own_fst_eq_iff (hx : x < text.length) (hy : y < text.length)
    (hxe : (own text x).2 < text.length) (hye : (own text y).2 < text.length) :
    (own text x).1 = (own text y).1 ↔
      (own text x).1.length = (own text y).1.length ∧
        ∀ k, k < (own text x).1.length → ch text (x + k) = ch text (y + k) := by
  have hxl := own_length hx hxe
  have hyl := own_length hy hye
  have hxp := lt_own_snd hx
  constructor
  · intro h
    refine ⟨by rw [h], fun k hk => ?_⟩
    have hget : (own text x).1[k]? = (own text y).1[k]? := by rw [h]
    rw [own_fst_eq hx, own_fst_eq hy, ← h, List.getElem?_map, List.getElem?_map,
      List.getElem?_range hk] at hget
    exact (typed_eq_iff.mp (Option.some.inj hget)).1
  · rintro ⟨hlen, hch⟩
    have htype : ∀ m, m < (own text x).1.length →
        (IsS text (x + ((own text x).1.length - 1 - m)) ↔
          IsS text (y + ((own text x).1.length - 1 - m))) := by
      intro m
      induction m with
      | zero =>
          intro _
          have hx' : x + ((own text x).1.length - 1 - 0) = (own text x).2 := by omega
          have hy' : y + ((own text x).1.length - 1 - 0) = (own text y).2 := by omega
          rw [hx', hy']
          exact iff_of_true (isLMS_own hx hxe).isS (isLMS_own hy hye).isS
      | succ m ih =>
          intro hm
          have hprev := ih (by omega)
          obtain ⟨k, hk⟩ : ∃ k, (own text x).1.length - 1 - m = k + 1 :=
            ⟨(own text x).1.length - 1 - (m + 1), by omega⟩
          rw [hk, ← Nat.add_assoc, ← Nat.add_assoc] at hprev
          rw [show (own text x).1.length - 1 - (m + 1) = k by omega,
            isS_iff (show x + k + 1 < text.length by omega),
            isS_iff (show y + k + 1 < text.length by omega), hprev, hch k (by omega)]
          rw [show x + k + 1 = x + (k + 1) by omega, hch (k + 1) (by omega), Nat.add_assoc]
    rw [own_fst_eq hx, own_fst_eq hy, ← hlen]
    refine List.map_congr_left fun k hk => typed_eq_iff.mpr ?_
    rw [List.mem_range] at hk
    have htk := htype ((own text x).1.length - 1 - k) (by omega)
    rw [show (own text x).1.length - 1 - ((own text x).1.length - 1 - k) = k by omega] at htk
    exact ⟨hch k hk, htk⟩

end Keys

section Spacing

variable {text : List α} {x y : Nat}

omit [Inhabited α] in
/-- LMS positions are never adjacent. -/
theorem isLMS_eq_of_close (hx : IsLMS text x) (hy : IsLMS text y) (h₁ : x ≤ y + 1)
    (h₂ : y ≤ x + 1) : x = y := by
  by_contra hne
  rcases Nat.lt_or_gt_of_ne hne with hlt | hgt
  · obtain rfl : y = x + 1 := by omega
    exact not_isLMS_succ_of_isS hx.isS hy
  · obtain rfl : x = y + 1 := by omega
    exact not_isLMS_succ_of_isS hy.isS hx

omit [Inhabited α] in
theorem isLMS_half_inj (hx : IsLMS text x) (hy : IsLMS text y) (h : x / 2 = y / 2) : x = y :=
  isLMS_eq_of_close hx hy (by omega) (by omega)

end Spacing

section Names

/-- The number of LMS positions before `x`. -/
noncomputable def lmsRank (text : List α) (x : Nat) : Nat := cnt x (IsLMS text)

noncomputable def lmsCount (text : List α) : Nat := lmsRank text text.length

variable {text : List α} {x y : Nat}

omit [Inhabited α] in
theorem lmsRank_of_none (hxy : x ≤ y) (hnone : ∀ z, x ≤ z → z < y → ¬IsLMS text z) :
    lmsRank text y = lmsRank text x := by
  induction y, hxy using Nat.le_induction with
  | base => rfl
  | succ y hle ih =>
      rw [← ih fun z h₁ h₂ => hnone z h₁ (by omega)]
      exact cnt_succ_of_not y (hnone y hle (by omega))

omit [Inhabited α] in
theorem lmsRank_succ (h : IsLMS text x) : lmsRank text (x + 1) = lmsRank text x + 1 :=
  cnt_succ_of x h

/-- The LMS position after `x` has the next rank; after the last there is the
end of the text. -/
theorem lmsRank_own (h : IsLMS text x) :
    lmsRank text (own text x).2 = lmsRank text x + 1 := by
  have hlen := h.lt_length
  obtain ⟨hle, hnone⟩ := cont_snd_spec (show x + 1 ≤ text.length by omega)
  rw [own, lmsRank_of_none hle hnone, lmsRank_succ h]

omit [Inhabited α] in
theorem lmsRank_mono (hxy : x ≤ y) : lmsRank text x ≤ lmsRank text y := by
  induction y, hxy using Nat.le_induction with
  | base => rfl
  | succ y _ ih =>
      by_cases hy : IsLMS text y
      · rw [lmsRank_succ hy]
        omega
      · rwa [lmsRank_of_none (show y ≤ y + 1 by omega)]
        intro z _ _
        obtain rfl : z = y := by omega
        exact hy

omit [Inhabited α] in
theorem lmsRank_lt_lmsRank (hx : IsLMS text x) (hxy : x < y) :
    lmsRank text x < lmsRank text y := by
  have : lmsRank text (x + 1) ≤ lmsRank text y := lmsRank_mono hxy
  rw [lmsRank_succ hx] at this
  omega

omit [Inhabited α] in
theorem lmsRank_lt_count (hx : IsLMS text x) : lmsRank text x < lmsCount text :=
  lmsRank_lt_lmsRank hx (by have := hx.lt_length; omega)

omit [Inhabited α] in
theorem lmsRank_inj (hx : IsLMS text x) (hy : IsLMS text y)
    (h : lmsRank text x = lmsRank text y) : x = y := by
  rcases lt_trichotomy x y with hlt | heq | hgt
  · exact absurd h (lmsRank_lt_lmsRank hx hlt).ne
  · exact heq
  · exact absurd h (lmsRank_lt_lmsRank hy hgt).ne'

omit [Inhabited α] in
theorem two_mul_lmsCount_lt (hn : 0 < text.length) : 2 * lmsCount text < text.length := by
  have hle : lmsCount text ≤ (text.length - 1) / 2 + 1 - 1 :=
    cnt_le_of_inj (f := fun x => (x + 1) / 2)
      (fun x _ hx => by have := hx.lt_length; have := hx.1; omega)
      fun x y hx hy heq => isLMS_eq_of_close hx hy (by omega) (by omega)
  omega

omit [Inhabited α] in
/-- The ranks of the LMS positions are all the numbers below their count. -/
theorem exists_lmsRank {k : Nat} (hk : k < lmsCount text) :
    ∃ x, IsLMS text x ∧ lmsRank text x = k := by
  obtain ⟨x, -, hx, hrank⟩ := exists_preimage_of_cnt (n := text.length) (p := IsLMS text)
    (f := lmsRank text) (fun _ _ hx => ⟨Nat.zero_le _, lmsRank_lt_count hx⟩)
    (fun _ _ => lmsRank_inj) (Nat.sub_le _ _) (Nat.zero_le k) hk
  exact ⟨x, hx, hrank⟩

/-- The reduction of SA-IS.  Let `names` list one name for every LMS position
in text order, such that names compare as LMS-substrings do.  Then its suffixes
compare as the suffixes of the text at the LMS positions. -/
theorem drop_lt_drop_iff_names {β : Type} [LinearOrder β] [Inhabited β] {names : List β}
    {f : Nat → β} (hlen : names.length = lmsCount text)
    (hname : ∀ x, IsLMS text x → ch names (lmsRank text x) = f x)
    (hlt : ∀ x y, IsLMS text x → IsLMS text y →
      (f x < f y ↔ (own text x).1 < (own text y).1))
    (hx : IsLMS text x) (hy : IsLMS text y) :
    names.drop (lmsRank text x) < names.drop (lmsRank text y) ↔
      text.drop x < text.drop y := by
  have hforward : ∀ {x y}, IsLMS text x → IsLMS text y →
      names.drop (lmsRank text x) < names.drop (lmsRank text y) →
        text.drop x < text.drop y := by
    intro x y hx hy h
    induction hm : text.length - x using Nat.strong_induction_on generalizing x y with
    | _ m ih =>
        have hxlen := hx.lt_length
        have hylen := hy.lt_length
        have hxr := lmsRank_lt_count hx
        have hyr := lmsRank_lt_count hy
        rw [drop_lt_drop_iff (by omega) (by omega), hname x hx, hname y hy] at h
        rcases h with hhead | ⟨hhead, htail⟩
        · exact drop_lt_of_own_lt (by omega) (by omega) ((hlt x y hx hy).mp hhead)
        · have hown : (own text x).1 = (own text y).1 := by
            rcases lt_trichotomy (own text x).1 (own text y).1 with hl | he | hg
            · exact absurd hhead ((hlt x y hx hy).mpr hl).ne
            · exact he
            · exact absurd hhead ((hlt y x hy hx).mpr hg).ne'
          have hne : x ≠ y := by
            rintro rfl
            exact absurd htail (lt_irrefl _)
          obtain ⟨hxe, hye, hiff⟩ :=
            drop_lt_iff_of_own_eq (by omega) (by omega) hne hown
          have hxl := isLMS_own (by omega) hxe
          have hyl := isLMS_own (by omega) hye
          rw [← lmsRank_own hx, ← lmsRank_own hy] at htail
          have hafter : x < (own text x).2 :=
            (cont_snd_spec (show x + 1 ≤ text.length by omega)).1
          exact hiff.mpr (ih _ (by omega) hxl hyl htail rfl)
  constructor
  · exact hforward hx hy
  · intro h
    rcases lt_trichotomy (names.drop (lmsRank text x)) (names.drop (lmsRank text y))
      with hl | he | hg
    · exact hl
    · have hxr := lmsRank_lt_count hx
      have hyr := lmsRank_lt_count hy
      have := lmsRank_inj hx hy (drop_injective (by omega) (by omega) he)
      subst this
      exact absurd h (lt_irrefl _)
    · exact absurd (hforward hy hx hg) (lt_asymm h)

end Names

end DirtybirdMiner.Lib.LmsKeys
