import DirtybirdMiner.Lib.LmsKeys

/-!
The layouts of the four inducing passes of SA-IS.  The last two passes sort all
suffixes from the sorted LMS-suffixes; the first two sort LMS-substrings, and
leave out everything before the first LMS position.
-/

namespace DirtybirdMiner.Lib.LmsLayouts

open DirtybirdMiner.Lib.BucketLayout
open DirtybirdMiner.Lib.InducedSort
open DirtybirdMiner.Lib.LmsKeys
open DirtybirdMiner.Lib.SuffixOrder

variable {α : Type} [LinearOrder α] [Inhabited α] (text : List α)

section Suffixes

theorem drop_lt_of_ch {x y : Nat} (hx : x < text.length) (hy : y < text.length)
    (h : ch text x < ch text y) : text.drop x < text.drop y :=
  (drop_lt_drop_iff hx hy).mpr (.inl h)

/-- Sorted LMS-suffixes at the bucket ends, L-type suffixes from the starts. -/
def suffixL : Layout α (List α) where
  n := text.length
  ch := ch text
  front x := x < text.length ∧ ¬IsS text x
  back x := IsLMS text x
  ord x := text.drop x
  front_lt h := h.1
  back_lt h := by have := h.lt_length; omega
  not_back h h' := h.2 h'.isS
  ord_of_ch hx hy h := by
    have hlt : ∀ {z}, (z < text.length ∧ ¬IsS text z) ∨ IsLMS text z → z < text.length :=
      fun hz => hz.elim And.left fun hl => by have := hl.lt_length; omega
    exact drop_lt_of_ch text (hlt hx) (hlt hy) h
  ord_of_front_back hx hy h :=
    drop_lt_drop_of_types hx.1 (by have := hy.lt_length; omega) h hx.2 hy.isS
  ord_inj hx hy h := by
    have hlt : ∀ {z}, (z < text.length ∧ ¬IsS text z) ∨ IsLMS text z → z < text.length :=
      fun hz => hz.elim And.left fun hl => by have := hl.lt_length; omega
    exact drop_injective (hlt hx).le (hlt hy).le h

/-- All suffixes: L-type from the bucket starts, S-type from the ends. -/
def suffixS : Layout α (List α) where
  n := text.length
  ch := ch text
  front x := x < text.length ∧ ¬IsS text x
  back x := IsS text x
  ord x := text.drop x
  front_lt h := h.1
  back_lt h := by have := isS_lt_length h; omega
  not_back h h' := h.2 h'
  ord_of_ch hx hy h := by
    have hlt : ∀ {z}, (z < text.length ∧ ¬IsS text z) ∨ IsS text z → z < text.length :=
      fun hz => hz.elim And.left fun hl => by have := isS_lt_length hl; omega
    exact drop_lt_of_ch text (hlt hx) (hlt hy) h
  ord_of_front_back hx hy h :=
    drop_lt_drop_of_types hx.1 (by have := isS_lt_length hy; omega) h hx.2 hy
  ord_inj hx hy h := by
    have hlt : ∀ {z}, (z < text.length ∧ ¬IsS text z) ∨ IsS text z → z < text.length :=
      fun hz => hz.elim And.left fun hl => by have := isS_lt_length hl; omega
    exact drop_injective (hlt hx).le (hlt hy).le h

omit [Inhabited α] in
theorem not_isS_last : ¬IsS text (text.length - 1) := by
  intro h
  have := isS_lt_length h
  omega

/-- The successor of an L-type position, by its character and type. -/
theorem succ_of_not_isS {x : Nat} (hx : x + 1 < text.length) (h : ¬IsS text x) :
    ch text (x + 1) < ch text x ∨ ch text (x + 1) = ch text x ∧ ¬IsS text (x + 1) := by
  rcases (ch_succ_le_of_not_isS hx h).lt_or_eq with hlt | heq
  · exact .inl hlt
  · exact .inr ⟨heq, fun hS => h ((isS_iff hx).mpr (.inr ⟨heq.symm, hS⟩))⟩

theorem pred_not_isS {x : Nat} (hx : x < text.length) (h0 : 0 < x) (h : ¬IsS text x)
    (hch : ch text x ≤ ch text (x - 1)) : ¬IsS text (x - 1) := by
  obtain ⟨z, rfl⟩ : ∃ z, x = z + 1 := ⟨x - 1, by omega⟩
  rw [Nat.add_sub_cancel] at hch ⊢
  rw [isS_iff hx]
  rintro (hlt | ⟨-, hS⟩)
  · exact absurd hlt hch.not_gt
  · exact h hS

theorem suffixL_pass (hn : 0 < text.length) : ForwardPass (suffixL text) where
  last := ⟨hn, Nat.sub_lt hn Nat.one_pos, not_isS_last text⟩
  ord_end h := drop_length_lt_drop (Layout.Mem.lt h)
  succ := by
    rintro x ⟨hx, hL⟩
    by_cases hend : x + 1 = text.length
    · exact .inl hend
    have hlt : x + 1 < text.length := lt_of_le_of_ne hx hend
    refine .inr ⟨?_, (succ_of_not_isS text hlt hL).imp_right fun h => ⟨h.1, hlt, h.2⟩⟩
    by_cases hS : IsS text (x + 1)
    · exact .inr (isLMS_succ hL hS)
    · exact .inl ⟨hlt, hS⟩
  ord_succ := by
    rintro x y ⟨hx, -⟩ ⟨hy, -⟩ hch
    exact drop_lt_drop_iff_of_ch hx hy hch
  pred_back := by
    intro x h
    exact ⟨h.1, (Nat.sub_le x 1).trans_lt (Nat.lt_of_succ_lt h.lt_length), h.2.2⟩
  pred_front := by
    rintro x ⟨hx, hL⟩ h0 hch
    exact ⟨(Nat.sub_le x 1).trans_lt hx, pred_not_isS text hx h0 hL hch⟩

theorem suffixS_pass : BackwardPass (suffixS text) where
  succ := by
    intro x hS
    have hlen := isS_lt_length hS
    refine ⟨?_, ?_⟩
    · by_cases h : IsS text (x + 1)
      · exact .inr h
      · exact .inl ⟨hlen, h⟩
    · exact (isS_iff hlen).mp hS
  ord_succ := by
    intro x y hx hy hch
    have hxl := isS_lt_length hx
    have hyl := isS_lt_length hy
    exact drop_lt_drop_iff_of_ch (by omega) (by omega) hch

/-- L-type suffixes keep their place between the two passes. -/
theorem suffixL_pos_eq {x : Nat} (h : x < text.length ∧ ¬IsS text x) :
    (suffixL text).pos x = (suffixS text).pos x := by
  rw [(suffixL text).pos_front h, (suffixS text).pos_front h]
  rfl

end Suffixes

section Substrings

/-- Positions after the first LMS position. -/
def AfterLMS (x : Nat) : Prop := ∃ y, IsLMS text y ∧ y < x

/-- The ends of LMS-substrings at the bucket ends, L-type positions from the
starts. -/
noncomputable def substringL : Layout α (List (α ×ₗ Bool) ×ₗ Nat) where
  n := text.length
  ch := ch text
  front x := x < text.length ∧ ¬IsS text x ∧ AfterLMS text x
  back x := IsLMS text x ∧ AfterLMS text x
  ord x := toLex (cont text x)
  front_lt h := h.1
  back_lt h := by have := h.1.lt_length; omega
  not_back h h' := h.2.1 h'.1.isS
  ord_of_ch hx hy h := by
    have hlt : ∀ {z}, (z < text.length ∧ ¬IsS text z ∧ AfterLMS text z) ∨
        IsLMS text z ∧ AfterLMS text z → z < text.length :=
      fun hz => hz.elim And.left fun hl => by have := hl.1.lt_length; omega
    exact cont_lt_of_typed (hlt hx) (hlt hy) (typed_lt_of_ch h)
  ord_of_front_back hx hy h := by
    have := hy.1.lt_length
    exact cont_lt_of_typed hx.1 (by omega) (typed_lt_of_types h hx.2.1 hy.1.isS)
  ord_inj hx hy h := by
    have hlt : ∀ {z}, (z < text.length ∧ ¬IsS text z ∧ AfterLMS text z) ∨
        IsLMS text z ∧ AfterLMS text z → z < text.length :=
      fun hz => hz.elim And.left fun hl => by have := hl.1.lt_length; omega
    exact cont_inj (hlt hx) (hlt hy) h

/-- L-type positions from the bucket starts, S-type positions from the ends. -/
noncomputable def substringS : Layout α (List (α ×ₗ Bool) ×ₗ Nat) where
  n := text.length
  ch := ch text
  front x := x < text.length ∧ ¬IsS text x ∧ AfterLMS text x
  back x := IsS text x ∧ AfterLMS text (x + 1)
  ord x := toLex (own text x)
  front_lt h := h.1
  back_lt h := by have := isS_lt_length h.1; omega
  not_back h h' := h.2.1 h'.1
  ord_of_ch _ _ h := own_lt_of_typed (typed_lt_of_ch h)
  ord_of_front_back hx hy h := own_lt_of_typed (typed_lt_of_types h hx.2.1 hy.1)
  ord_inj hx hy h := by
    have hlt : ∀ {z}, (z < text.length ∧ ¬IsS text z ∧ AfterLMS text z) ∨
        IsS text z ∧ AfterLMS text (z + 1) → z < text.length :=
      fun hz => hz.elim And.left fun hl => by have := isS_lt_length hl.1; omega
    exact own_inj (hlt hx) (hlt hy) h

omit [Inhabited α] in
theorem AfterLMS.succ {x : Nat} (h : AfterLMS text x) : AfterLMS text (x + 1) := by
  obtain ⟨y, hy, hlt⟩ := h
  exact ⟨y, hy, by omega⟩

omit [Inhabited α] in
/-- No LMS position is L-type, so stepping back to one stays after the first. -/
theorem AfterLMS.pred {x : Nat} (h : AfterLMS text x) (hL : ¬IsS text (x - 1)) :
    AfterLMS text (x - 1) := by
  obtain ⟨y, hy, hlt⟩ := h
  refine ⟨y, hy, ?_⟩
  by_contra hge
  obtain rfl : y = x - 1 := by omega
  exact hL hy.isS

theorem cont_eq_own_of_not_isS {x : Nat} (hx : x < text.length) (h : ¬IsS text x) :
    cont text x = own text x :=
  cont_of_not_isLMS hx fun hl => h hl.isS

theorem typed_eq_of_not_isS {x y : Nat} (h : ch text x = ch text y) (hx : ¬IsS text x)
    (hy : ¬IsS text y) : typed text x = typed text y :=
  typed_eq_iff.mpr ⟨h, iff_of_false hx hy⟩

theorem substringL_pass (hlms : ∃ y, IsLMS text y) : ForwardPass (substringL text) where
  last := by
    obtain ⟨y, hy⟩ := hlms
    have hn : 0 < text.length := Nat.zero_lt_of_lt hy.lt_length
    exact ⟨hn, Nat.sub_lt hn Nat.one_pos, not_isS_last text, y, hy,
      Nat.lt_sub_of_add_lt hy.lt_length⟩
  ord_end := by
    intro x h
    obtain ⟨s, hs⟩ := cont_head (Layout.Mem.lt h : x < text.length)
    change toLex (cont text text.length) < toLex (cont text x)
    rw [cont_end, Prod.Lex.toLex_lt_toLex, hs]
    exact .inl (List.nil_lt_cons _ _)
  succ := by
    rintro x ⟨hx, hL, hafter⟩
    by_cases hend : x + 1 = text.length
    · exact .inl hend
    have hlt : x + 1 < text.length := lt_of_le_of_ne hx hend
    refine .inr ⟨?_, (succ_of_not_isS text hlt hL).imp_right
      fun h => ⟨h.1, hlt, h.2, hafter.succ⟩⟩
    by_cases hS : IsS text (x + 1)
    · exact .inr ⟨isLMS_succ hL hS, hafter.succ⟩
    · exact .inl ⟨hlt, hS, hafter.succ⟩
  ord_succ := by
    rintro x y ⟨hx, hxL, -⟩ ⟨hy, hyL, -⟩ hch
    change toLex (cont text x) < toLex (cont text y) ↔ _
    rw [cont_eq_own_of_not_isS text hx hxL, cont_eq_own_of_not_isS text hy hyL, own, own,
      typed_eq_of_not_isS text hch hxL hyL, lex_cons_lt_iff]
    rfl
  pred_back := by
    rintro x ⟨h, hafter⟩
    exact ⟨h.1, (Nat.sub_le x 1).trans_lt (Nat.lt_of_succ_lt h.lt_length), h.2.2,
      hafter.pred text h.2.2⟩
  pred_front := by
    rintro x ⟨hx, hL, hafter⟩ h0 hch
    have hpred := pred_not_isS text hx h0 hL hch
    exact ⟨(Nat.sub_le x 1).trans_lt hx, hpred, hafter.pred text hpred⟩

theorem substringS_pass : BackwardPass (substringS text) where
  succ := by
    rintro x ⟨hS, hafter⟩
    have hlen := isS_lt_length hS
    refine ⟨?_, ?_⟩
    · by_cases h : IsS text (x + 1)
      · exact .inr ⟨h, hafter.succ⟩
      · exact .inl ⟨hlen, h, hafter⟩
    · exact ((isS_iff hlen).mp hS).imp_right fun h => ⟨h.1, h.2, hafter.succ⟩
  ord_succ := by
    rintro x y ⟨hx, -⟩ ⟨hy, -⟩ hch
    have hxl := isS_lt_length hx
    have hyl := isS_lt_length hy
    have htyped : typed text x = typed text y := typed_eq_iff.mpr ⟨hch, iff_of_true hx hy⟩
    change toLex (own text x) < toLex (own text y) ↔
      toLex (own text (x + 1)) < toLex (own text (y + 1))
    rw [← cont_of_not_isLMS hxl (not_isLMS_succ_of_isS hx),
      ← cont_of_not_isLMS hyl (not_isLMS_succ_of_isS hy), own, own, htyped, lex_cons_lt_iff]

/-- All LMS positions at the bucket ends, those of one bucket by index. -/
def lmsByIndex : Layout α (α ×ₗ Nat) where
  n := text.length
  ch := ch text
  front _ := False
  back x := IsLMS text x
  ord x := toLex (ch text x, x)
  front_lt h := h.elim
  back_lt h := by have := h.lt_length; omega
  not_back h := h.elim
  ord_of_ch _ _ h := by
    rw [Prod.Lex.toLex_lt_toLex]
    exact .inl h
  ord_of_front_back h := h.elim
  ord_inj _ _ h := by simpa using congrArg (fun k => (ofLex k).2) h

theorem lmsByIndex_after (x : Nat) : (lmsByIndex text).after x =
    Count.cnt text.length fun y => (IsLMS text y ∧ x < y) ∧ ch text y = ch text x := by
  refine Count.cnt_congr fun y _ => ?_
  change IsLMS text y ∧ ch text y = ch text x ∧
    toLex (ch text x, x) < toLex (ch text y, y) ↔ _
  rw [Prod.Lex.toLex_lt_toLex]
  constructor
  · rintro ⟨hl, hch, hlt | ⟨-, hlt⟩⟩
    · exact absurd hlt (hch ▸ lt_irrefl _)
    · exact ⟨⟨hl, hlt⟩, hch⟩
  · rintro ⟨⟨hl, hlt⟩, hch⟩
    exact ⟨hl, hch, .inr ⟨hch.symm, hlt⟩⟩

/-- Leaving out the first LMS position moves none of the others. -/
theorem substringL_pos_back {x : Nat} (h : (substringL text).back x) :
    (substringL text).pos x = (lmsByIndex text).pos x := by
  rw [(substringL text).pos_back h, (lmsByIndex text).pos_back h.1, lmsByIndex_after]
  congr 1
  refine Count.cnt_congr fun y _ => ?_
  change (IsLMS text y ∧ AfterLMS text y) ∧ ch text y = ch text x ∧
    toLex (cont text x) < toLex (cont text y) ↔ _
  have hord : ∀ hy : IsLMS text y, ch text y = ch text x →
      (toLex (cont text x) < toLex (cont text y) ↔ x < y) := by
    intro hy hch
    have htyped : typed text x = typed text y :=
      typed_eq_iff.mpr ⟨hch.symm, iff_of_true h.1.isS hy.isS⟩
    rw [cont_of_isLMS h.1, cont_of_isLMS hy, htyped, lex_cons_lt_iff,
      Prod.Lex.toLex_lt_toLex]
    simp
  constructor
  · rintro ⟨⟨hl, -⟩, hch, hlt⟩
    exact ⟨⟨hl, (hord hl hch).mp hlt⟩, hch⟩
  · rintro ⟨⟨hl, hlt⟩, hch⟩
    obtain ⟨z, hz, hzx⟩ := h.2
    exact ⟨⟨hl, z, hz, by omega⟩, hch, (hord hl hch).mpr hlt⟩

/-- A single LMS position is sorted wherever its bucket ends. -/
theorem suffixL_pos_of_unique {x : Nat} (h : IsLMS text x)
    (hunique : ∀ y, IsLMS text y → y = x) :
    (suffixL text).pos x = (lmsByIndex text).pos x := by
  rw [(suffixL text).pos_back h, (lmsByIndex text).pos_back h]
  congr 1
  have hleft : (suffixL text).after x = 0 := Count.cnt_zero_of_none fun y _ hy => by
    rw [hunique y hy.1] at hy
    exact lt_irrefl _ hy.2.2
  have hright : (lmsByIndex text).after x = 0 := Count.cnt_zero_of_none fun y _ hy => by
    rw [hunique y hy.1] at hy
    exact lt_irrefl _ hy.2.2
  rw [hleft, hright]

/-- L-type positions keep their place between the two passes. -/
theorem substringL_pos_eq {x : Nat} (h : (substringL text).front x) :
    (substringL text).pos x = (substringS text).pos x := by
  rw [(substringL text).pos_front h, (substringS text).pos_front h]
  have hbefore : (substringL text).before x = (substringS text).before x := by
    refine Count.cnt_congr fun y _ => and_congr_right fun hy => and_congr_right fun _ => ?_
    change toLex (cont text y) < toLex (cont text x) ↔ toLex (own text y) < toLex (own text x)
    rw [cont_eq_own_of_not_isS text hy.1 hy.2.1, cont_eq_own_of_not_isS text h.1 h.2.1]
  rw [hbefore]
  rfl

end Substrings

end DirtybirdMiner.Lib.LmsLayouts
