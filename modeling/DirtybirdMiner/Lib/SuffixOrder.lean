import Mathlib.Data.List.Lex
import Mathlib.Data.List.Sort
import Mathlib.Tactic.Common

/-!
Suffixes of a text under lexicographic order, a proper prefix before its
extensions, and the division of positions into S-type (smaller than the next
suffix) and L-type (larger than it).
-/

namespace DirtybirdMiner.Lib.SuffixOrder

variable {α : Type} [LinearOrder α]

/-- The positions of the text in strictly increasing order of their suffixes. -/
structure IsSuffixArray (text : List α) (sa : List Nat) : Prop where
  perm : sa.Perm (List.range text.length)
  sorted : sa.Pairwise fun i j => text.drop i < text.drop j

theorem IsSuffixArray.unique {text : List α} {sa sb : List Nat}
    (ha : IsSuffixArray text sa) (hb : IsSuffixArray text sb) : sa = sb := by
  refine List.Perm.eq_of_pairwise ?_ ha.sorted hb.sorted (ha.perm.trans hb.perm.symm)
  intro i j _ _ hij hji
  exact absurd hij (lt_asymm hji)

theorem IsSuffixArray.length_eq {text : List α} {sa : List Nat}
    (h : IsSuffixArray text sa) : sa.length = text.length := by
  simpa using h.perm.length_eq

theorem map_lt_map_iff {β : Type} [LinearOrder β] {f : α → β} (hf : ∀ a b, f a < f b ↔ a < b)
    {s t : List α} : s.map f < t.map f ↔ s < t := by
  have hinj : ∀ a b, f a = f b ↔ a = b := by
    intro a b
    rw [le_antisymm_iff, le_antisymm_iff, ← not_lt, ← not_lt, ← not_lt, ← not_lt, hf, hf]
  induction s generalizing t with
  | nil => cases t <;> simp
  | cons a s ih =>
      cases t with
      | nil => simp
      | cons b t => simp [List.cons_lt_cons_iff, hf, hinj, ih]

/-- Suffix arrays depend on the order of the characters only. -/
theorem isSuffixArray_map_iff {β : Type} [LinearOrder β] {f : α → β}
    (hf : ∀ a b, f a < f b ↔ a < b) {text : List α} {sa : List Nat} :
    IsSuffixArray (text.map f) sa ↔ IsSuffixArray text sa := by
  have hsorted : (sa.Pairwise fun i j => (text.map f).drop i < (text.map f).drop j) ↔
      sa.Pairwise fun i j => text.drop i < text.drop j := by
    simp only [← List.map_drop, map_lt_map_iff hf]
  constructor
  · exact fun h => ⟨by simpa using h.perm, hsorted.mp h.sorted⟩
  · exact fun h => ⟨by simpa using h.perm, hsorted.mpr h.sorted⟩

/-- A list of the positions in increasing order of their suffixes, given by the
rank of each. -/
theorem isSuffixArray_of_rank {text : List α} {r : Nat → Nat} {sa : List Nat}
    (hlen : sa.length = text.length)
    (hiff : ∀ x y, x < text.length → y < text.length →
      (r x < r y ↔ text.drop x < text.drop y))
    (hsurj : ∀ p, p < text.length → ∃ x, x < text.length ∧ r x = p)
    (hsa : ∀ x, x < text.length → sa[r x]? = some x) : IsSuffixArray text sa := by
  have hget : ∀ p x, sa[p]? = some x → x < text.length ∧ r x = p := by
    intro p x hp
    have hplt : p < text.length := by
      rw [← hlen]
      exact (List.getElem?_eq_some_iff.mp hp).1
    obtain ⟨y, hy, rfl⟩ := hsurj p hplt
    rw [hsa y hy, Option.some.injEq] at hp
    rw [← hp]
    exact ⟨hy, rfl⟩
  have hsorted : sa.Pairwise fun i j => text.drop i < text.drop j := by
    rw [List.pairwise_iff_getElem]
    intro i j hi hj hij
    obtain ⟨hx, hrx⟩ := hget i _ (List.getElem?_eq_getElem hi)
    obtain ⟨hy, hry⟩ := hget j _ (List.getElem?_eq_getElem hj)
    exact (hiff _ _ hx hy).mp (by omega)
  refine ⟨?_, hsorted⟩
  have hnodup : sa.Nodup := hsorted.imp fun hlt heq => by
    rw [heq] at hlt
    exact lt_irrefl _ hlt
  refine (List.subperm_of_subset hnodup fun x hx => ?_).perm_of_length_le (by simp [hlen])
  obtain ⟨p, hp, rfl⟩ := List.mem_iff_getElem.mp hx
  exact List.mem_range.mpr (hget p _ (List.getElem?_eq_getElem hp)).1

/-- The suffix at `i` is smaller than the one after it. -/
def IsS (text : List α) (i : Nat) : Prop :=
  text.drop i < text.drop (i + 1)

/-- A leftmost S-type position: an S-type position preceded by an L-type one. -/
def IsLMS (text : List α) (i : Nat) : Prop :=
  0 < i ∧ IsS text i ∧ ¬IsS text (i - 1)

omit [LinearOrder α] in
theorem drop_injective {text : List α} {i j : Nat} (hi : i ≤ text.length)
    (hj : j ≤ text.length) (h : text.drop i = text.drop j) : i = j := by
  have hlen := congrArg List.length h
  simp only [List.length_drop] at hlen
  omega

theorem isS_lt_length {text : List α} {i : Nat} (h : IsS text i) : i + 1 < text.length := by
  by_contra hi
  unfold IsS at h
  rw [List.drop_eq_nil_of_le (by omega : text.length ≤ i + 1)] at h
  exact absurd h (List.not_lt_nil _)

theorem not_isS_iff_lt {text : List α} {i : Nat} (hi : i < text.length) :
    ¬IsS text i ↔ text.drop (i + 1) < text.drop i := by
  unfold IsS
  rw [not_lt]
  constructor
  · intro h
    refine lt_of_le_of_ne h fun heq => ?_
    have := drop_injective (by omega) (by omega) heq
    omega
  · exact le_of_lt

theorem IsLMS.isS {text : List α} {i : Nat} (h : IsLMS text i) : IsS text i := h.2.1

theorem IsLMS.lt_length {text : List α} {i : Nat} (h : IsLMS text i) :
    i + 1 < text.length :=
  isS_lt_length h.2.1

theorem isLMS_succ_iff {text : List α} {i : Nat} :
    IsLMS text (i + 1) ↔ ¬IsS text i ∧ IsS text (i + 1) := by
  simp [IsLMS, and_comm]

/-- An S-type position after an L-type one is leftmost. -/
theorem isLMS_succ {text : List α} {i : Nat} (hL : ¬IsS text i) (hS : IsS text (i + 1)) :
    IsLMS text (i + 1) :=
  isLMS_succ_iff.mpr ⟨hL, hS⟩

theorem not_isLMS_succ_of_isS {text : List α} {i : Nat} (hS : IsS text i) :
    ¬IsLMS text (i + 1) :=
  fun h => (isLMS_succ_iff.mp h).1 hS

/-- A list below its own extension by `c` is below every list above its own. -/
theorem lt_of_lt_cons_of_cons_lt {c : α} {a b : List α} (ha : a < c :: a) (hb : c :: b < b) :
    a < b := by
  induction a generalizing b with
  | nil =>
      cases b with
      | nil => exact absurd hb (List.not_lt_nil _)
      | cons e b => exact List.nil_lt_cons _ _
  | cons d a ih =>
      cases b with
      | nil => exact absurd hb (List.not_lt_nil _)
      | cons e b =>
          rw [List.cons_lt_cons_iff] at ha hb ⊢
          rcases ha with hdc | ⟨rfl, ha⟩
          · rcases hb with hce | ⟨rfl, -⟩
            · exact .inl (hdc.trans hce)
            · exact .inl hdc
          · rcases hb with hce | ⟨rfl, hb⟩
            · exact .inl hce
            · exact .inr ⟨rfl, ih ha hb⟩

variable [Inhabited α]

/-- The character at a position. -/
def ch (text : List α) (i : Nat) : α :=
  text[i]?.getD default

omit [LinearOrder α] in
theorem drop_eq_cons {text : List α} {i : Nat} (hi : i < text.length) :
    text.drop i = ch text i :: text.drop (i + 1) := by
  rw [List.drop_eq_getElem_cons hi, ch, List.getElem?_eq_getElem hi, Option.getD_some]

theorem drop_lt_drop_iff {text : List α} {i j : Nat} (hi : i < text.length)
    (hj : j < text.length) :
    text.drop i < text.drop j ↔ ch text i < ch text j ∨
      ch text i = ch text j ∧ text.drop (i + 1) < text.drop (j + 1) := by
  rw [drop_eq_cons hi, drop_eq_cons hj, List.cons_lt_cons_iff]

theorem drop_lt_drop_iff_of_ch {text : List α} {i j : Nat} (hi : i < text.length)
    (hj : j < text.length) (hch : ch text i = ch text j) :
    text.drop i < text.drop j ↔ text.drop (i + 1) < text.drop (j + 1) := by
  rw [drop_lt_drop_iff hi hj]
  simp [hch]

theorem drop_length_lt_drop {text : List α} {i : Nat} (hi : i < text.length) :
    text.drop text.length < text.drop i := by
  rw [drop_eq_cons hi, List.drop_length]
  exact List.nil_lt_cons _ _

theorem isS_iff {text : List α} {i : Nat} (hi : i + 1 < text.length) :
    IsS text i ↔ ch text i < ch text (i + 1) ∨
      ch text i = ch text (i + 1) ∧ IsS text (i + 1) :=
  drop_lt_drop_iff (by omega) hi

/-- An L-type position's character is at least the next one. -/
theorem ch_succ_le_of_not_isS {text : List α} {i : Nat} (hi : i + 1 < text.length)
    (h : ¬IsS text i) : ch text (i + 1) ≤ ch text i := by
  rw [isS_iff hi] at h
  push Not at h
  exact h.1

/-- An S-type position's character is at most the next one. -/
theorem ch_le_succ_of_isS {text : List α} {i : Nat} (h : IsS text i) :
    ch text i ≤ ch text (i + 1) := by
  rcases (isS_iff (isS_lt_length h)).mp h with hlt | ⟨heq, -⟩
  · exact hlt.le
  · exact heq.le

/-- Among suffixes with one first character the L-type ones come first. -/
theorem drop_lt_drop_of_types {text : List α} {x y : Nat} (hx : x < text.length)
    (hy : y < text.length) (hch : ch text x = ch text y) (hL : ¬IsS text x)
    (hS : IsS text y) : text.drop x < text.drop y := by
  rw [not_isS_iff_lt hx] at hL
  unfold IsS at hS
  rw [drop_eq_cons hx] at hL
  rw [drop_eq_cons hy, ← hch] at hS
  rw [drop_lt_drop_iff hx hy]
  exact .inr ⟨hch, lt_of_lt_cons_of_cons_lt hL hS⟩

/-- The character before a leftmost S-type position is strictly larger. -/
theorem IsLMS.ch_lt {text : List α} {i : Nat} (h : IsLMS text (i + 1)) :
    ch text (i + 1) < ch text i := by
  have hlen := h.lt_length
  have hL : ¬IsS text i := by simpa using h.2.2
  rw [isS_iff (by omega)] at hL
  push Not at hL
  rcases hL.1.lt_or_eq with hlt | heq
  · exact hlt
  · exact absurd h.isS (hL.2 heq.symm)

end DirtybirdMiner.Lib.SuffixOrder
