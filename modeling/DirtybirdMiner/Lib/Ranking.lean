import DirtybirdMiner.Lib.Packing

/-!
Naming the elements of a sorted array so that equal keys get one name.  The
first element of every key is its leader, and the name of an element counts the
leaders up to it.  Names then compare as keys do.
-/

namespace DirtybirdMiner.Lib.Ranking

open DirtybirdMiner.Lib.Count
open DirtybirdMiner.Lib.Packing

variable {β : Type}

section

variable (n : Nat) (pos : Nat → Nat) (p : Nat → Prop) (key : Nat → β)

def Leader (z : Nat) : Prop := p z ∧ ∀ y, p y → pos y < pos z → key y ≠ key z

noncomputable def name (x : Nat) : Nat := cnt n fun z => Leader pos p key z ∧ pos z ≤ pos x

noncomputable def leaders : Nat := cnt n (Leader pos p key)

end

section

variable {n : Nat} {pos : Nat → Nat} {p : Nat → Prop} {key : Nat → β} {x : Nat}

/-- Every key has a leader, which lies at or before every element with it. -/
theorem exists_leader (pos : Nat → Nat) (key : Nat → β) (hx : p x) :
    ∃ z, Leader pos p key z ∧ key z = key x ∧ pos z ≤ pos x := by
  induction hm : pos x using Nat.strong_induction_on generalizing x with
  | _ m ih =>
      by_cases hl : Leader pos p key x
      · exact ⟨x, hl, rfl, hm.le⟩
      · unfold Leader at hl
        push Not at hl
        obtain ⟨y, hy, hlt, hkey⟩ := hl hx
        obtain ⟨z, hz, hkz, hle⟩ := ih (pos y) (by omega) hy rfl
        exact ⟨z, hz, hkz.trans hkey, by omega⟩

theorem name_le (x : Nat) : name n pos p key x ≤ leaders n pos p key :=
  cnt_mono fun _ _ hz => hz.1

theorem leaders_le : leaders n pos p key ≤ cnt n p := cnt_mono fun _ _ hz => hz.1

end

/-- Elements at distinct positions, sorted by a key. -/
structure Sorted [LinearOrder β] (n : Nat) (pos : Nat → Nat) (p : Nat → Prop) (key : Nat → β) : Prop
    extends Spread n pos p where
  mono : ∀ {x y}, p x → p y → pos x < pos y → key x ≤ key y

namespace Sorted

variable [LinearOrder β] {n : Nat} {pos : Nat → Nat} {p : Nat → Prop} {key : Nat → β} {x y : Nat}

theorem name_lt_of_key_lt (h : Sorted n pos p key) (hx : p x) (hy : p y) (hlt : key x < key y) :
    name n pos p key x < name n pos p key y := by
  have hpos : ∀ z, p z → key x < key z → pos x < pos z := by
    intro z hz hxz
    by_contra hge
    rcases (not_lt.mp hge).lt_or_eq with hl | he
    · exact absurd (h.mono hz hx hl) hxz.not_ge
    · exact hxz.ne' (congrArg key (h.inj hz hx he))
  obtain ⟨z, hz, hkey, hle⟩ := exists_leader pos key hy
  have hxz := hpos z hz.1 (by rwa [hkey])
  have hxy := hpos y hy hlt
  exact cnt_lt (fun w _ hw => ⟨hw.1, by omega⟩) (h.lt hz.1) (fun hw => by omega) ⟨hz, hle⟩

theorem name_eq_of_key_eq (h : Sorted n pos p key) (hx : p x) (hy : p y) (heq : key x = key y) :
    name n pos p key x = name n pos p key y := by
  -- A leader between two elements of one key would have that key itself.
  have hbetween : ∀ {x y z}, p x → p y → key x = key y → Leader pos p key z →
      pos z ≤ pos y → pos z ≤ pos x := by
    intro x y z hx hy heq hz hle
    by_contra hgt
    have hxz := h.mono hx hz.1 (by omega)
    have hzy : key z ≤ key y := by
      rcases hle.lt_or_eq with hl | he
      · exact h.mono hz.1 hy hl
      · exact (congrArg key (h.inj hz.1 hy he)).le
    exact hz.2 x hx (by omega) (le_antisymm hxz (hzy.trans_eq heq.symm))
  refine cnt_congr fun z _ => and_congr_right fun hz => ?_
  exact ⟨hbetween hy hx heq.symm hz, hbetween hx hy heq hz⟩

theorem name_lt_iff (h : Sorted n pos p key) (hx : p x) (hy : p y) :
    name n pos p key x < name n pos p key y ↔ key x < key y := by
  constructor
  · intro hlt
    rcases lt_trichotomy (key x) (key y) with hl | he | hg
    · exact hl
    · exact absurd (h.name_eq_of_key_eq hx hy he) hlt.ne
    · exact absurd hlt (lt_asymm (h.name_lt_of_key_lt hy hx hg))
  · exact h.name_lt_of_key_lt hx hy

theorem name_pos (h : Sorted n pos p key) (hx : p x) : 0 < name n pos p key x := by
  obtain ⟨z, hz, -, hle⟩ := exists_leader pos key hx
  exact cnt_pos (h.lt hz.1) ⟨hz, hle⟩

/-- With a leader for every element all keys are different. -/
theorem key_inj (h : Sorted n pos p key) (hall : cnt n p ≤ leaders n pos p key) (hx : p x)
    (hy : p y) (heq : key x = key y) : x = y := by
  have hleader : ∀ z, p z → Leader pos p key z := by
    intro z hz
    by_contra hnot
    have : leaders n pos p key < cnt n p :=
      cnt_lt (fun _ _ hw => hw.1) (h.lt hz) hnot hz
    omega
  rcases lt_trichotomy (pos x) (pos y) with hl | he | hg
  · exact absurd heq ((hleader y hy).2 x hx hl)
  · exact h.inj hx hy he
  · exact absurd heq.symm ((hleader x hx).2 y hy hg)

/-- Counting the leaders in position order. -/
theorem count_succ_leader (h : Sorted n pos p key) (hx : Leader pos p key x) :
    (cnt n fun z => Leader pos p key z ∧ pos z < pos x + 1) =
      (cnt n fun z => Leader pos p key z ∧ pos z < pos x) + 1 := by
  refine cnt_insert (h.lt hx.1) (fun hlt => lt_irrefl _ hlt.2) fun z _ => ?_
  constructor
  · rintro ⟨hz, hlt⟩
    rcases (Nat.le_of_lt_succ hlt).lt_or_eq with hl | he
    · exact .inl ⟨hz, hl⟩
    · exact .inr (h.inj hz.1 hx.1 he)
  · rintro (⟨hz, hl⟩ | rfl)
    · exact ⟨hz, by omega⟩
    · exact ⟨hx, by omega⟩

theorem count_succ_other (h : Sorted n pos p key) (hx : p x) (hnot : ¬Leader pos p key x) :
    (cnt n fun z => Leader pos p key z ∧ pos z < pos x + 1) =
      cnt n fun z => Leader pos p key z ∧ pos z < pos x := by
  refine cnt_congr fun z _ => and_congr_right fun hz => ?_
  have hne : pos z ≠ pos x := fun he => hnot (h.inj hz.1 hx he ▸ hz)
  omega

/-- An element after the largest key so far leads if and only if its key is new. -/
theorem leader_iff (h : Sorted n pos p key) (hx : p x) (hy : p y) (hlt : pos y < pos x)
    (hmax : ∀ z, p z → pos z < pos x → key z ≤ key y) :
    Leader pos p key x ↔ key x ≠ key y := by
  constructor
  · exact fun hl heq => hl.2 y hy hlt heq.symm
  · intro hne
    refine ⟨hx, fun z hz hzx heq => hne ?_⟩
    exact le_antisymm (heq ▸ hmax z hz hzx) (h.mono hy hx hlt)

end Sorted

end DirtybirdMiner.Lib.Ranking
