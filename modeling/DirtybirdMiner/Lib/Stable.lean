import Mathlib.Data.List.Sort

/-!
Stable sorts as insertion sorts: two relations that agree on every pair in the
order of the list sort it alike, and a relation that tells the members apart
sorts every permutation alike.
-/

namespace DirtybirdMiner.Lib.Stable

variable {α β : Type}

theorem orderedInsert_congr (r s : α → α → Prop) [DecidableRel r] [DecidableRel s] {a : α}
    {l : List α} (h : ∀ b ∈ l, r a b ↔ s a b) : l.orderedInsert r a = l.orderedInsert s a := by
  induction l with
  | nil => rfl
  | cons b l ih =>
      rw [List.forall_mem_cons] at h
      rw [List.orderedInsert_cons, List.orderedInsert_cons, ih h.2]
      simp only [h.1]

theorem insertionSort_congr (r s : α → α → Prop) [DecidableRel r] [DecidableRel s] {l : List α}
    (h : l.Pairwise fun a b => r a b ↔ s a b) : l.insertionSort r = l.insertionSort s := by
  induction l with
  | nil => rfl
  | cons a l ih =>
      rw [List.pairwise_cons] at h
      rw [List.insertionSort_cons, List.insertionSort_cons, ih h.2]
      apply orderedInsert_congr
      intro b hb
      exact h.1 b ((List.mem_insertionSort s).mp hb)

theorem insertionSort_perm (r : α → α → Prop) [DecidableRel r] [Std.Total r] [IsTrans α r]
    {l l' : List α} (hanti : ∀ a ∈ l, ∀ b ∈ l, r a b → r b a → a = b) (hperm : l.Perm l') :
    l.insertionSort r = l'.insertionSort r := by
  refine List.Perm.eq_of_pairwise ?_ (List.pairwise_insertionSort r l)
    (List.pairwise_insertionSort r l')
    ((List.perm_insertionSort r l).trans (hperm.trans (List.perm_insertionSort r l').symm))
  intro a b ha hb
  exact hanti a ((List.mem_insertionSort r).mp ha) b
    (hperm.mem_iff.mpr ((List.mem_insertionSort r).mp hb))

section Keys

variable (key : α → Nat)

/-- A sort by a key keeps the order of the members of one key. -/
theorem filter_insertionSort (l : List α) (k : Nat) :
    (l.insertionSort fun a b => key a ≤ key b).filter (fun x => key x = k) =
      l.filter fun x => key x = k := by
  have : Std.Total fun a b : α => key a ≤ key b := ⟨fun a b => Nat.le_total (key a) (key b)⟩
  have : IsTrans α fun a b : α => key a ≤ key b := ⟨fun _ _ _ => Nat.le_trans⟩
  have hequal : (l.filter fun x => key x = k).Pairwise fun a b => key a ≤ key b := by
    apply List.pairwise_of_forall_mem_list
    intro a ha b hb
    simp only [List.mem_filter, decide_eq_true_eq] at ha hb
    omega
  have hsub := (List.sublist_insertionSort hequal List.filter_sublist).filter fun x => key x = k
  rw [List.filter_filter] at hsub
  simp only [Bool.and_self] at hsub
  refine (hsub.eq_of_length ?_).symm
  exact ((List.perm_insertionSort _ l).filter _).length_eq.symm

variable {key}

/-- A sorted list is known by the members of each key. -/
theorem eq_of_filter_eq {s t : List α} (hs : s.Pairwise fun a b => key a ≤ key b)
    (ht : t.Pairwise fun a b => key a ≤ key b)
    (h : ∀ k, (s.filter fun x => key x = k) = t.filter fun x => key x = k) : s = t := by
  have hmem : ∀ {s t : List α}, (∀ k, (s.filter fun x => key x = k) =
      t.filter fun x => key x = k) → ∀ x ∈ s, x ∈ t := by
    intro s t h x hx
    have hfilter : x ∈ s.filter fun y => key y = key x := by simp [hx]
    rw [h] at hfilter
    exact List.mem_of_mem_filter hfilter
  induction s generalizing t with
  | nil =>
      cases t with
      | nil => rfl
      | cons b t => exact absurd (hmem (fun k => (h k).symm) b List.mem_cons_self) (by simp)
  | cons a s ih =>
      cases t with
      | nil => exact absurd (hmem h a List.mem_cons_self) (by simp)
      | cons b t =>
          rw [List.pairwise_cons] at hs ht
          have hab : key a ≤ key b := by
            rcases List.mem_cons.mp (hmem (fun k => (h k).symm) b List.mem_cons_self) with rfl | hb
            · exact le_rfl
            · exact hs.1 b hb
          have hba : key b ≤ key a := by
            rcases List.mem_cons.mp (hmem h a List.mem_cons_self) with rfl | ha
            · exact le_rfl
            · exact ht.1 a ha
          have hkey := Nat.le_antisymm hab hba
          have hhead := h (key a)
          rw [List.filter_cons_of_pos (by simp), List.filter_cons_of_pos (by simp [hkey])] at hhead
          obtain ⟨rfl, -⟩ := List.cons_eq_cons.mp hhead
          rw [ih hs.2 ht.2]
          intro k
          have hk := h k
          rcases eq_or_ne (key a) k with heq | hne
          · rw [List.filter_cons_of_pos (by simp [heq]),
              List.filter_cons_of_pos (by simp [heq])] at hk
            exact (List.cons_eq_cons.mp hk).2
          · rwa [List.filter_cons_of_neg (by simp [hne]),
              List.filter_cons_of_neg (by simp [hne])] at hk

/-- What is sorted by a key and keeps the members of each is the stable sort. -/
theorem eq_insertionSort {s l : List α} (hs : s.Pairwise fun a b => key a ≤ key b)
    (h : ∀ k, (s.filter fun x => key x = k) = l.filter fun x => key x = k) :
    s = l.insertionSort fun a b => key a ≤ key b := by
  have : Std.Total fun a b : α => key a ≤ key b := ⟨fun a b => Nat.le_total (key a) (key b)⟩
  have : IsTrans α fun a b : α => key a ≤ key b := ⟨fun _ _ _ => Nat.le_trans⟩
  refine eq_of_filter_eq hs (List.pairwise_insertionSort _ l) ?_
  intro k
  rw [h k, filter_insertionSort]

end Keys

/-- A permutation of the images comes from one of the list. -/
theorem exists_perm_of_map_perm (f : α → β) {l : List α} {images : List β}
    (h : (l.map f).Perm images) : ∃ l' : List α, l.Perm l' ∧ images = l'.map f := by
  generalize hmap : l.map f = source at h
  induction h generalizing l with
  | nil => exact ⟨l, .refl l, hmap.symm⟩
  | cons x _ ih =>
      obtain ⟨a, l, rfl, rfl, htail⟩ := List.map_eq_cons_iff.mp hmap
      obtain ⟨l', hl', rfl⟩ := ih htail
      exact ⟨a :: l', hl'.cons a, rfl⟩
  | swap x y _ =>
      obtain ⟨a, l, rfl, rfl, htail⟩ := List.map_eq_cons_iff.mp hmap
      obtain ⟨b, l, rfl, rfl, rfl⟩ := List.map_eq_cons_iff.mp htail
      exact ⟨b :: a :: l, List.Perm.swap b a l, rfl⟩
  | trans _ _ ih₁ ih₂ =>
      obtain ⟨l₁, h₁, rfl⟩ := ih₁ hmap
      obtain ⟨l₂, h₂, rfl⟩ := ih₂ rfl
      exact ⟨l₂, h₁.trans h₂, rfl⟩

end DirtybirdMiner.Lib.Stable
