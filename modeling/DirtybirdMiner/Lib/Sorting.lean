import Mathlib.Data.List.Perm.Basic
import Mathlib.Data.List.Pairwise
import DirtybirdMiner.Lib.Buffers

/-!
Sorting with comparisons that may fail: insertion from the right, the merge of
two lists, and the scatter of a counting sort.  That a result is a permutation
asks of the comparisons only that they return; that it is sorted asks them to
decide an order on the items compared.
-/

namespace DirtybirdMiner.Lib.Sorting

open DirtybirdMiner.Lib.Bytes
open DirtybirdMiner.Lib.Checked
open DirtybirdMiner.Lib.Buffers

variable {α : Type}

section Insertion

variable (before : α → α → Option Bool)

/-- Move `x` in front of the items it goes before, from the last one on.  The
items are given last first. -/
def insertRev (x : α) : List α → Option (List α)
  | [] => some [x]
  | p :: rev => do
      let moves ← before x p
      if moves then do
        let rev ← insertRev x rev
        some (p :: rev)
      else some (x :: p :: rev)

/-- Insert the items one after the other, last first. -/
def insertAllRev : List α → List α → Option (List α)
  | [], rev => some rev
  | x :: items, rev => do
      let rev ← insertRev before x rev
      insertAllRev items rev

def insertionSort (items : List α) : Option (List α) := do
  let rev ← insertAllRev before items []
  some rev.reverse

variable {before}

theorem insertRev_returns {x : α} {rev : List α} (h : ∀ p ∈ rev, (before x p).isSome) :
    Returns (insertRev before x rev) fun r => r.Perm (x :: rev) := by
  induction rev with
  | nil => exact Returns.pure (List.Perm.refl _)
  | cons p rev ih =>
      obtain ⟨moves, hmoves⟩ := Option.isSome_iff_exists.mp (h p List.mem_cons_self)
      rw [insertRev, hmoves]
      cases moves with
      | false => exact Returns.pure (List.Perm.refl _)
      | true =>
          simp only [Option.bind_eq_bind, Option.bind_some, if_true]
          refine Returns.bind (ih fun q hq => h q (List.mem_cons_of_mem _ hq)) ?_
          intro r hr
          exact Returns.pure ((hr.cons p).trans (List.Perm.swap x p rev))

theorem insertRev_sorted {S : α → α → Prop} (htrans : ∀ a b c, S a b → S b c → S a c) {x : α}
    {rev r : List α} (hrev : rev.Pairwise fun a b => S b a)
    (hbefore : ∀ p ∈ rev, before x p = some true ∧ S x p ∨ before x p = some false ∧ S p x)
    (h : insertRev before x rev = some r) : r.Pairwise fun a b => S b a := by
  induction rev generalizing r with
  | nil =>
      cases h
      exact List.pairwise_singleton _ _
  | cons p rev ih =>
      obtain ⟨hp, hrest⟩ := List.pairwise_cons.mp hrev
      rcases hbefore p List.mem_cons_self with ⟨hmoves, hS⟩ | ⟨hmoves, hS⟩
      · have hin : ∀ q ∈ rev, before x q = some true ∧ S x q ∨ before x q = some false ∧ S q x :=
          fun q hq => hbefore q (List.mem_cons_of_mem _ hq)
        obtain ⟨r', hr', hperm⟩ : Returns (insertRev before x rev) fun r => r.Perm (x :: rev) :=
          insertRev_returns fun q hq => by
            rcases hin q hq with ⟨h, -⟩ | ⟨h, -⟩ <;> rw [h] <;> rfl
        rw [insertRev, hmoves] at h
        simp only [Option.bind_eq_bind, Option.bind_some, if_true, hr', Option.some.injEq] at h
        subst h
        refine List.pairwise_cons.mpr ⟨?_, ih hrest hin hr'⟩
        intro q hq
        rcases List.mem_cons.mp (hperm.mem_iff.mp hq) with rfl | hq
        · exact hS
        · exact hp q hq
      · rw [insertRev, hmoves] at h
        cases h
        refine List.pairwise_cons.mpr ⟨?_, hrev⟩
        intro q hq
        rcases List.mem_cons.mp hq with rfl | hq
        · exact hS
        · exact htrans _ _ _ (hp q hq) hS

theorem insertAllRev_returns {items rev : List α}
    (h : ∀ x ∈ items, ∀ p ∈ rev ++ items, (before x p).isSome) :
    Returns (insertAllRev before items rev) fun r => r.Perm (rev ++ items) := by
  induction items generalizing rev with
  | nil => exact Returns.pure (by simp)
  | cons x items ih =>
      refine Returns.bind (insertRev_returns fun p hp => h x List.mem_cons_self p
        (List.mem_append_left _ hp)) ?_
      intro rev' hperm
      have hall : (rev' ++ items).Perm (rev ++ x :: items) :=
        (hperm.append_right items).trans List.perm_middle.symm
      refine Returns.mono (ih fun y hy p hp => ?_) fun r hr => hr.trans hall
      exact h y (List.mem_cons_of_mem _ hy) p (hall.mem_iff.mp hp)

theorem insertionSort_returns {items : List α}
    (h : ∀ x ∈ items, ∀ p ∈ items, (before x p).isSome) :
    Returns (insertionSort before items) fun r => r.Perm items := by
  refine Returns.bind (insertAllRev_returns fun x hx p hp => h x hx p (by simpa using hp)) ?_
  intro rev hperm
  exact Returns.pure ((List.reverse_perm rev).trans (by simpa using hperm))

/-- Items that come in an order `R` leave in the order `S`, when the comparison of
an item with one that came before it decides between them. -/
theorem insertionSort_sorted {R S : α → α → Prop} (htrans : ∀ a b c, S a b → S b c → S a c)
    {items sorted : List α} (hR : items.Pairwise R)
    (hbefore : ∀ p ∈ items, ∀ x ∈ items, R p x →
      before x p = some true ∧ S x p ∨ before x p = some false ∧ S p x)
    (h : insertionSort before items = some sorted) : sorted.Pairwise S := by
  suffices hrev : ∀ todo rev r, (∀ p ∈ rev, ∀ x ∈ todo, R p x) → todo.Pairwise R →
      (∀ p ∈ rev ++ todo, p ∈ items) → rev.Pairwise (fun a b => S b a) →
      insertAllRev before todo rev = some r → r.Pairwise fun a b => S b a by
    obtain ⟨r, hr, hsorted⟩ := Option.bind_eq_some_iff.mp h
    obtain rfl := Option.some.inj hsorted
    exact List.pairwise_reverse.mpr (hrev items [] r (by simp) hR (by simp) List.Pairwise.nil hr)
  intro todo
  induction todo with
  | nil =>
      intro rev r _ _ _ hrev hr
      cases hr
      exact hrev
  | cons x todo ih =>
      intro rev r hcross htodo hmem hrev hr
      obtain ⟨hx, htodo⟩ := List.pairwise_cons.mp htodo
      obtain ⟨rev', hrev', hr'⟩ := Option.bind_eq_some_iff.mp hr
      have hdecide : ∀ p ∈ rev,
          before x p = some true ∧ S x p ∨ before x p = some false ∧ S p x :=
        fun p hp => hbefore p (hmem p (by simp [hp])) x (hmem x (by simp))
          (hcross p hp x List.mem_cons_self)
      have hperm : rev'.Perm (x :: rev) := by
        obtain ⟨r', hr', hperm⟩ : Returns (insertRev before x rev) fun r => r.Perm (x :: rev) :=
          insertRev_returns fun q hq => by
            rcases hdecide q hq with ⟨h, -⟩ | ⟨h, -⟩ <;> rw [h] <;> rfl
        rwa [Option.some.inj (hr'.symm.trans hrev')] at hperm
      refine ih rev' r ?_ htodo ?_ (insertRev_sorted htrans hrev hdecide hrev') hr'
      · intro p hp y hy
        rcases List.mem_cons.mp (hperm.mem_iff.mp hp) with rfl | hp
        · exact hx y hy
        · exact hcross p hp y (List.mem_cons_of_mem _ hy)
      · intro p hp
        rcases List.mem_append.mp hp with hp | hp
        · rcases List.mem_cons.mp (hperm.mem_iff.mp hp) with rfl | hp
          · exact hmem p (by simp)
          · exact hmem p (by simp [hp])
        · exact hmem p (by simp [hp])

/-- Where no item goes before another, nothing moves. -/
theorem insertionSort_of_never {items : List α}
    (h : ∀ x ∈ items, ∀ p ∈ items, before x p = some false) :
    insertionSort before items = some items := by
  suffices hrev : ∀ todo rev, (∀ x ∈ rev ++ todo, x ∈ items) →
      insertAllRev before todo rev = some (todo.reverse ++ rev) by
    rw [insertionSort, hrev items [] (by simp)]
    simp
  intro todo
  induction todo with
  | nil => intro rev _; rfl
  | cons x todo ih =>
      intro rev hmem
      have hinsert : insertRev before x rev = some (x :: rev) := by
        cases rev with
        | nil => rfl
        | cons p rev =>
            rw [insertRev, h x (hmem x (by simp)) p (hmem p (by simp))]
            rfl
      rw [insertAllRev, hinsert, Option.bind_eq_bind, Option.bind_some, ih]
      · rw [List.reverse_cons, List.append_assoc, List.singleton_append]
      · intro y hy
        apply hmem y
        simp only [List.cons_append, List.mem_cons, List.mem_append] at hy ⊢
        tauto

end Insertion

section Merging

variable (less : α → α → Option Bool)

/-- Take from the left list while its head is less. -/
def merge : List α → List α → Option (List α)
  | [], right => some right
  | l :: left, [] => some (l :: left)
  | l :: left, r :: right => do
      let takeLeft ← less l r
      if takeLeft then do
        let out ← merge left (r :: right)
        some (l :: out)
      else do
        let out ← merge (l :: left) right
        some (r :: out)
termination_by left right => left.length + right.length

variable {less}

theorem merge_returns {left right : List α} (h : ∀ l ∈ left, ∀ r ∈ right, (less l r).isSome) :
    Returns (merge less left right) fun out => out.Perm (left ++ right) := by
  induction left, right using merge.induct with
  | case1 right =>
      rw [merge]
      exact Returns.pure (List.Perm.refl _)
  | case2 l left =>
      rw [merge]
      exact Returns.pure (by simp)
  | case3 l left r right ihleft ihright =>
      obtain ⟨takeLeft, htake⟩ := Option.isSome_iff_exists.mp
        (h l List.mem_cons_self r List.mem_cons_self)
      rw [merge, htake]
      cases takeLeft with
      | true =>
          simp only [Option.bind_eq_bind, Option.bind_some, if_true]
          refine Returns.bind (ihleft fun a ha b hb => h a (List.mem_cons_of_mem _ ha) b hb) ?_
          intro out hout
          exact Returns.pure (hout.cons l)
      | false =>
          simp only [Option.bind_eq_bind, Option.bind_some, Bool.false_eq_true, if_false]
          refine Returns.bind (ihright fun a ha b hb => h a ha b (List.mem_cons_of_mem _ hb)) ?_
          intro out hout
          exact Returns.pure ((hout.cons r).trans List.perm_middle.symm)

theorem merge_sorted {S : α → α → Prop} (htrans : ∀ a b c, S a b → S b c → S a c)
    {left right out : List α} (hleft : left.Pairwise S) (hright : right.Pairwise S)
    (hless : ∀ l ∈ left, ∀ r ∈ right, less l r = some true ∧ S l r ∨ less l r = some false ∧ S r l)
    (h : merge less left right = some out) : out.Pairwise S := by
  induction left, right using merge.induct generalizing out with
  | case1 right =>
      rw [merge] at h
      cases h
      exact hright
  | case2 l left =>
      rw [merge] at h
      cases h
      exact hleft
  | case3 l left r right ihleft ihright =>
      obtain ⟨hl, hleft'⟩ := List.pairwise_cons.mp hleft
      obtain ⟨hr, hright'⟩ := List.pairwise_cons.mp hright
      have hsome : ∀ a ∈ l :: left, ∀ b ∈ r :: right, (less a b).isSome := fun a ha b hb => by
        rcases hless a ha b hb with ⟨h, -⟩ | ⟨h, -⟩ <;> rw [h] <;> rfl
      rw [merge] at h
      rcases hless l List.mem_cons_self r List.mem_cons_self with ⟨htake, hS⟩ | ⟨htake, hS⟩
      · rw [htake] at h
        simp only [Option.bind_eq_bind, Option.bind_some, if_true] at h
        obtain ⟨out', hout', hcons⟩ := Option.bind_eq_some_iff.mp h
        obtain rfl := Option.some.inj hcons
        refine List.pairwise_cons.mpr ⟨?_, ihleft hleft' hright
          (fun a ha => hless a (List.mem_cons_of_mem _ ha)) hout'⟩
        obtain ⟨out'', hout'', hperm⟩ := merge_returns
          fun a ha => hsome a (List.mem_cons_of_mem l ha)
        obtain rfl := Option.some.inj (hout'.symm.trans hout'')
        intro b hb
        rcases List.mem_append.mp (hperm.mem_iff.mp hb) with hb | hb
        · exact hl b hb
        · rcases List.mem_cons.mp hb with rfl | hb
          · exact hS
          · exact htrans _ _ _ hS (hr b hb)
      · rw [htake] at h
        simp only [Option.bind_eq_bind, Option.bind_some, Bool.false_eq_true, if_false] at h
        obtain ⟨out', hout', hcons⟩ := Option.bind_eq_some_iff.mp h
        obtain rfl := Option.some.inj hcons
        refine List.pairwise_cons.mpr ⟨?_, ihright hleft hright'
          (fun a ha b hb => hless a ha b (List.mem_cons_of_mem _ hb)) hout'⟩
        obtain ⟨out'', hout'', hperm⟩ := merge_returns
          fun a ha b hb => hsome a ha b (List.mem_cons_of_mem r hb)
        obtain rfl := Option.some.inj (hout'.symm.trans hout'')
        intro b hb
        rcases List.mem_append.mp (hperm.mem_iff.mp hb) with hb | hb
        · rcases List.mem_cons.mp hb with rfl | hb
          · exact hS
          · exact htrans _ _ _ hS (hl b hb)
        · exact hr b hb

end Merging

section Counting

variable (digit : α → Nat)

/-- The items of each digit in turn. -/
def bucketed (k : Nat) (items : List α) : List α :=
  (List.range k).flatMap fun b => items.filter fun x => digit x = b

/-- The running totals in front of each entry, from `sum` on. -/
def exclusiveSums : Nat → List Nat → List Nat
  | _, [] => []
  | sum, c :: counts => sum :: exclusiveSums (sum + c) counts

/-- Write each item to the next free slot of its digit. -/
def scatter : List α → List Nat → List α → Option (List Nat × List α)
  | [], slots, dst => some (slots, dst)
  | x :: items, slots, dst => do
      let slot ← slots[digit x]?
      let dst ← writeAt dst slot [x]
      scatter items (slots.set (digit x) (slot + 1)) dst

/-- The slots that the scatter writes to, in turn. -/
def scatterTargets : List α → List Nat → Option (List Nat)
  | [], _ => some []
  | x :: items, slots => do
      let slot ← slots[digit x]?
      let targets ← scatterTargets items (slots.set (digit x) (slot + 1))
      some (slot :: targets)

variable {digit}

/-- A counting sort keeps the order of the items of one kind, if they have one digit. -/
theorem filter_bucketed {k c : Nat} {p : α → Bool} (hc : c < k) {items : List α}
    (h : ∀ x ∈ items, p x = true → digit x = c) :
    (bucketed digit k items).filter p = items.filter p := by
  have hbucket : ∀ b, (items.filter fun x => digit x = b).filter p =
      if b = c then items.filter p else [] := by
    intro b
    rw [List.filter_filter]
    split
    · rename_i hb
      apply List.filter_congr
      intro x hx
      cases hp : p x with
      | false => rfl
      | true => simp [h x hx hp, hb]
    · rename_i hb
      rw [List.filter_eq_nil_iff]
      intro x hx
      cases hp : p x with
      | false => simp
      | true => simp [h x hx hp, Ne.symm hb]
  rw [bucketed, List.filter_flatMap]
  simp only [hbucket]
  obtain ⟨d, rfl⟩ : ∃ d, k = c + (d + 1) := ⟨k - c - 1, by omega⟩
  rw [List.range_add, List.range_succ_eq_map, List.flatMap_append, List.map_cons,
    List.flatMap_cons, List.flatMap_eq_nil_iff.mpr, List.flatMap_eq_nil_iff.mpr]
  · simp
  · intro b hb
    rw [if_neg]
    simp only [List.map_map, List.mem_map, List.mem_range] at hb
    obtain ⟨i, -, rfl⟩ := hb
    simp
  · intro b hb
    rw [if_neg (List.mem_range.mp hb).ne]

/-- What a scatter writes to lies in the destination. -/
theorem scatterTargets_lt {items dst : List α} {slots : List Nat} {r : List Nat × List α}
    (h : scatter digit items slots dst = some r) :
    ∃ targets, scatterTargets digit items slots = some targets ∧ ∀ i ∈ targets, i < dst.length := by
  induction items generalizing slots dst with
  | nil => exact ⟨[], rfl, by simp⟩
  | cons x items ih =>
      obtain ⟨slot, hslot, h⟩ := Option.bind_eq_some_iff.mp h
      obtain ⟨dst', hdst', h⟩ := Option.bind_eq_some_iff.mp h
      rw [writeAt] at hdst'
      split at hdst'
      · rename_i hfits
        cases hdst'
        obtain ⟨targets, htargets, hlt⟩ := ih h
        rw [copyAt_length hfits] at hlt
        rw [List.length_singleton] at hfits
        refine ⟨slot :: targets, ?_, ?_⟩
        · rw [scatterTargets, hslot]
          simp only [Option.bind_eq_bind, Option.bind_some, htargets]
        · rw [List.forall_mem_cons]
          exact ⟨by omega, hlt⟩
      · cases hdst'

theorem bucketed_perm {k : Nat} {items : List α} (h : ∀ x ∈ items, digit x < k) :
    (bucketed digit k items).Perm items := by
  suffices hk : ∀ k, (bucketed digit k items).Perm (items.filter fun x => digit x < k) by
    refine (hk k).trans ?_
    rw [List.filter_eq_self.mpr fun x hx => by simpa using h x hx]
  intro k
  induction k with
  | zero => simp [bucketed]
  | succ k ih =>
      have hsplit := List.filter_append_perm (fun x => decide (digit x < k))
        (items.filter fun x => digit x < k + 1)
      rw [List.filter_filter, List.filter_filter] at hsplit
      refine List.Perm.trans ?_ hsplit
      rw [bucketed, List.range_succ, List.flatMap_append, List.flatMap_singleton]
      refine (List.Perm.append ih (List.Perm.refl _)).trans (List.Perm.of_eq ?_)
      congr 1
      · apply List.filter_congr
        intro x _
        rw [← Bool.decide_and, decide_eq_decide]
        omega
      · apply List.filter_congr
        intro x _
        rw [← decide_not, ← Bool.decide_and, decide_eq_decide]
        omega

variable (digit) in
/-- A counting sort keeps the order of items of the same digit. -/
theorem bucketed_pairwise {R : α → α → Prop} {items : List α} (k : Nat) (h : items.Pairwise R) :
    (bucketed digit k items).Pairwise fun x y =>
      digit x < digit y ∨ digit x = digit y ∧ R x y := by
  rw [bucketed, List.pairwise_flatMap]
  refine ⟨?_, ?_⟩
  · intro b _
    have hsub : (items.filter fun x => digit x = b).Pairwise R := h.filter _
    refine List.Pairwise.imp_of_mem ?_ hsub
    intro x y hx hy hxy
    simp only [List.mem_filter, decide_eq_true_eq] at hx hy
    exact .inr ⟨hx.2.trans hy.2.symm, hxy⟩
  · refine List.Pairwise.imp ?_ List.pairwise_lt_range
    intro b c hbc x hx y hy
    simp only [List.mem_filter, decide_eq_true_eq] at hx hy
    exact .inl (by omega)

variable (digit) in
/-- How many items have each digit. -/
def histogram (k : Nat) (items : List α) : List Nat :=
  (List.range k).map fun b => items.countP fun x => digit x = b

theorem histogram_perm {k : Nat} {items items' : List α} (h : items.Perm items') :
    histogram digit k items = histogram digit k items' := by
  rw [histogram, histogram]
  apply List.map_congr_left
  intro b _
  exact h.countP_eq _

theorem histogram_concat (k : Nat) (items : List α) (x : α) :
    histogram digit k (items ++ [x]) =
      (histogram digit k items).modify (digit x) (· + 1) := by
  apply List.ext_getElem?
  intro b
  rw [List.getElem?_modify, histogram, histogram, List.getElem?_map, List.getElem?_map]
  rcases Nat.lt_or_ge b k with hb | hb
  · rw [List.getElem?_range hb]
    by_cases hx : digit x = b
    · simp [hx]
    · simp [hx]
  · rw [List.getElem?_eq_none (by simpa using hb)]
    simp

theorem bucketed_succ_length (b : Nat) (items : List α) :
    (bucketed digit (b + 1) items).length =
      (bucketed digit b items).length + (items.filter fun x => digit x = b).length := by
  simp [bucketed, List.range_succ]

theorem bucketed_length_mono {b c : Nat} (items : List α) (h : b ≤ c) :
    (bucketed digit b items).length ≤ (bucketed digit c items).length := by
  induction c, h using Nat.le_induction with
  | base => exact le_rfl
  | succ c _ ih =>
      rw [bucketed_succ_length]
      omega

theorem exclusiveSums_length (counts : List Nat) (sum : Nat) :
    (exclusiveSums sum counts).length = counts.length := by
  induction counts generalizing sum with
  | nil => rfl
  | cons c counts ih => rw [exclusiveSums, List.length_cons, List.length_cons, ih]

theorem exclusiveSums_getElem? (counts : List Nat) (sum b : Nat) (hb : b < counts.length) :
    (exclusiveSums sum counts)[b]? = some (sum + (counts.take b).sum) := by
  induction counts generalizing sum b with
  | nil => simp at hb
  | cons c counts ih =>
      cases b with
      | zero => simp [exclusiveSums]
      | succ b =>
          rw [exclusiveSums, List.getElem?_cons_succ, ih _ _ (by simpa using hb), List.take_succ_cons,
            List.sum_cons, Nat.add_assoc]

theorem histogram_sum_take {k b : Nat} (items : List α) (hb : b ≤ k) :
    ((histogram digit k items).take b).sum = (bucketed digit b items).length := by
  rw [histogram, ← List.map_take, List.take_range, min_eq_left hb, bucketed, List.length_flatMap]
  simp only [List.countP_eq_length_filter]

variable (digit) in
/-- The state of the scatter when `done` has been written. -/
structure Scattered (k : Nat) (items done : List α) (slots : List Nat) (dst dst' : List α) :
    Prop where
  slot : ∀ b < k, slots[b]? = some ((bucketed digit b items).length +
    (done.filter fun x => digit x = b).length)
  bucket : ∀ b < k, slice dst' (bucketed digit b items).length
    (done.filter fun x => digit x = b).length = done.filter fun x => digit x = b
  length : dst'.length = dst.length
  rest : dst'.drop items.length = dst.drop items.length

theorem filter_length_le {done todo : List α} {x : α} (b : Nat) :
    (done.filter fun y => digit y = b).length + (if digit x = b then 1 else 0) ≤
      ((done ++ x :: todo).filter fun y => digit y = b).length := by
  rw [List.filter_append, List.filter_cons, List.length_append]
  by_cases hb : digit x = b
  · simp [hb]
  · simp [hb]

theorem scatter_step {k : Nat} {items done todo : List α} {x : α} {slots : List Nat}
    {dst dst' : List α} (hitems : items = done ++ x :: todo) (hk : ∀ y ∈ items, digit y < k)
    (hlen : items.length ≤ dst.length) (h : Scattered digit k items done slots dst dst') :
    ∃ slot dst'', slots[digit x]? = some slot ∧ writeAt dst' slot [x] = some dst'' ∧
      Scattered digit k items (done ++ [x]) (slots.set (digit x) (slot + 1)) dst dst'' := by
  have hx : digit x < k := hk x (by simp [hitems])
  have hfill : ∀ b, (done.filter fun y => digit y = b).length + (if digit x = b then 1 else 0) ≤
      (items.filter fun y => digit y = b).length := by
    intro b
    rw [hitems]
    exact filter_length_le b
  have hend : (bucketed digit (digit x + 1) items).length ≤ items.length := by
    rw [← (bucketed_perm hk).length_eq]
    exact bucketed_length_mono items hx
  have hroom := hfill (digit x)
  rw [if_pos rfl] at hroom
  rw [bucketed_succ_length] at hend
  have hfits : (bucketed digit (digit x) items).length +
      (done.filter fun y => digit y = digit x).length + [x].length ≤ dst'.length := by
    rw [h.length, List.length_singleton]
    omega
  refine ⟨_, _, h.slot _ hx, writeAt_eq_some hfits, ?_⟩
  refine ⟨?_, ?_, ?_, ?_⟩
  · intro b hb
    by_cases hbx : digit x = b
    · subst hbx
      rw [List.getElem?_set_self (List.getElem?_eq_some_iff.mp (h.slot _ hx)).1]
      simp
      omega
    · rw [List.getElem?_set_ne hbx, h.slot b hb]
      simp [hbx]
  · intro b hb
    by_cases hbx : digit x = b
    · subst hbx
      rw [List.filter_append, List.filter_cons, if_pos (by simp), List.filter_nil,
        List.length_append, List.length_singleton, slice_add, slice_copyAt_before hfits le_rfl,
        h.bucket _ hb]
      congr 1
      exact slice_copyAt_self hfits
    · rw [show (done ++ [x]).filter (fun y => decide (digit y = b)) =
        done.filter fun y => decide (digit y = b) by simp [hbx]]
      rcases Nat.lt_or_gt_of_ne hbx with hlt | hgt
      · have hle : (bucketed digit (digit x + 1) items).length ≤ (bucketed digit b items).length :=
          bucketed_length_mono items hlt
        rw [bucketed_succ_length] at hle
        rw [slice_copyAt_after hfits (by rw [List.length_singleton]; omega), h.bucket b hb]
      · have hle : (bucketed digit (b + 1) items).length ≤
            (bucketed digit (digit x) items).length := bucketed_length_mono items hgt
        have hfillb := hfill b
        rw [bucketed_succ_length] at hle
        rw [slice_copyAt_before hfits (by omega), h.bucket b hb]
  · rw [copyAt_length hfits, h.length]
  · rw [drop_copyAt hfits (by rw [List.length_singleton]; omega), h.rest]

theorem scatter_loop_returns {k : Nat} {items dst : List α} (hk : ∀ y ∈ items, digit y < k)
    (hlen : items.length ≤ dst.length) (todo done : List α) (slots : List Nat) (dst' : List α)
    (hitems : items = done ++ todo) (h : Scattered digit k items done slots dst dst') :
    Returns (scatter digit todo slots dst') fun r =>
      Scattered digit k items items r.1 dst r.2 := by
  induction todo generalizing done slots dst' with
  | nil =>
      obtain rfl : items = done := by simpa using hitems
      exact Returns.pure h
  | cons x todo ih =>
      obtain ⟨slot, dst'', hslot, hwrite, hnext⟩ := scatter_step hitems hk hlen h
      rw [scatter, hslot]
      simp only [Option.bind_eq_bind, Option.bind_some, hwrite]
      exact ih (done ++ [x]) _ dst'' (by simpa using hitems) hnext

/-- From the counts of the digits, the scatter is a counting sort into the front
of the destination. -/
theorem scatter_returns {k : Nat} {items dst : List α} (hk : ∀ y ∈ items, digit y < k)
    (hlen : items.length ≤ dst.length) :
    Returns (scatter digit items (exclusiveSums 0 (histogram digit k items)) dst) fun r =>
      r.2 = bucketed digit k items ++ dst.drop items.length := by
  have hstart : Scattered digit k items [] (exclusiveSums 0 (histogram digit k items)) dst dst := by
    refine ⟨?_, by simp, rfl, rfl⟩
    intro b hb
    rw [exclusiveSums_getElem? _ _ _ (by simpa [histogram] using hb),
      histogram_sum_take items hb.le]
    simp
  refine Returns.mono (scatter_loop_returns hk hlen items [] _ dst rfl hstart) ?_
  rintro ⟨slots, dst'⟩ h
  dsimp only at h ⊢
  have htake : ∀ b ≤ k, dst'.take (bucketed digit b items).length = bucketed digit b items := by
    intro b hb
    induction b with
    | zero => simp [bucketed]
    | succ b ih =>
        rw [bucketed_succ_length, take_eq_slice, slice_add, Nat.zero_add, ← take_eq_slice,
          ih (by omega), h.bucket b (by omega)]
        simp [bucketed, List.range_succ]
  have hall := htake k le_rfl
  rw [(bucketed_perm hk).length_eq] at hall
  rw [← h.rest, ← hall, List.take_append_drop]

end Counting

end DirtybirdMiner.Lib.Sorting
