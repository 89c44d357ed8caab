import Mathlib.Data.List.Nodup
import Mathlib.Data.List.Range
import Mathlib.Data.List.TakeWhile
import DirtybirdMiner.V114.Runs

/-!
The columns of a run of groups.  A group is 256 positions, a column takes the
same position of each group, and the columns are sorted from the last one down:
one insertion by the leading byte turns the order of a column into the order of
the column before it.
-/

namespace DirtybirdMiner.V114.Columns

open DirtybirdMiner.Lib.Bytes
open DirtybirdMiner.Lib.Checked
open DirtybirdMiner.Lib.Buffers
open DirtybirdMiner.Lib.Sorting
open DirtybirdMiner.Lib.LexCompare
open DirtybirdMiner.V114.Model
open DirtybirdMiner.V114.Order
open DirtybirdMiner.V114.Runs

section Coverage

/-- The position `rel` of each of `g` groups. -/
def column (base g rel : Nat) : List Nat := (List.range g).map fun chunk => base + chunk <<< 8 + rel

/-- The positions of the columns from `rel` on. -/
def covered (base g rel : Nat) : List Nat :=
  (List.range' base (256 * g)).filter fun p => rel ≤ p % 256

theorem mem_column {base g rel p : Nat} :
    p ∈ column base g rel ↔ ∃ chunk < g, p = base + 256 * chunk + rel := by
  simp only [column, List.mem_map, List.mem_range, Nat.shiftLeft_eq, Nat.mul_comm _ (2 ^ 8)]
  constructor
  · rintro ⟨chunk, hchunk, rfl⟩
    exact ⟨chunk, hchunk, rfl⟩
  · rintro ⟨chunk, hchunk, rfl⟩
    exact ⟨chunk, hchunk, rfl⟩

theorem column_nodup (base g rel : Nat) : (column base g rel).Nodup := by
  refine List.Nodup.map ?_ List.nodup_range
  intro a b hab
  simp only [Nat.shiftLeft_eq] at hab
  omega

@[simp] theorem column_length (base g rel : Nat) : (column base g rel).length = g := by
  simp [column]

theorem column_succ (base g rel : Nat) :
    column base g (rel + 1) = (column base g rel).map (· + 1) := by
  rw [column, column, List.map_map]
  rfl

theorem column_zero_map (base g rel : Nat) :
    (column base g 0).map (· + rel) = column base g rel := by
  rw [column, column, List.map_map]
  apply List.map_congr_left
  intro chunk _
  rfl

theorem covered_top (base g : Nat) : covered base g 256 = [] := by
  rw [covered, List.filter_eq_nil_iff]
  intro p _
  have := Nat.mod_lt p (show 256 > 0 by decide)
  simpa using this

theorem covered_all (base g : Nat) : covered base g 0 = List.range' base (256 * g) := by
  simp [covered]

/-- The columns from `rel` on are those behind it and the column itself. -/
theorem covered_step {base : Nat} (hbase : base % 256 = 0) (g : Nat) {rel : Nat}
    (hrel : rel < 256) :
    (covered base g (rel + 1) ++ column base g rel).Perm (covered base g rel) := by
  have hnodup : ∀ rel, (covered base g rel).Nodup := fun rel => List.Nodup.filter _ List.nodup_range'
  rw [List.perm_ext_iff_of_nodup _ (hnodup rel)]
  · intro p
    simp only [List.mem_append, covered, List.mem_filter, List.mem_range'_1, mem_column,
      decide_eq_true_eq]
    constructor
    · rintro (h | ⟨chunk, hchunk, rfl⟩)
      · omega
      · omega
    · rintro ⟨hp, hmod⟩
      rcases Nat.lt_or_ge rel (p % 256) with h | h
      · exact .inl ⟨hp, h⟩
      · exact .inr ⟨(p - base) / 256, by omega, by omega⟩
  · refine List.nodup_append'.mpr ⟨hnodup _, column_nodup base g rel, ?_⟩
    intro p hp hcol
    simp only [covered, List.mem_filter, List.mem_range'_1, decide_eq_true_eq] at hp
    obtain ⟨chunk, hchunk, rfl⟩ := mem_column.mp hcol
    omega

theorem covered_length_le (base g rel : Nat) : (covered base g rel).length ≤ 256 * g := by
  rw [covered]
  exact (List.length_filter_le _ _).trans (by rw [List.length_range'])

theorem range_append_range' (a b : Nat) : List.range a ++ List.range' a b = List.range (a + b) := by
  have happend := List.range'_append_1 (s := 0) (m := a) (n := b)
  rwa [Nat.zero_add, ← List.range_eq_range', ← List.range_eq_range'] at happend

/-- Room for one more column. -/
theorem room_of_covered {base g rel n : Nat} {positions : List Nat} (hbase : base % 256 = 0)
    (hrel : rel < 256) (hpositions : positions.length = base) (hfit : base + 256 * g ≤ n) :
    (positions ++ covered base g (rel + 1)).length + g ≤ n := by
  have hlength := (covered_step hbase g hrel).length_eq
  have hle := covered_length_le base g rel
  rw [List.length_append, column_length] at hlength
  rw [List.length_append]
  omega

end Coverage

section Scanning

theorem mapM_eq_some {α β : Type} {f : α → Option β} {g : α → β} {l : List α}
    (h : ∀ x ∈ l, f x = some (g x)) : l.mapM f = some (l.map g) := by
  induction l with
  | nil => rfl
  | cons x l ih =>
      rw [List.mapM_cons, h x List.mem_cons_self, ih fun y hy => h y (List.mem_cons_of_mem x hy)]
      rfl

/-- A block may start here: the key before is another one. -/
def Break (keys : List Nat) (first : Nat) : Prop :=
  ∀ j, j + 1 = first → first < keys.length → keys[j]? ≠ keys[first]?

/-- The key changes behind all keys that are equal to the first. -/
theorem break_takeWhile {keys rest : List Nat} {first key : Nat}
    (hdrop : keys.drop first = key :: rest) :
    Break keys (first + (1 + (rest.takeWhile (· = key)).length)) := by
  intro j hj hlt heq
  have hstop := List.head?_dropWhile_not (fun k => decide (k = key)) rest
  generalize hwhile : rest.takeWhile (· = key) = same at hj hlt heq
  generalize hother : rest.dropWhile (· = key) = other at hstop
  have hrest : rest = same ++ other := by
    rw [← hwhile, ← hother, List.takeWhile_append_dropWhile]
  have hget : ∀ i, keys[first + i]? = (key :: rest)[i]? := by
    intro i
    rw [← hdrop, List.getElem?_drop]
  have hlast : keys[j]? = some key := by
    obtain rfl : j = first + same.length := by omega
    rw [hget, hrest, ← List.cons_append, List.getElem?_append_left (by simp)]
    have hall : ∀ k ∈ key :: same, k = key := by
      intro k hk
      rcases List.mem_cons.mp hk with rfl | hk
      · rfl
      · rw [← hwhile] at hk
        simpa using List.mem_takeWhile_imp hk
    rw [List.getElem?_eq_getElem (by simp), hall _ (List.getElem_mem _)]
  rw [hlast, hget, hrest, Nat.add_comm 1, List.getElem?_cons_succ,
    List.getElem?_append_right le_rfl, Nat.sub_self] at heq
  cases other with
  | nil => cases heq
  | cons k other =>
      obtain rfl : key = k := Option.some.inj heq
      simp at hstop

/-- The scan hands out blocks of equal keys that follow one another, and no block could be
longer. -/
theorem forGroups_returns {σ : Type} {keys : List Nat} {body : Nat → Nat → Nat → σ → Option σ}
    (inv : Nat → σ → Prop) (s : σ) (hinit : inv 0 s)
    (hstep : ∀ key first count s, 0 < count → first + count ≤ keys.length →
      (∀ k ∈ slice keys first count, k = key) → Break keys first → inv first s →
      Returns (body key first count s) (inv (first + count))) :
    Returns (forGroups keys body keys.length 0 s) (inv keys.length) := by
  suffices h : ∀ fuel first s, keys.length ≤ fuel + first → first ≤ keys.length →
      Break keys first → inv first s →
      Returns (forGroups keys body fuel first s) (inv keys.length) from
    h keys.length 0 s (by omega) (by omega) (fun j hj => absurd hj (Nat.succ_ne_zero j)) hinit
  intro fuel
  induction fuel with
  | zero =>
      intro first s hfuel hfirst _ hinv
      obtain rfl : first = keys.length := by omega
      rw [forGroups, if_neg (by omega)]
      exact Returns.pure hinv
  | succ fuel ih =>
      intro first s hfuel hfirst hbreak hinv
      rw [forGroups]
      split
      · rename_i hdrop
        obtain rfl : first = keys.length := by
          have := List.drop_eq_nil_iff.mp hdrop
          omega
        exact Returns.pure hinv
      · rename_i key rest hdrop
        have hlen : keys.length - first = rest.length + 1 := by
          rw [← List.length_drop, hdrop, List.length_cons]
        have hwhile := (rest.takeWhile_sublist (· = key)).length_le
        have hblock : slice keys first (1 + (rest.takeWhile (· = key)).length) =
            key :: rest.takeWhile (· = key) := by
          rw [slice, hdrop, Nat.add_comm, List.take_succ_cons,
            ← List.prefix_iff_eq_take.mp (List.takeWhile_prefix _)]
        refine Returns.bind (hstep key first _ s (by omega) (by omega) ?_ hbreak hinv) ?_
        · rw [hblock]
          intro k hk
          rcases List.mem_cons.mp hk with rfl | hk
          · rfl
          · simpa using List.mem_takeWhile_imp hk
        · intro s' hs'
          exact ih _ s' (by omega) (by omega) (break_takeWhile hdrop) hs'

/-- One block, where all keys are equal. -/
theorem forGroups_equal {σ : Type} {keys : List Nat} {body : Nat → Nat → Nat → σ → Option σ}
    {key : Nat} (hne : keys ≠ []) (h : ∀ k ∈ keys, k = key) (s : σ) :
    forGroups keys body keys.length 0 s = body key 0 keys.length s := by
  obtain ⟨k, rest, rfl⟩ := List.exists_cons_of_ne_nil hne
  rw [List.forall_mem_cons] at h
  obtain ⟨rfl, hrest⟩ := h
  have hall : rest.takeWhile (· = k) = rest :=
    List.takeWhile_eq_self_iff.mpr fun x hx => by simpa using hrest x hx
  have hend : ∀ s, forGroups (k :: rest) body rest.length (rest.length + 1) s = some s := by
    intro s
    cases hlen : rest.length with
    | zero => rw [forGroups, if_neg (by rw [List.length_cons, hlen]; omega)]
    | succ fuel =>
        rw [forGroups, ← hlen, ← List.length_cons (a := k), List.drop_length]
  rw [List.length_cons, forGroups, List.drop_zero]
  simp only [hall, Nat.zero_add, Nat.add_comm 1]
  cases hbody : body k 0 (rest.length + 1) s with
  | none => rfl
  | some s' => exact hend s'

end Scanning

section Sorting

variable {data : List UInt8} {n : Nat}

/-- A comparison of suffixes sorts distinct positions. -/
theorem sortBy_returns {cmp : Nat → Nat → Option Ordering} {items : List Nat}
    (hcmp : ∀ p ∈ items, ∀ q ∈ items, cmp p q = some (lexCmp (suffix data n p) (suffix data n q)))
    (hlen : n ≤ data.length) (hbound : ∀ p ∈ items, p < n) (hnodup : items.Nodup) :
    Returns (sortBy cmp items) fun r =>
      r.Perm items ∧ r.Pairwise fun p q => suffix data n p < suffix data n q := by
  obtain ⟨r, hr, hperm⟩ : Returns (sortBy cmp items) fun r => r.Perm items :=
    insertionSort_returns fun x hx p hp => by simp [hcmp x hx p hp]
  refine ⟨r, hr, hperm, insertionSort_sorted
    (S := fun p q => suffix data n p < suffix data n q) (fun _ _ _ => lt_trans) hnodup ?_ hr⟩
  intro p hp x hx hne
  simp only [hcmp x hx p hp, Option.bind_eq_bind, Option.bind_some, Option.some.injEq,
    decide_eq_true_eq, decide_eq_false_iff_not, lexCmp_eq_lt_iff]
  rcases lt_trichotomy (suffix data n x) (suffix data n p) with hlt | heq | hgt
  · exact .inl ⟨hlt, hlt⟩
  · exact absurd (suffix_inj hlen (hbound x hx).le (hbound p hp).le heq).symm hne
  · exact .inr ⟨hgt.not_gt, hgt⟩

/-- One insertion by the leading byte takes the order of the suffixes behind it to
the order of the suffixes from it on. -/
theorem reorderByLeadingByte_returns {order : List Nat} {rel : Nat} (hlen : n ≤ data.length)
    (hbound : ∀ p ∈ order, p + rel < n)
    (hsorted : order.Pairwise fun p q =>
      suffix data n (p + rel + 1) < suffix data n (q + rel + 1)) :
    Returns (reorderByLeadingByte data rel order) fun r =>
      r.Perm order ∧ r.Pairwise fun p q => suffix data n (p + rel) < suffix data n (q + rel) := by
  obtain ⟨r, hr, hperm⟩ : Returns (reorderByLeadingByte data rel order) fun r => r.Perm order :=
    insertionSort_returns fun x hx p hp => by
      obtain ⟨b, hb, -⟩ := suffix_cons hlen (hbound x hx)
      obtain ⟨c, hc, -⟩ := suffix_cons hlen (hbound p hp)
      simp [hb, hc]
  refine ⟨r, hr, hperm, insertionSort_sorted
    (S := fun p q => suffix data n (p + rel) < suffix data n (q + rel)) (fun _ _ _ => lt_trans)
    hsorted ?_ hr⟩
  intro p hp x hx hlt
  obtain ⟨b, hb, hsb⟩ := suffix_cons hlen (hbound x hx)
  obtain ⟨c, hc, hsc⟩ := suffix_cons hlen (hbound p hp)
  simp only [hb, hc, Option.bind_eq_bind, Option.bind_some, Option.some.injEq,
    decide_eq_true_eq, decide_eq_false_iff_not, gt_iff_lt, hsb, hsc, List.cons_lt_cons_iff]
  rcases lt_trichotomy b.toNat c.toNat with h | h | h
  · exact .inl ⟨UInt8.lt_iff_toNat_lt.mpr h, .inl h⟩
  · refine .inr ⟨?_, .inr ⟨h.symm, hlt⟩⟩
    rw [UInt8.lt_iff_toNat_lt]
    omega
  · refine .inr ⟨?_, .inl h⟩
    rw [UInt8.lt_iff_toNat_lt]
    omega

/-- Where all leading bytes agree no insertion is needed. -/
theorem sorted_of_equal_bytes {order : List Nat} {rel : Nat} (hlen : n ≤ data.length)
    (hbound : ∀ p ∈ order, p + rel < n) {b : UInt8} (hbytes : ∀ p ∈ order, data[p + rel]? = some b)
    (hsorted : order.Pairwise fun p q =>
      suffix data n (p + rel + 1) < suffix data n (q + rel + 1)) :
    order.Pairwise fun p q => suffix data n (p + rel) < suffix data n (q + rel) := by
  refine List.Pairwise.imp_of_mem ?_ hsorted
  intro p q hp hq hlt
  obtain ⟨c, hc, hsc⟩ := suffix_cons hlen (hbound p hp)
  obtain ⟨d, hd, hsd⟩ := suffix_cons hlen (hbound q hq)
  obtain rfl := Option.some.inj ((hbytes p hp).symm.trans hc)
  obtain rfl := Option.some.inj ((hbytes q hq).symm.trans hd)
  rw [hsc, hsd, List.cons_lt_cons_iff]
  exact .inr ⟨rfl, hlt⟩

end Sorting

/-- The positions of a column in the order of their suffixes. -/
structure SortedColumn (data : List UInt8) (n base g rel : Nat) (col : List Nat) : Prop where
  perm : col.Perm (column base g rel)
  sorted : col.Pairwise fun p q => suffix data n p < suffix data n q

section SortedColumns

variable {data : List UInt8} {n base g rel : Nat} {col : List Nat}

theorem SortedColumn.length (h : SortedColumn data n base g rel col) : col.length = g := by
  rw [h.perm.length_eq, column_length]

/-- The columns stay inside the groups. -/
theorem SortedColumn.bound (h : SortedColumn data n base g rel col) (hrel : rel < 256)
    (hfit : base + 256 * g ≤ n) {p : Nat} (hp : p ∈ col) : p < n := by
  obtain ⟨chunk, hchunk, rfl⟩ := mem_column.mp (h.perm.mem_iff.mp hp)
  omega

/-- A block of a column with one key may share a run. -/
theorem SortedColumn.runOf (h : SortedColumn data n base g rel col) (hrel : rel < 256)
    (hfit : base + 256 * g ≤ n) (hlen : n + 3 ≤ data.length) {key first count : Nat}
    (hkey : ∀ p ∈ slice col first count, keyAt data p = key) :
    RunOf data n (stage5RadixOrderKey key) (slice col first count) where
  bound := fun p hp => h.bound hrel hfit (mem_of_mem_slice hp)
  key := by
    intro p hp
    have hbound := h.bound hrel hfit (mem_of_mem_slice hp)
    rw [← hkey p hp, stage5RadixOrderKey_keyAt (by omega)]
  sorted := (h.sorted.sublist (List.drop_sublist _ _)).sublist (List.take_sublist _ _)

theorem SortedColumn.pos (h : SortedColumn data n base g (rel + 1) col) {p : Nat} (hp : p ∈ col) :
    0 < p := by
  obtain ⟨chunk, -, rfl⟩ := mem_column.mp (h.perm.mem_iff.mp hp)
  omega

theorem SortedColumn.stepBack (h : SortedColumn data n base g (rel + 1) col) :
    (col.map fun pos => pos - 1).Perm (column base g rel) := by
  have hperm := h.perm.map fun pos => pos - 1
  rw [column_succ, List.map_map] at hperm
  simpa [Function.comp_def] using hperm

/-- The last column, sorted by full comparisons. -/
theorem sortBy_seedOrder {cmp : Nat → Nat → Option Ordering} (hlen : n ≤ data.length)
    (hfit : base + 256 * g ≤ n)
    (hcmp : ∀ p < n, ∀ q < n, cmp p q = some (lexCmp (suffix data n p) (suffix data n q))) :
    Returns (sortBy cmp (seedOrder base g)) (SortedColumn data n base g 255) := by
  have hbound : ∀ p ∈ seedOrder base g, p < n := by
    intro p hp
    obtain ⟨chunk, hchunk, rfl⟩ := mem_column.mp hp
    omega
  have hsort := sortBy_returns (fun p hp q hq => hcmp p (hbound p hp) q (hbound q hq)) hlen hbound
    (column_nodup base g 255)
  exact hsort.mono fun r hr => ⟨hr.1, hr.2⟩

end SortedColumns

end DirtybirdMiner.V114.Columns
