import Mathlib.Data.List.Induction
import Mathlib.Data.List.Nodup
import Mathlib.Data.List.Perm.Basic
import Mathlib.Tactic.Common

/-!
Lists of key and value pairs in the order of insertion, where a second insertion
under a key overwrites the value and keeps the place.  Inserting pairs one after
another keeps the last pair of every key.
-/

namespace DirtybirdMiner.Lib.Entries

variable {κ ν : Type} [DecidableEq κ]

/-- The first entry of the key gets the value; without one a new entry comes last. -/
def insert : List (κ × ν) → κ → ν → List (κ × ν)
  | [], k, v => [(k, v)]
  | (k', v') :: entries, k, v =>
      if k' = k then (k', v) :: entries else (k', v') :: insert entries k v

/-- All pairs, one after another. -/
def insertAll (entries pairs : List (κ × ν)) : List (κ × ν) :=
  pairs.foldl (fun entries p => insert entries p.1 p.2) entries

/-- The pairs whose key does not come again. -/
def lastOfEach : List (κ × ν) → List (κ × ν)
  | [] => []
  | p :: pairs => if p.1 ∈ pairs.map Prod.fst then lastOfEach pairs else p :: lastOfEach pairs

theorem insert_of_notMem {entries : List (κ × ν)} {k : κ} (h : k ∉ entries.map Prod.fst) (v : ν) :
    insert entries k v = entries ++ [(k, v)] := by
  induction entries with
  | nil => rfl
  | cons p entries ih =>
      rw [List.map_cons, List.mem_cons, not_or] at h
      rw [insert, if_neg (Ne.symm h.1), ih h.2, List.cons_append]

theorem insertAll_concat (entries pairs : List (κ × ν)) (p : κ × ν) :
    insertAll entries (pairs ++ [p]) = insert (insertAll entries pairs) p.1 p.2 := by
  simp [insertAll]

/-- Pairs with keys of their own are only appended. -/
theorem insertAll_of_nodup {pairs : List (κ × ν)} (h : (pairs.map Prod.fst).Nodup) :
    insertAll [] pairs = pairs := by
  induction pairs using List.reverseRecOn with
  | nil => rfl
  | append_singleton pairs p ih =>
      rw [List.map_append, List.nodup_append] at h
      rw [insertAll_concat, ih h.1, insert_of_notMem]
      intro hmem
      exact h.2.2 _ hmem _ (by simp) rfl

theorem insert_keys (entries : List (κ × ν)) (k : κ) (v : ν) :
    (insert entries k v).map Prod.fst =
      if k ∈ entries.map Prod.fst then entries.map Prod.fst else entries.map Prod.fst ++ [k] := by
  induction entries with
  | nil => rfl
  | cons p entries ih =>
      rw [insert]
      by_cases hp : p.1 = k
      · simp [hp]
      · rw [if_neg hp, List.map_cons, ih]
        by_cases hk : k ∈ entries.map Prod.fst
        · simp [hk]
        · simp [hk, Ne.symm hp]

theorem insert_keys_nodup {entries : List (κ × ν)} (h : (entries.map Prod.fst).Nodup) (k : κ)
    (v : ν) : ((insert entries k v).map Prod.fst).Nodup := by
  rw [insert_keys]
  split_ifs with hmem
  · exact h
  · rw [← List.concat_eq_append]
    exact h.concat hmem

theorem insert_length_le (entries : List (κ × ν)) (k : κ) (v : ν) :
    (insert entries k v).length ≤ entries.length + 1 := by
  have h := congrArg List.length (insert_keys entries k v)
  rw [List.length_map] at h
  rw [h]
  split_ifs <;> simp

theorem insertAll_keys_nodup (pairs : List (κ × ν)) :
    ((insertAll [] pairs).map Prod.fst).Nodup := by
  induction pairs using List.reverseRecOn with
  | nil => exact List.nodup_nil
  | append_singleton pairs p ih =>
      rw [insertAll_concat]
      exact insert_keys_nodup ih _ _

theorem mem_insert {entries : List (κ × ν)} (h : (entries.map Prod.fst).Nodup) (k : κ) (v : ν)
    (q : κ × ν) : q ∈ insert entries k v ↔ q = (k, v) ∨ (q.1 ≠ k ∧ q ∈ entries) := by
  induction entries with
  | nil => simp [insert]
  | cons p entries ih =>
      rw [List.map_cons, List.nodup_cons] at h
      have hfresh : ∀ q ∈ entries, q.1 ≠ p.1 := fun q hq heq =>
        h.1 (heq ▸ List.mem_map_of_mem hq)
      rw [insert]
      by_cases hp : p.1 = k
      · subst hp
        simp only [if_true, List.mem_cons]
        constructor
        · rintro (rfl | hq)
          · exact .inl rfl
          · exact .inr ⟨hfresh q hq, .inr hq⟩
        · rintro (rfl | ⟨hne, rfl | hq⟩)
          · exact .inl rfl
          · exact absurd rfl hne
          · exact .inr hq
      · rw [if_neg hp, List.mem_cons, List.mem_cons, ih h.2]
        constructor
        · rintro (rfl | rfl | ⟨hne, hq⟩)
          · exact .inr ⟨hp, .inl rfl⟩
          · exact .inl rfl
          · exact .inr ⟨hne, .inr hq⟩
        · rintro (rfl | ⟨hne, rfl | hq⟩)
          · exact .inr (.inl rfl)
          · exact .inl rfl
          · exact .inr (.inr ⟨hne, hq⟩)

theorem lastOfEach_concat_mem (pairs : List (κ × ν)) (p q : κ × ν) :
    q ∈ lastOfEach (pairs ++ [p]) ↔ q = p ∨ (q.1 ≠ p.1 ∧ q ∈ lastOfEach pairs) := by
  induction pairs with
  | nil => simp [lastOfEach]
  | cons r pairs ih =>
      rw [List.cons_append, lastOfEach, lastOfEach]
      have hkeys : r.1 ∈ (pairs ++ [p]).map Prod.fst ↔ r.1 ∈ pairs.map Prod.fst ∨ r.1 = p.1 := by
        simp
      by_cases hr : r.1 ∈ pairs.map Prod.fst
      · rw [if_pos (hkeys.mpr (.inl hr)), if_pos hr, ih]
      · by_cases hp : r.1 = p.1
        · rw [if_pos (hkeys.mpr (.inr hp)), if_neg hr, ih, List.mem_cons]
          constructor
          · rintro (h | ⟨hne, h⟩)
            · exact .inl h
            · exact .inr ⟨hne, .inr h⟩
          · rintro (h | ⟨hne, rfl | h⟩)
            · exact .inl h
            · exact absurd hp hne
            · exact .inr ⟨hne, h⟩
        · rw [if_neg (by rw [hkeys]; tauto), if_neg hr, List.mem_cons, List.mem_cons, ih]
          constructor
          · rintro (rfl | h | ⟨hne, h⟩)
            · exact .inr ⟨hp, .inl rfl⟩
            · exact .inl h
            · exact .inr ⟨hne, .inr h⟩
          · rintro (h | ⟨hne, rfl | h⟩)
            · exact .inr (.inl h)
            · exact .inl rfl
            · exact .inr (.inr ⟨hne, h⟩)

theorem lastOfEach_sublist (pairs : List (κ × ν)) : (lastOfEach pairs).Sublist pairs := by
  induction pairs with
  | nil => exact List.Sublist.refl _
  | cons p pairs ih =>
      rw [lastOfEach]
      split_ifs
      · exact ih.cons p
      · exact ih.cons_cons p

theorem lastOfEach_keys_nodup (pairs : List (κ × ν)) :
    ((lastOfEach pairs).map Prod.fst).Nodup := by
  induction pairs with
  | nil => exact List.nodup_nil
  | cons p pairs ih =>
      rw [lastOfEach]
      split_ifs with hmem
      · exact ih
      · rw [List.map_cons, List.nodup_cons]
        refine ⟨fun hp => hmem ?_, ih⟩
        exact ((lastOfEach_sublist pairs).map Prod.fst).subset hp

/-- What insertion keeps is the last pair of every key. -/
theorem insertAll_perm (pairs : List (κ × ν)) : (insertAll [] pairs).Perm (lastOfEach pairs) := by
  refine (List.perm_ext_iff_of_nodup (insertAll_keys_nodup pairs).of_map
    (lastOfEach_keys_nodup pairs).of_map).mpr ?_
  intro q
  induction pairs using List.reverseRecOn with
  | nil => simp [insertAll, lastOfEach]
  | append_singleton pairs p ih =>
      rw [insertAll_concat, mem_insert (insertAll_keys_nodup pairs), lastOfEach_concat_mem, ih]

theorem insert_map {κ' ν' : Type} [DecidableEq κ'] {f : κ → κ'} (hf : f.Injective) (g : ν → ν')
    (entries : List (κ × ν)) (k : κ) (v : ν) :
    insert (entries.map fun p => (f p.1, g p.2)) (f k) (g v) =
      (insert entries k v).map fun p => (f p.1, g p.2) := by
  induction entries with
  | nil => rfl
  | cons p entries ih =>
      rw [List.map_cons, insert, insert]
      by_cases hp : p.1 = k
      · simp [hp]
      · rw [if_neg hp, if_neg (fun h => hp (hf h)), ih, List.map_cons]

/-- Insertion under renamed keys. -/
theorem insertAll_map {κ' ν' : Type} [DecidableEq κ'] {f : κ → κ'} (hf : f.Injective)
    (g : ν → ν') (pairs : List (κ × ν)) :
    insertAll [] (pairs.map fun p => (f p.1, g p.2)) =
      (insertAll [] pairs).map fun p => (f p.1, g p.2) := by
  induction pairs using List.reverseRecOn with
  | nil => rfl
  | append_singleton pairs p ih =>
      rw [List.map_append, List.map_singleton, insertAll_concat, ih, insert_map hf,
        insertAll_concat]

end DirtybirdMiner.Lib.Entries
