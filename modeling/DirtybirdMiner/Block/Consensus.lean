import DirtybirdMiner.Block.Blocks
import Mathlib.Data.List.Dedup
import Mathlib.Data.List.Perm.Lattice

/-!
The rules on the miniblocks of a block, from `verify_miniblocks` in
`block/src/block.rs` and `MiniBlocksCollection` in `block/src/miniblock.rs`.  The hash map
of the collection is a list of entries with distinct keys; nothing depends on their order.
-/

namespace DirtybirdMiner.Block.Consensus

open DirtybirdMiner.Lib.Bytes
open DirtybirdMiner.Block.MiniBlocks (MiniBlock u32At)
open DirtybirdMiner.Block.Blocks

section Collection

structure MiniBlockKey where
  height : UInt64
  past0 : UInt32
  past1 : UInt32
deriving DecidableEq

def getKey (mbl : MiniBlock) : MiniBlockKey where
  height := mbl.height
  past0 := mbl.past.1
  past1 := mbl.past.2

/-- `HashMap<MiniBlockKey, Vec<MiniBlock>>`. -/
abbrev Collection : Type := List (MiniBlockKey × List MiniBlock)

namespace Collection

def count (c : Collection) : Nat := (c.map fun entry => entry.2.length).sum

def get (c : Collection) (key : MiniBlockKey) : Option (List MiniBlock) :=
  (c.find? fun entry => entry.1 = key).map Prod.snd

def isCollision (c : Collection) (mbl : MiniBlock) : Bool :=
  match c.get (getKey mbl) with
  | none => false
  | some v => v.any fun m => m = mbl

/-- `entry(key).or_default().push(mbl)`. -/
def pushUnder : Collection → MiniBlockKey → MiniBlock → Collection
  | [], key, mbl => [(key, [mbl])]
  | (k, v) :: c, key, mbl =>
      if k = key then (k, v ++ [mbl]) :: c else (k, v) :: pushUnder c key mbl

def insertMiniblock (c : Collection) (mbl : MiniBlock) : Except String Collection :=
  if mbl.final then .error "Final cannot be inserted"
  else if c.isCollision mbl then .error "collision"
  else .ok (c.pushUnder (getKey mbl) mbl)

/-- All that is held. -/
def held (c : Collection) : List MiniBlock := c.flatMap Prod.snd

/-- Every miniblock is held under its key, and every key once. -/
structure Keyed (c : Collection) : Prop where
  keys_nodup : (c.map Prod.fst).Nodup
  under_key : ∀ entry ∈ c, ∀ mbl ∈ entry.2, getKey mbl = entry.1

theorem count_eq (c : Collection) : c.count = c.held.length := by
  rw [count, held, List.length_flatMap]

theorem Keyed.nil : Keyed [] := ⟨List.nodup_nil, by simp⟩

theorem pushUnder_keys (c : Collection) (key : MiniBlockKey) (mbl : MiniBlock) :
    (c.pushUnder key mbl).map Prod.fst =
      if key ∈ c.map Prod.fst then c.map Prod.fst else c.map Prod.fst ++ [key] := by
  induction c with
  | nil => simp [pushUnder]
  | cons entry c ih =>
      obtain ⟨k, v⟩ := entry
      rw [pushUnder]
      split
      · rename_i heq
        simp [heq]
      · rename_i hne
        rw [List.map_cons, ih]
        have hne' : ¬key = k := fun h => hne h.symm
        simp only [List.map_cons, List.mem_cons, hne', false_or]
        split <;> simp

theorem mem_pushUnder {c : Collection} {key : MiniBlockKey} {mbl : MiniBlock}
    {entry : MiniBlockKey × List MiniBlock} (h : entry ∈ c.pushUnder key mbl) :
    entry ∈ c ∨ entry.1 = key ∧ ∀ m ∈ entry.2, m = mbl ∨ ∃ v, (key, v) ∈ c ∧ m ∈ v := by
  induction c with
  | nil =>
      rw [pushUnder, List.mem_singleton] at h
      rw [h]
      exact .inr ⟨rfl, by simp⟩
  | cons head c ih =>
      obtain ⟨k, v⟩ := head
      rw [pushUnder] at h
      split at h
      · rename_i heq
        rcases List.mem_cons.mp h with rfl | hrest
        · refine .inr ⟨heq, ?_⟩
          intro m hm
          rcases List.mem_append.mp hm with hold | hnew
          · exact .inr ⟨v, by rw [heq]; exact List.mem_cons_self, hold⟩
          · exact .inl (List.mem_singleton.mp hnew)
        · exact .inl (List.mem_cons_of_mem _ hrest)
      · rcases List.mem_cons.mp h with rfl | hrest
        · exact .inl List.mem_cons_self
        · rcases ih hrest with hmem | ⟨hkey, hall⟩
          · exact .inl (List.mem_cons_of_mem _ hmem)
          · refine .inr ⟨hkey, fun m hm => ?_⟩
            rcases hall m hm with heq | ⟨v', hv', hm'⟩
            · exact .inl heq
            · exact .inr ⟨v', List.mem_cons_of_mem _ hv', hm'⟩

theorem Keyed.pushUnder {c : Collection} (h : Keyed c) (mbl : MiniBlock) :
    Keyed (c.pushUnder (getKey mbl) mbl) := by
  constructor
  · rw [pushUnder_keys]
    split
    · exact h.keys_nodup
    · rename_i hnew
      rw [List.nodup_append]
      refine ⟨h.keys_nodup, List.nodup_singleton _, ?_⟩
      intro k hk k' hk' heq
      rw [List.mem_singleton] at hk'
      exact hnew (by rw [← hk', ← heq]; exact hk)
  · intro entry hentry m hm
    rcases mem_pushUnder hentry with hold | ⟨hkey, hall⟩
    · exact h.under_key entry hold m hm
    · rcases hall m hm with rfl | ⟨v, hv, hmv⟩
      · exact hkey.symm
      · exact (h.under_key _ hv m hmv).trans hkey.symm

theorem held_pushUnder (c : Collection) (key : MiniBlockKey) (mbl : MiniBlock) :
    (c.pushUnder key mbl).held.Perm (mbl :: c.held) := by
  induction c with
  | nil => exact List.Perm.refl _
  | cons head c ih =>
      obtain ⟨k, v⟩ := head
      rw [pushUnder]
      split
      · change (v ++ [mbl] ++ held c).Perm (mbl :: (v ++ held c))
        rw [List.append_assoc, List.singleton_append]
        exact List.perm_middle
      · change (v ++ held (pushUnder c key mbl)).Perm (mbl :: (v ++ held c))
        exact (List.Perm.append_left v ih).trans List.perm_middle

theorem isCollision_iff {c : Collection} (h : Keyed c) (mbl : MiniBlock) :
    c.isCollision mbl = true ↔ mbl ∈ c.held := by
  have hmem : mbl ∈ c.held ↔ ∃ entry ∈ c, mbl ∈ entry.2 := List.mem_flatMap
  rw [hmem]
  unfold isCollision
  cases hget : c.get (getKey mbl) with
  | none =>
      simp only [Bool.false_eq_true, false_iff]
      rintro ⟨entry, hentry, hm⟩
      have hnone := Option.map_eq_none_iff.mp hget
      rw [List.find?_eq_none] at hnone
      exact hnone entry hentry (by simpa using (h.under_key entry hentry mbl hm).symm)
  | some v =>
      obtain ⟨entry, hfind, rfl⟩ := Option.map_eq_some_iff.mp hget
      have hentry := List.mem_of_find?_eq_some hfind
      have hkey : entry.1 = getKey mbl := by simpa using List.find?_some hfind
      simp only [List.any_eq_true, decide_eq_true_eq, exists_eq_right]
      refine ⟨fun hm => ⟨entry, hentry, hm⟩, ?_⟩
      rintro ⟨other, hother, hm⟩
      have hsame : other.1 = entry.1 := (h.under_key other hother mbl hm).symm.trans hkey.symm
      rwa [← List.inj_on_of_nodup_map h.keys_nodup hother hentry hsame]

/-- What the collection holds after some miniblocks were offered to it: each of those that are
not final, once. -/
structure Collected (c : Collection) (offered : List MiniBlock) : Prop where
  keyed : Keyed c
  held_nodup : c.held.Nodup
  mem_held : ∀ mbl, mbl ∈ c.held ↔ mbl ∈ offered ∧ mbl.final = false

theorem Collected.nil : Collected [] [] := ⟨Keyed.nil, List.nodup_nil, by simp [held]⟩

/-- `let _ = collection.insert_miniblock(mbl)`. -/
def offer (c : Collection) (mbl : MiniBlock) : Collection :=
  match c.insertMiniblock mbl with
  | .error _ => c
  | .ok c => c

theorem Collected.offer {c : Collection} {offered : List MiniBlock} (h : Collected c offered)
    (mbl : MiniBlock) : Collected (c.offer mbl) (offered ++ [mbl]) := by
  unfold Collection.offer insertMiniblock
  split
  · rename_i hinsert
    refine ⟨h.keyed, h.held_nodup, fun m => ?_⟩
    rw [h.mem_held, List.mem_append, List.mem_singleton]
    -- A final miniblock is ignored, and a collision is already held.
    split at hinsert
    · rename_i hfinal
      refine ⟨fun hm => ⟨.inl hm.1, hm.2⟩, ?_⟩
      rintro ⟨hm | rfl, hnot⟩
      · exact ⟨hm, hnot⟩
      · rw [hfinal] at hnot
        cases hnot
    · split at hinsert
      · rename_i hcollision
        have hheld := (h.mem_held mbl).mp ((isCollision_iff h.keyed mbl).mp hcollision)
        refine ⟨fun hm => ⟨.inl hm.1, hm.2⟩, ?_⟩
        rintro ⟨hm | rfl, hnot⟩
        · exact ⟨hm, hnot⟩
        · exact hheld
      · cases hinsert
  · rename_i hinsert
    split at hinsert
    · cases hinsert
    rename_i hfinal
    split at hinsert
    · cases hinsert
    rename_i hcollision
    cases hinsert
    have hperm := held_pushUnder c (getKey mbl) mbl
    refine ⟨h.keyed.pushUnder mbl, ?_, fun m => ?_⟩
    · rw [hperm.nodup_iff, List.nodup_cons]
      exact ⟨fun hm => hcollision ((isCollision_iff h.keyed mbl).mpr hm), h.held_nodup⟩
    · rw [hperm.mem_iff, List.mem_cons, h.mem_held, List.mem_append, List.mem_singleton]
      constructor
      · rintro (rfl | hm)
        · exact ⟨.inr rfl, by simpa using hfinal⟩
        · exact ⟨.inl hm.1, hm.2⟩
      · rintro ⟨hm | rfl, hnot⟩
        · exact .inr ⟨hm, hnot⟩
        · exact .inl rfl

/-- The count is the number of different miniblocks that are not final. -/
theorem Collected.count_eq {c : Collection} {offered : List MiniBlock} (h : Collected c offered) :
    c.count = (offered.filter fun mbl => mbl.final = false).dedup.length := by
  rw [Collection.count_eq]
  apply List.Perm.length_eq
  rw [List.perm_ext_iff_of_nodup h.held_nodup (List.nodup_dedup _)]
  intro mbl
  rw [h.mem_held, List.mem_dedup, List.mem_filter, decide_eq_true_iff]

end Collection

end Collection

section Rules

/-- `BLOCK_TIME`. -/
def blockTime : Nat := 18

/-- `MINIBLOCK_HIGHDIFF`. -/
def miniblockHighdiff : Nat := 9

/-- `MINIBLOCK_COUNT_SOFT_HF_HEIGHT`. -/
def miniblockCountSoftHfHeight : UInt64 := 399000

variable {G : Type}

/-- The checks of one miniblock. -/
def checkMiniblock (b : Block G) (mbl : MiniBlock) : Except String Unit :=
  if b.height ≠ mbl.height then
    .error ("MiniBlock has invalid height block height " ++ toString b.height ++
      " mbl height " ++ toString mbl.height)
  else if b.tips.length ≠ mbl.pastCount.toNat then .error "MiniBlock has wrong number of tips"
  else
    match b.tips with
    | [] => .error "all miniblocks genesis must point to tip"
    | [tip] => if u32At tip.1 0 ≠ mbl.past.1 then .error "MiniBlock has invalid tip" else .ok ()
    | _ => .error "we only support 1 tips"

/-- `for mbl in &self.miniblocks`. -/
def collectMiniblocks (b : Block G) : Collection → List MiniBlock → Except String Collection
  | collection, [] => .ok collection
  | collection, mbl :: mbls => do
      checkMiniblock b mbl
      collectMiniblocks b (collection.offer mbl) mbls

def verifyMiniblocks (b : Block G) : Except String Unit :=
  if b.height = 0 ∧ b.miniblocks ≠ [] then .error "Genesis block cannot have miniblocks"
  else if b.height = 0 then .ok ()
  else if b.miniblocks = [] then .error "All blocks except genesis must have miniblocks"
  else if (b.miniblocks.filter fun mbl => mbl.final).length < 1 then .error "No final miniblock"
  else
    let expected := blockTime - miniblockHighdiff + 1
    if b.miniblocks.length ≠ expected then
      .error ("incorrect number of miniblocks expected " ++ toString expected ++
        " actual " ++ toString b.miniblocks.length)
    else do
      let collection ← collectMiniblocks b [] b.miniblocks
      let want := blockTime - miniblockHighdiff
      if b.height ≥ miniblockCountSoftHfHeight ∧ collection.count ≠ want then
        .error ("block contains invalid number of miniblocks count " ++
          toString collection.count ++ " expected " ++ toString want)
      else .ok ()

/-- The miniblocks of a block that is not the first: ten, one of them final, all of them on
the block's only tip. -/
structure Linked (b : Block G) : Prop where
  length_eq : b.miniblocks.length = 10
  final : ∃ mbl ∈ b.miniblocks, mbl.final = true
  linked : ∃ tip, b.tips = [tip] ∧ ∀ mbl ∈ b.miniblocks,
    mbl.height = b.height ∧ mbl.pastCount = 1 ∧ mbl.past.1 = u32At tip.1 0

/-- From the soft fork on, nine different ones and the final one. -/
structure Counted (b : Block G) : Prop where
  open_length : (b.miniblocks.filter fun mbl => mbl.final = false).length = 9
  open_nodup : (b.miniblocks.filter fun mbl => mbl.final = false).Nodup
  final_length : (b.miniblocks.filter fun mbl => mbl.final).length = 1

/-- The blocks that are meant to pass. -/
def Intended (b : Block G) : Prop :=
  (b.height = 0 ∧ b.miniblocks = []) ∨
    (0 < b.height ∧ Linked b ∧ (miniblockCountSoftHfHeight ≤ b.height → Counted b))

theorem checkMiniblock_eq_ok (b : Block G) (mbl : MiniBlock) :
    checkMiniblock b mbl = .ok () ↔
      ∃ tip, b.tips = [tip] ∧ mbl.height = b.height ∧ mbl.pastCount = 1 ∧
        mbl.past.1 = u32At tip.1 0 := by
  unfold checkMiniblock
  split
  · rename_i hheight
    refine ⟨by simp, ?_⟩
    rintro ⟨tip, -, heq, -⟩
    exact absurd heq.symm hheight
  rename_i hheight
  split
  · rename_i hcount
    refine ⟨by simp, ?_⟩
    rintro ⟨tip, htips, -, hone, -⟩
    rw [htips, hone] at hcount
    exact absurd rfl hcount
  rename_i hcount
  split
  · rename_i htips
    rw [htips]
    simp
  · rename_i tip htips
    rw [htips] at hcount ⊢
    have hone : mbl.pastCount = 1 := by
      apply UInt8.toNat_inj.mp
      exact (not_not.mp hcount).symm
    split
    · rename_i hpast
      refine ⟨by simp, ?_⟩
      rintro ⟨tip', htip', -, -, heq⟩
      cases htip'
      exact absurd heq.symm hpast
    · rename_i hpast
      refine ⟨fun _ => ⟨tip, rfl, (not_not.mp hheight).symm, hone, (not_not.mp hpast).symm⟩, ?_⟩
      exact fun _ => rfl
  · rename_i hother
    refine ⟨by simp, ?_⟩
    rintro ⟨tip, htips, -⟩
    exact absurd htips (hother tip)

/-- The loop: every miniblock passes, and all are offered to the collection. -/
theorem collectMiniblocks_eq_ok (b : Block G) {c : Collection} {offered : List MiniBlock}
    (h : c.Collected offered) (mbls : List MiniBlock) (r : Collection) :
    collectMiniblocks b c mbls = .ok r →
      (∀ mbl ∈ mbls, checkMiniblock b mbl = .ok ()) ∧ r.Collected (offered ++ mbls) := by
  induction mbls generalizing c offered with
  | nil =>
      rintro ⟨⟩
      exact ⟨by simp, by rwa [List.append_nil]⟩
  | cons mbl mbls ih =>
      intro hok
      rw [collectMiniblocks] at hok
      cases hcheck : checkMiniblock b mbl with
      | error e =>
          rw [hcheck] at hok
          cases hok
      | ok _ =>
          rw [hcheck] at hok
          obtain ⟨hall, hcollected⟩ := ih (h.offer mbl) hok
          rw [List.append_assoc] at hcollected
          exact ⟨List.forall_mem_cons.mpr ⟨hcheck, hall⟩, hcollected⟩

theorem collectMiniblocks_of_ok (b : Block G) (c : Collection) {mbls : List MiniBlock}
    (h : ∀ mbl ∈ mbls, checkMiniblock b mbl = .ok ()) :
    ∃ r, collectMiniblocks b c mbls = .ok r := by
  induction mbls generalizing c with
  | nil => exact ⟨c, rfl⟩
  | cons mbl mbls ih =>
      rw [List.forall_mem_cons] at h
      obtain ⟨r, hr⟩ := ih (c.offer mbl) h.2
      exact ⟨r, by rw [collectMiniblocks, h.1]; exact hr⟩

/-- Nine different miniblocks among nine: no two of the nine are equal. -/
theorem dedup_length_eq {open_ : List MiniBlock} (hle : open_.length ≤ 9) :
    open_.dedup.length = 9 ↔ open_.length = 9 ∧ open_.Nodup := by
  constructor
  · intro hlen
    have hsub := List.dedup_sublist open_
    have hlen' : open_.length = 9 := le_antisymm hle (hlen ▸ hsub.length_le)
    have heq := hsub.eq_of_length (hlen.trans hlen'.symm)
    refine ⟨hlen', ?_⟩
    rw [← heq]
    exact List.nodup_dedup _
  · rintro ⟨hlen, hnodup⟩
    rw [hnodup.dedup, hlen]

theorem filter_lengths (mbls : List MiniBlock) :
    (mbls.filter fun mbl => mbl.final = false).length +
      (mbls.filter fun mbl => mbl.final).length = mbls.length := by
  induction mbls with
  | nil => rfl
  | cons mbl mbls ih =>
      cases hfinal : mbl.final <;>
        simp only [List.filter_cons, hfinal, decide_true, Bool.true_eq_false, decide_false,
          if_true, Bool.false_eq_true, if_false, List.length_cons] <;> omega

theorem counted_iff {b : Block G} (hlen : b.miniblocks.length = 10)
    (hfinal : 1 ≤ (b.miniblocks.filter fun mbl => mbl.final).length) :
    Counted b ↔ (b.miniblocks.filter fun mbl => mbl.final = false).dedup.length = 9 := by
  have hsum := filter_lengths b.miniblocks
  rw [dedup_length_eq (by omega)]
  constructor
  · intro h
    exact ⟨h.open_length, h.open_nodup⟩
  · rintro ⟨hlength, hnodup⟩
    exact ⟨hlength, hnodup, by omega⟩

theorem one_le_finals {mbls : List MiniBlock} :
    1 ≤ (mbls.filter fun mbl => mbl.final).length ↔ ∃ mbl ∈ mbls, mbl.final = true := by
  rw [Nat.one_le_iff_ne_zero, Ne, List.length_eq_zero_iff, List.filter_eq_nil_iff]
  push Not
  rfl

theorem linked_iff {b : Block G} (hne : b.miniblocks ≠ []) :
    (∀ mbl ∈ b.miniblocks, checkMiniblock b mbl = .ok ()) ↔
      ∃ tip, b.tips = [tip] ∧ ∀ mbl ∈ b.miniblocks,
        mbl.height = b.height ∧ mbl.pastCount = 1 ∧ mbl.past.1 = u32At tip.1 0 := by
  constructor
  · intro hall
    obtain ⟨first, hfirst⟩ := List.exists_mem_of_ne_nil _ hne
    obtain ⟨tip, htips, -⟩ := (checkMiniblock_eq_ok b first).mp (hall first hfirst)
    refine ⟨tip, htips, fun mbl hmbl => ?_⟩
    obtain ⟨tip', htips', hmbl'⟩ := (checkMiniblock_eq_ok b mbl).mp (hall mbl hmbl)
    rw [htips] at htips'
    cases htips'
    exact hmbl'
  · rintro ⟨tip, htips, hall⟩ mbl hmbl
    exact (checkMiniblock_eq_ok b mbl).mpr ⟨tip, htips, hall mbl hmbl⟩

/-- The last two checks, for a block whose counts are right. -/
theorem collected_iff {b : Block G} (hlen : b.miniblocks.length = 10)
    (hfinal : 1 ≤ (b.miniblocks.filter fun mbl => mbl.final).length) :
    (do
      let collection ← collectMiniblocks b [] b.miniblocks
      let want := blockTime - miniblockHighdiff
      if b.height ≥ miniblockCountSoftHfHeight ∧ collection.count ≠ want then
        .error ("block contains invalid number of miniblocks count " ++
          toString collection.count ++ " expected " ++ toString want)
      else .ok () : Except String Unit) = .ok () ↔
      Linked b ∧ (miniblockCountSoftHfHeight ≤ b.height → Counted b) := by
  have hne : b.miniblocks ≠ [] := by
    intro hnil
    rw [hnil] at hlen
    cases hlen
  have hlinked : (∀ mbl ∈ b.miniblocks, checkMiniblock b mbl = .ok ()) ↔ Linked b := by
    rw [linked_iff hne]
    exact ⟨fun h => ⟨hlen, one_le_finals.mp hfinal, h⟩, fun h => h.linked⟩
  rw [← hlinked, counted_iff hlen hfinal]
  constructor
  · intro hok
    cases hcollect : collectMiniblocks b [] b.miniblocks with
    | error e =>
        rw [hcollect] at hok
        cases hok
    | ok r =>
        rw [hcollect] at hok
        obtain ⟨hall, hcollected⟩ :=
          collectMiniblocks_eq_ok b Collection.Collected.nil b.miniblocks r hcollect
        refine ⟨hall, fun hheight => ?_⟩
        have hcount := hcollected.count_eq
        rw [List.nil_append] at hcount
        rw [← hcount]
        by_contra hwrong
        simp only [bind, Except.bind] at hok
        rw [if_pos ⟨hheight, hwrong⟩] at hok
        cases hok
  · rintro ⟨hall, hdedup⟩
    obtain ⟨r, hr⟩ := collectMiniblocks_of_ok b [] hall
    obtain ⟨-, hcollected⟩ :=
      collectMiniblocks_eq_ok b Collection.Collected.nil b.miniblocks r hr
    have hcount := hcollected.count_eq
    rw [List.nil_append] at hcount
    rw [hr]
    simp only [bind, Except.bind]
    rw [if_neg]
    rintro ⟨hheight, hwrong⟩
    exact hwrong (hcount.trans (hdedup hheight))

theorem verifyMiniblocks_eq_ok (b : Block G) : verifyMiniblocks b = .ok () ↔ Intended b := by
  unfold verifyMiniblocks Intended
  split
  · rename_i hgenesis
    refine ⟨by simp, ?_⟩
    rintro (⟨-, hnil⟩ | ⟨hpos, -⟩)
    · exact absurd hnil hgenesis.2
    · rw [hgenesis.1] at hpos
      exact absurd hpos (by decide)
  rename_i hgenesis
  split
  · rename_i hzero
    exact ⟨fun _ => .inl ⟨hzero, by_contra fun hne => hgenesis ⟨hzero, hne⟩⟩, fun _ => rfl⟩
  rename_i hheight
  have hpos : 0 < b.height := by
    rw [UInt64.lt_iff_toNat_lt]
    exact Nat.pos_of_ne_zero fun h => hheight (UInt64.toNat_inj.mp h)
  simp only [hheight, false_and, false_or, hpos, true_and]
  split
  · rename_i hnil
    refine ⟨by simp, ?_⟩
    rintro ⟨hlinked, -⟩
    have := hlinked.length_eq
    simp [hnil] at this
  split
  · rename_i hfinal
    refine ⟨by simp, ?_⟩
    rintro ⟨hlinked, -⟩
    exact absurd (one_le_finals.mpr hlinked.final) (Nat.not_le.mpr hfinal)
  rename_i hfinal
  split
  · rename_i hcount
    refine ⟨by simp, ?_⟩
    rintro ⟨hlinked, -⟩
    exact absurd hlinked.length_eq hcount
  · rename_i hcount
    exact collected_iff (not_not.mp hcount) (Nat.le_of_not_lt hfinal)

theorem Intended.of_perm {b : Block G} (h : Intended b) {mbls : List MiniBlock}
    (hperm : mbls.Perm b.miniblocks) : Intended { b with miniblocks := mbls } := by
  rcases h with ⟨hzero, hnil⟩ | ⟨hpos, hlinked, hcounted⟩
  · left
    rw [hnil] at hperm
    exact ⟨hzero, hperm.eq_nil⟩
  · right
    obtain ⟨last, hlast, hfinal⟩ := hlinked.final
    obtain ⟨tip, htips, hall⟩ := hlinked.linked
    refine ⟨hpos, ⟨?_, ⟨last, hperm.mem_iff.mpr hlast, hfinal⟩, tip, htips, ?_⟩, ?_⟩
    · exact hperm.length_eq.trans hlinked.length_eq
    · intro mbl hmbl
      exact hall mbl (hperm.mem_iff.mp hmbl)
    · intro hheight
      have hopen := hperm.filter fun mbl => mbl.final = false
      have hfinals := hperm.filter fun mbl => mbl.final
      have hcount := hcounted hheight
      exact ⟨hopen.length_eq.trans hcount.open_length, hopen.nodup_iff.mpr hcount.open_nodup,
        hfinals.length_eq.trans hcount.final_length⟩

/-- A block passes exactly when it is one of the intended ones, whatever the order of its
miniblocks. -/
theorem verifyMiniblocks_exact (b : Block G) :
    (verifyMiniblocks b = .ok () ↔ Intended b) ∧
      ∀ mbls, mbls.Perm b.miniblocks →
        (verifyMiniblocks { b with miniblocks := mbls } = .ok () ↔ verifyMiniblocks b = .ok ()) := by
  refine ⟨verifyMiniblocks_eq_ok b, fun mbls hperm => ?_⟩
  rw [verifyMiniblocks_eq_ok, verifyMiniblocks_eq_ok]
  constructor
  · intro h
    exact Intended.of_perm h hperm.symm
  · intro h
    exact h.of_perm hperm

/-- The miniblocks of a block after the soft fork: nine that differ in the nonce, and the
final one. -/
def tenMiniblocks : List MiniBlock :=
  (List.range 10).map fun i =>
    { version := 1
      highDiff := i = 9
      final := i = 9
      pastCount := 1
      timestamp := 0
      height := 400000
      past := (0, 0)
      keyHash := List.replicate 16 0
      flags := 0
      nonce := (UInt32.ofNat i, 0, 0) }

theorem verifyMiniblocks_exact_tenMiniblocks :
    tenMiniblocks.reverse.Perm tenMiniblocks ∧
      verifyMiniblocks { coinbaseBlock with
        height := 400000, miniblocks := tenMiniblocks.reverse } = .ok () := by
  have hok : verifyMiniblocks { coinbaseBlock with
      height := 400000, miniblocks := tenMiniblocks } = .ok () := by
    decide +kernel
  refine ⟨List.reverse_perm _, ?_⟩
  exact ((verifyMiniblocks_exact { coinbaseBlock with
    height := 400000, miniblocks := tenMiniblocks }).2 _ (List.reverse_perm _)).mpr hok

end Rules

end DirtybirdMiner.Block.Consensus
