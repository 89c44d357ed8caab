import DirtybirdMiner.Block.MiniBlocks

/-!
The 48-byte work buffer of a worker, from `src/worker.rs`: the stamp of a job
snapshot and the counter of an iteration.  Both write inside the nonce only.
-/

namespace DirtybirdMiner.Miner.Work

open DirtybirdMiner.Lib.Bytes
open DirtybirdMiner.Block.MiniBlocks

/-- `[u8; 12]`. -/
abbrev Random12 : Type := { bytes : List UInt8 // bytes.length = 12 }

def workHeight (work : Work) : UInt64 := heightAt work.1

/-- `work[lo..lo + src.len()].copy_from_slice(src)`. -/
def write (work : Work) (lo : Nat) (src : List UInt8)
    (h : lo + src.length ≤ miniblockSize) : Work :=
  ⟨copyAt work.1 lo src, by rw [copyAt_length (by rwa [work.2]), work.2]⟩

/-- The random bytes fill the nonce, then the thread id takes its last byte. -/
def stampJob (work : Work) (random12 : Random12) (tid : UInt8) : Work :=
  let work := write work (miniblockSize - 12) random12.1 (by rw [random12.2]; decide)
  write work (miniblockSize - 1) [tid] (by rw [List.length_singleton]; decide)

def putCounter (work : Work) (i : UInt32) : Work :=
  write work (miniblockSize - 5) (beBytes 4 i.toNat) (by rw [beBytes_length]; decide)

section Write

variable {work : Work} {lo : Nat} {src : List UInt8} {h : lo + src.length ≤ miniblockSize}

theorem slice_write_self {len : Nat} (hlen : src.length = len) :
    slice (write work lo src h).1 lo len = src := by
  subst hlen
  exact slice_copyAt_self (by rwa [work.2])

theorem slice_write_before {a len : Nat} (hle : a + len ≤ lo) :
    slice (write work lo src h).1 a len = slice work.1 a len :=
  slice_copyAt_before (by rwa [work.2]) hle

theorem slice_write_after {a len : Nat} (hle : lo + src.length ≤ a) :
    slice (write work lo src h).1 a len = slice work.1 a len :=
  slice_copyAt_after (by rwa [work.2]) hle

end Write

@[simp] theorem header_stampJob (work : Work) (random12 : Random12) (tid : UInt8) :
    header (stampJob work random12 tid).1 = header work.1 := by
  rw [header, stampJob, slice_write_before (by decide), slice_write_before (by decide), header]

@[simp] theorem header_putCounter (work : Work) (i : UInt32) :
    header (putCounter work i).1 = header work.1 := by
  rw [header, putCounter, slice_write_before (by decide), header]

/-- The byte of the thread id. -/
def tidByte (work : Work) : List UInt8 := slice work.1 (miniblockSize - 1) 1

/-- The bytes of the counter. -/
def counterBytes (work : Work) : List UInt8 := slice work.1 (miniblockSize - 5) 4

@[simp] theorem tidByte_stampJob (work : Work) (random12 : Random12) (tid : UInt8) :
    tidByte (stampJob work random12 tid) = [tid] := by
  rw [tidByte, stampJob, slice_write_self (List.length_singleton)]

@[simp] theorem tidByte_putCounter (work : Work) (i : UInt32) :
    tidByte (putCounter work i) = tidByte work := by
  rw [tidByte, putCounter, slice_write_after (by rw [beBytes_length]; decide), tidByte]

@[simp] theorem counterBytes_putCounter (work : Work) (i : UInt32) :
    counterBytes (putCounter work i) = beBytes 4 i.toNat :=
  slice_write_self (beBytes_length 4 i.toNat)

/-- The last counter wins. -/
@[simp] theorem putCounter_putCounter (work : Work) (i j : UInt32) :
    putCounter (putCounter work i) j = putCounter work j := by
  have hlen := work.2
  apply Subtype.ext
  simp only [putCounter, write, copyAt, beBytes_length, miniblockSize] at hlen ⊢
  rw [List.take_append_of_le_length (by simp; omega), List.drop_append, List.drop_eq_nil_of_le]
  · simp [hlen]
  · simp [hlen]

/-- Equal buffers carry the same thread id. -/
theorem tid_eq_of_work_eq {work work' : Work} {random12 random12' : Random12}
    {tid tid' : UInt8} {i i' : UInt32}
    (h : putCounter (stampJob work random12 tid) i =
      putCounter (stampJob work' random12' tid') i') : tid = tid' := by
  have htid := congrArg tidByte h
  simpa using htid

/-- Equal buffers carry the same counter. -/
theorem counter_eq_of_work_eq {work work' : Work} {i i' : UInt32}
    (h : putCounter work i = putCounter work' i') : i = i' := by
  have hcounter := congrArg counterBytes h
  rw [counterBytes_putCounter, counterBytes_putCounter] at hcounter
  exact UInt32.toNat_inj.mp (beBytes_inj i.toNat_lt i'.toNat_lt hcounter)

theorem workHeight_of_header {work work' : Work} (h : header work.1 = header work'.1) :
    workHeight work = workHeight work' := by
  rw [workHeight, heightAt, slice_eq_of_header h (by decide), workHeight, heightAt]

/-- Miniblocks and the buffers that decode to them are in one-to-one correspondence, and the
height that a worker reads off a buffer is the miniblock's. -/
theorem miniblock_bijection :
    (∀ mbl : MiniBlock, mbl.version = 1 → mbl.keyHash.length = 16 → sanityCheck mbl = .ok () →
      deserialize (serialize mbl) = .ok mbl) ∧
    (∀ buf mbl, deserialize buf = .ok mbl → serialize mbl = buf.take miniblockSize) ∧
    (∀ (work work' : Work) (mbl : MiniBlock), deserialize work.1 = .ok mbl →
      deserialize work'.1 = .ok mbl → work = work') ∧
    ∀ (work : Work) (mbl : MiniBlock), deserialize work.1 = .ok mbl →
      workHeight work = mbl.height := by
  have hwhole : ∀ work : Work, work.1.take miniblockSize = work.1 := by
    intro work
    exact List.take_of_length_le work.2.le
  refine ⟨?_, ?_, ?_, ?_⟩
  · intro mbl hversion hkey hsane
    exact deserialize_serialize ⟨hversion, hsane, hkey⟩
  · intro buf mbl hok
    exact serialize_of_deserialize hok
  · intro work work' mbl hok hok'
    apply Subtype.ext
    rw [← hwhole work, ← hwhole work', ← serialize_of_deserialize hok,
      ← serialize_of_deserialize hok']
  · intro work mbl hok
    rw [(deserialize_eq_ok hok).2]
    rfl

/-- A miniblock of two tips at the height one. -/
def twoTips : MiniBlock where
  version := 1
  highDiff := true
  final := false
  pastCount := 2
  timestamp := 513
  height := 1
  past := (7, 8)
  keyHash := List.replicate 16 9
  flags := 10
  nonce := (11, 12, 13)

theorem miniblock_bijection_twoTips :
    sanityCheck twoTips = .ok () ∧ deserialize (serialize twoTips) = .ok twoTips ∧
      workHeight ⟨serialize twoTips, rfl⟩ = 1 := by
  have hsane : sanityCheck twoTips = .ok () := by decide
  have hok := miniblock_bijection.1 twoTips rfl rfl hsane
  exact ⟨hsane, hok, miniblock_bijection.2.2.2 ⟨serialize twoTips, rfl⟩ twoTips hok⟩

end DirtybirdMiner.Miner.Work
