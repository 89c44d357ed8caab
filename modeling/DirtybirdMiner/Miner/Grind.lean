import DirtybirdMiner.Lib.Loops
import DirtybirdMiner.Miner.Work
import DirtybirdMiner.Pow.Difficulty

/-!
Grinding one job, from `src/worker.rs`: `grind_job_with_scratch` and its two-lane
form.

What the functions call outside this file is a parameter (`Backend`): the hex and
decimal decoders and the hash functions, the fast one with the scratch it reads
and changes.  What they read of the shared state is a parameter too (`Observed`):
the outcome of every poll of the loop's condition and of every load of the exit
flag inside a batch.
-/

namespace DirtybirdMiner.Miner.Grind

open DirtybirdMiner.Lib.Loops
open DirtybirdMiner.Block.MiniBlocks
open DirtybirdMiner.Pow.Difficulty
open DirtybirdMiner.Miner.Work

/-- `HASH_COUNTER_FLUSH_INTERVAL`. -/
def hashCounterFlushInterval : Nat := 64

/-- The fields of a job that are ground, as the bytes of their texts. -/
structure GetBlockTemplateResult where
  jobid : List UInt8
  blockhashingBlob : List UInt8
  difficulty : List UInt8
deriving DecidableEq

inductive GrindError where
  | badBlob
  | badVersion (version : UInt8)
  | badDifficulty
deriving DecidableEq

structure Backend (Scratch : Type) where
  /-- `hex::decode_to_slice` into a 48-byte buffer. -/
  decodeToSlice : List UInt8 → Option Work
  /-- `BigUint::parse_bytes(_, 10)`. -/
  parseBytes : List UInt8 → Option Nat
  pow16 : List UInt8 → Hash
  /-- The hash of `astrobwtv3_full`. -/
  astrobwtv3Full : List UInt8 → Hash
  astrobwtv3WithScratch : List UInt8 → Scratch → Hash × Scratch
  astrobwtv3X2 : List UInt8 → List UInt8 → Scratch → Scratch → (Hash × Hash) × Scratch × Scratch

structure Observed where
  /-- The job counter is unchanged and the exit flag not set, at each poll. -/
  guard : Nat → Bool
  /-- The exit flag at each load inside a batch. -/
  exit : Nat → Bool

/-- What a call has done so far.  `hashed` and `shares` are the buffers handed to
the hash function and to `on_share`, in order. -/
structure Tally where
  i : UInt32
  pendingHashes : UInt64
  counter : UInt64
  hashed : List Work
  shares : List Work
  exitLoads : Nat
deriving DecidableEq

/-- The tally of a call that has done nothing. -/
def Tally.start (i : UInt32) (counter : UInt64) : Tally where
  i := i
  pendingHashes := 0
  counter := counter
  hashed := []
  shares := []
  exitLoads := 0

inductive Outcome where
  | running
  | returned (result : Except GrindError Unit)
deriving DecidableEq

/-- A job made ready: the stamped buffer, the height of the blob and the
difficulty. -/
structure Task where
  work : Work
  height : UInt64
  diff : Nat

def flushHashes (tally : Tally) : Tally :=
  if tally.pendingHashes ≠ 0 then
    { tally with counter := tally.counter + tally.pendingHashes, pendingHashes := 0 }
  else tally

def recordHash (tally : Tally) : Tally :=
  let tally := { tally with pendingHashes := tally.pendingHashes + 1 }
  if tally.pendingHashes ≥ UInt64.ofNat hashCounterFlushInterval then flushHashes tally
  else tally

section Grinding

variable {Scratch : Type} (backend : Backend Scratch) (observed : Observed)
variable (hf2Height : UInt64)

/-- The checks both grinders make first, in their order. -/
def prepare (job : GetBlockTemplateResult) (random12 : Random12) (tid : UInt8) :
    Except GrindError Task :=
  if job.blockhashingBlob.length ≠ miniblockSize * 2 then .error .badBlob
  else
    match backend.decodeToSlice job.blockhashingBlob with
    | none => .error .badBlob
    | some work =>
        let height := workHeight work
        let work := stampJob work random12 tid
        match backend.parseBytes job.difficulty with
        | none => .error .badDifficulty
        | some diff =>
            if diff = 0 then .error .badDifficulty
            else if byteAt work.1 0 &&& 0xf ≠ 1 then
              .error (.badVersion (byteAt work.1 0 &&& 0x1f))
            else .ok { work := work, height := height, diff := diff }

def powHashAtHeightWithScratch (serialized : List UInt8) (height : UInt64) (scratch : Scratch) :
    Hash × Scratch :=
  if height < hf2Height then (backend.pow16 serialized, scratch)
  else backend.astrobwtv3WithScratch serialized scratch

def powHashAtHeightX2 (workA workB : List UInt8) (height : UInt64) (sa sb : Scratch) :
    (Hash × Hash) × Scratch × Scratch :=
  if height < hf2Height then ((backend.pow16 workA, backend.pow16 workB), sa, sb)
  else backend.astrobwtv3X2 workA workB sa sb

/-- A buffer that clears the target is hashed again with the canonical function,
and handed to `on_share` if that hash clears it too. -/
def submit (task : Task) (work : Work) (pow : Hash) (tally : Tally) : Tally :=
  let target := precomputePowTarget task.diff
  if checkPowHashPrecomputed pow target then
    let canonicalOk :=
      if task.height ≥ hf2Height then
        checkPowHashPrecomputed (backend.astrobwtv3Full work.1) target
      else true
    if canonicalOk then { tally with shares := tally.shares ++ [work] } else tally
  else tally

/-- `exit.load`, the outcome being a break. -/
def loadExit (tally : Tally) : Tally × Bool :=
  ({ tally with exitLoads := tally.exitLoads + 1 }, observed.exit tally.exitLoads)

structure Grinder (Scratch : Type) where
  tally : Tally
  work : Work
  scratch : Scratch

/-- One iteration of the batch. -/
def grindOnce (task : Task) (s : Grinder Scratch) : Grinder Scratch × Bool :=
  let i := s.tally.i + 1
  let work := putCounter s.work i
  let pow := powHashAtHeightWithScratch backend hf2Height work.1 task.height s.scratch
  let tally := recordHash { s.tally with i := i, hashed := s.tally.hashed ++ [work] }
  let hit := checkPowHashPrecomputed pow.1 (precomputePowTarget task.diff)
  let tally := submit backend hf2Height task work pow.1 tally
  -- The exit flag is read only after a hit.
  let left := if hit then loadExit observed tally else (tally, false)
  ({ tally := left.1, work := work, scratch := pow.2 }, left.2)

def grindBatch (task : Task) (s : Grinder Scratch) : Grinder Scratch :=
  forBreak (grindOnce backend observed hf2Height task) hashCounterFlushInterval s

/-- The outcome of a loop and its last flush. -/
def finish (ended : Bool) (tally : Tally) : Outcome × Tally :=
  if ended then (.returned (.ok ()), flushHashes tally) else (.running, tally)

/-- The call as far as it has come after `fuel` polls. -/
def grindJobWithScratch (job : GetBlockTemplateResult) (random12 : Random12) (tid : UInt8)
    (i : UInt32) (counter : UInt64) (scratch : Scratch) (fuel : Nat) : Outcome × Tally :=
  match prepare backend job random12 tid with
  | .error e => (.returned (.error e), Tally.start i counter)
  | .ok task =>
      let run := pollWhile observed.guard (grindBatch backend observed hf2Height task) 0 fuel
        { tally := Tally.start i counter, work := task.work, scratch := scratch }
      finish run.1 run.2.tally

structure GrinderX2 (Scratch : Type) where
  tally : Tally
  workA : Work
  workB : Work
  scratchA : Scratch
  scratchB : Scratch

/-- One iteration of the batch: two nonces. -/
def grindPair (task : Task) (s : GrinderX2 Scratch) : GrinderX2 Scratch × Bool :=
  let i := s.tally.i + 1
  let workA := putCounter s.workA i
  let workB := putCounter s.workB (i + 1)
  let pow := powHashAtHeightX2 backend hf2Height workA.1 workB.1 task.height s.scratchA s.scratchB
  let i := i + 1
  let tally := { s.tally with i := i, hashed := s.tally.hashed ++ [workA, workB] }
  let tally := recordHash (recordHash tally)
  let tally := submit backend hf2Height task workA pow.1.1 tally
  let tally := submit backend hf2Height task workB pow.1.2 tally
  let left := loadExit observed tally
  ({ tally := left.1, workA := workA, workB := workB, scratchA := pow.2.1, scratchB := pow.2.2 },
    left.2)

def grindBatchX2 (task : Task) (s : GrinderX2 Scratch) : GrinderX2 Scratch :=
  forBreak (grindPair backend observed hf2Height task) (hashCounterFlushInterval / 2) s

def grindJobX2WithScratch (job : GetBlockTemplateResult) (random12 : Random12) (tid : UInt8)
    (i : UInt32) (counter : UInt64) (scratchA scratchB : Scratch) (fuel : Nat) :
    Outcome × Tally :=
  match prepare backend job random12 tid with
  | .error e => (.returned (.error e), Tally.start i counter)
  | .ok task =>
      let run := pollWhile observed.guard (grindBatchX2 backend observed hf2Height task) 0 fuel
        { tally := Tally.start i counter, workA := task.work, workB := task.work,
          scratchA := scratchA, scratchB := scratchB }
      finish run.1 run.2.tally

end Grinding

section Sample

/-- A blob of version 1 with one tip, and its hex text. -/
def sampleWork : Work := ⟨0x41 :: List.replicate 47 0, by decide⟩

def sampleJob : GetBlockTemplateResult where
  jobid := []
  blockhashingBlob := [0x34, 0x31] ++ List.replicate 94 0x30
  difficulty := [0x31]

theorem sampleHash_length : (List.replicate 32 (0xff : UInt8)).length = 32 := by decide

/-- Decoders that know the texts of the sample job, and one hash for every
buffer. -/
def sampleBackend : Backend Unit where
  decodeToSlice text := if text = sampleJob.blockhashingBlob then some sampleWork else none
  parseBytes text := if text = sampleJob.difficulty then some 1 else none
  pow16 _ := ⟨List.replicate 32 0xff, sampleHash_length⟩
  astrobwtv3Full _ := ⟨List.replicate 32 0x7f, by decide⟩
  astrobwtv3WithScratch _ _ := (⟨List.replicate 32 0x7f, by decide⟩, ())
  astrobwtv3X2 _ _ _ _ :=
    ((⟨List.replicate 32 0x7f, by decide⟩, ⟨List.replicate 32 0x7f, by decide⟩), (), ())

def sampleRandom12 : Random12 := ⟨List.replicate 12 9, by decide⟩

/-- The worker is told to exit when it has found a share. -/
def sampleObserved : Observed where
  guard k := k = 0
  exit _ := true

end Sample

section Tallies

/-- Hashes counted so far, flushed or not, on top of what the counter showed. -/
def Tally.total (tally : Tally) : UInt64 := tally.counter + tally.pendingHashes

/-- Hashing one more buffer, where `share` says whether it is handed on. -/
def Tally.hash (tally : Tally) (work : Work) (share : Bool) : Tally :=
  { recordHash tally with
    i := tally.i + 1
    hashed := tally.hashed ++ [work]
    shares := tally.shares ++ if share then [work] else [] }

/-- A hash changes only the two counts. -/
theorem recordHash_eq (tally : Tally) :
    recordHash tally =
      { tally with
        pendingHashes :=
          if tally.pendingHashes + 1 ≥ UInt64.ofNat hashCounterFlushInterval then 0
          else tally.pendingHashes + 1
        counter :=
          if tally.pendingHashes + 1 ≥ UInt64.ofNat hashCounterFlushInterval
          then tally.counter + (tally.pendingHashes + 1) else tally.counter } := by
  unfold recordHash flushHashes
  dsimp only
  split
  · rename_i hfull
    have hne : tally.pendingHashes + 1 ≠ 0 := by
      intro hzero
      rw [hzero] at hfull
      exact absurd hfull (by decide)
    rw [if_pos hne]
  · rfl

theorem recordHash_total (tally : Tally) : (recordHash tally).total = tally.total + 1 := by
  rw [recordHash_eq, Tally.total, Tally.total]
  dsimp only
  split
  · rw [UInt64.add_zero, UInt64.add_assoc]
  · rw [UInt64.add_assoc]

theorem hash_total (tally : Tally) (work : Work) (share : Bool) :
    (tally.hash work share).total = tally.total + 1 :=
  recordHash_total tally

/-- A flush moves the pending hashes into the counter. -/
theorem flushHashes_eq (tally : Tally) :
    flushHashes tally = { tally with counter := tally.total, pendingHashes := 0 } := by
  unfold flushHashes
  split
  · rfl
  · rename_i hzero
    rw [not_not] at hzero
    rw [Tally.total, hzero, UInt64.add_zero, ← hzero]

@[simp] theorem finish_i (ended : Bool) (tally : Tally) : (finish ended tally).2.i = tally.i := by
  cases ended <;> simp [finish, flushHashes_eq]

@[simp] theorem finish_hashed (ended : Bool) (tally : Tally) :
    (finish ended tally).2.hashed = tally.hashed := by
  cases ended <;> simp [finish, flushHashes_eq]

@[simp] theorem finish_shares (ended : Bool) (tally : Tally) :
    (finish ended tally).2.shares = tally.shares := by
  cases ended <;> simp [finish, flushHashes_eq]

/-- On return nothing is pending. -/
theorem finish_counter {ended : Bool} {tally : Tally} {result : Except GrindError Unit}
    (h : (finish ended tally).1 = .returned result) :
    (finish ended tally).2.counter = tally.total := by
  cases ended with
  | true => simp [finish, flushHashes_eq]
  | false => cases h

theorem finish_not_running {ended : Bool} {tally : Tally} (h : ended = true) :
    (finish ended tally).1 ≠ .running := by
  subst h
  intro hrunning
  cases hrunning

end Tallies

section Soundness

variable {Scratch : Type} (backend : Backend Scratch) (observed : Observed)
variable (hf2Height : UInt64)

/-- The network's check of a submitted buffer, under the canonical hash. -/
def verifies (task : Task) (work : Work) : Bool :=
  verifyMiniblockPow backend.pow16 backend.astrobwtv3Full work.1 false task.diff task.height
    hf2Height

/-- The buffers with the `count` counters after `i`. -/
def nonces (work : Work) (i : UInt32) (count : Nat) : List Work :=
  (List.range count).map fun k => putCounter work (i + UInt32.ofNat (k + 1))

theorem nonces_succ (work : Work) (i : UInt32) (count : Nat) :
    nonces work i (count + 1) =
      nonces work i count ++ [putCounter work (i + UInt32.ofNat (count + 1))] := by
  simp [nonces, List.range_succ]

@[simp] theorem nonces_length (work : Work) (i : UInt32) (count : Nat) :
    (nonces work i count).length = count := by
  simp [nonces]

/-- What `submit` adds to the shares, whatever the fast hash was. -/
theorem submit_eq {task : Task} {work : Work} {pow : Hash} (tally : Tally)
    (hpow : task.height < hf2Height → pow = backend.pow16 work.1) :
    submit backend hf2Height task work pow tally =
      { tally with shares := tally.shares ++
          if checkPowHashBig pow task.diff && verifies backend hf2Height task work
          then [work] else [] } := by
  unfold submit verifies verifyMiniblockPow powHashAtHeight
  simp only [checkPowHashPrecomputed_eq, Bool.false_eq_true, if_false]
  by_cases hlt : task.height < hf2Height
  · rw [hpow hlt]
    cases hcheck : checkPowHashBig (backend.pow16 work.1) task.diff <;>
      simp [hlt, UInt64.not_le.mpr hlt, hcheck]
  · have hge := UInt64.not_lt.mp hlt
    cases hcheck : checkPowHashBig pow task.diff <;>
      cases hcanon : checkPowHashBig (backend.astrobwtv3Full work.1) task.diff <;>
      simp [hlt, hge, hcanon]

/-- Below the fork height the grinder and the network use the same hash. -/
theorem powHashAtHeightWithScratch_pow16 {work : Work} {height : UInt64} {scratch : Scratch}
    (h : height < hf2Height) :
    (powHashAtHeightWithScratch backend hf2Height work.1 height scratch).1 =
      backend.pow16 work.1 := by
  rw [powHashAtHeightWithScratch, if_pos h]

/-- One iteration hashes the buffer with the next counter.  It becomes a share if
the hash clears the target and the network's check accepts it. -/
theorem grindOnce_tally (task : Task) (s : Grinder Scratch) :
    ∃ exitLoads, (grindOnce backend observed hf2Height task s).1.tally =
      { s.tally.hash (putCounter s.work (s.tally.i + 1))
          (checkPowHashBig (powHashAtHeightWithScratch backend hf2Height
            (putCounter s.work (s.tally.i + 1)).1 task.height s.scratch).1 task.diff &&
            verifies backend hf2Height task (putCounter s.work (s.tally.i + 1))) with
        exitLoads := exitLoads } := by
  unfold grindOnce loadExit Tally.hash
  dsimp only
  rw [submit_eq _ _ _ (powHashAtHeightWithScratch_pow16 backend hf2Height)]
  simp only [recordHash_eq]
  split
  · exact ⟨_, rfl⟩
  · exact ⟨_, rfl⟩

/-- The invariant of the loops.  Nothing is assumed of the fast hash but in
`complete`. -/
structure Ground (task : Task) (i : UInt32) (counter : UInt64) (s : Grinder Scratch) : Prop where
  work : ∀ j, putCounter s.work j = putCounter task.work j
  i_eq : s.tally.i = i + UInt32.ofNat s.tally.hashed.length
  hashed : s.tally.hashed = nonces task.work i s.tally.hashed.length
  total : s.tally.total = counter + UInt64.ofNat s.tally.hashed.length
  sound : ∀ work ∈ s.tally.shares, verifies backend hf2Height task work = true
  complete : (∀ serialized scratch, (backend.astrobwtv3WithScratch serialized scratch).1 =
      backend.astrobwtv3Full serialized) →
    s.tally.shares = s.tally.hashed.filter (verifies backend hf2Height task)

theorem ground_start (task : Task) (i : UInt32) (counter : UInt64) (scratch : Scratch) :
    Ground backend hf2Height task i counter
      { tally := Tally.start i counter, work := task.work, scratch := scratch } where
  work := fun _ => rfl
  i_eq := (UInt32.add_zero i).symm
  hashed := rfl
  total := rfl
  sound := by simp [Tally.start]
  complete := fun _ => rfl

/-- With a fast hash equal to the canonical one, a hit is a buffer the network
accepts. -/
theorem check_eq_verifies (hfast : ∀ serialized scratch,
      (backend.astrobwtv3WithScratch serialized scratch).1 = backend.astrobwtv3Full serialized)
    (task : Task) (work : Work) (scratch : Scratch) :
    checkPowHashBig (powHashAtHeightWithScratch backend hf2Height work.1 task.height scratch).1
      task.diff = verifies backend hf2Height task work := by
  unfold powHashAtHeightWithScratch verifies verifyMiniblockPow powHashAtHeight
  split
  · rfl
  · simp only [hfast, Bool.false_eq_true, if_false]

theorem Ground.grindOnce {task : Task} {i : UInt32} {counter : UInt64} (s : Grinder Scratch)
    (h : Ground backend hf2Height task i counter s) :
    Ground backend hf2Height task i counter
      (grindOnce backend observed hf2Height task s).1 := by
  obtain ⟨exitLoads, htally⟩ := grindOnce_tally backend observed hf2Height task s
  have hi : s.tally.i + 1 = i + UInt32.ofNat (s.tally.hashed.length + 1) := by
    rw [h.i_eq, UInt32.ofNat_add, UInt32.add_assoc]
    rfl
  refine ⟨?_, ?_, ?_, ?_, ?_, ?_⟩
  · intro j
    rw [show (Grind.grindOnce backend observed hf2Height task s).1.work =
      putCounter s.work (s.tally.i + 1) from rfl, putCounter_putCounter, h.work]
  · rw [htally]
    simp only [Tally.hash, List.length_append, List.length_singleton]
    exact hi
  · rw [htally]
    simp only [Tally.hash, List.length_append, List.length_singleton, nonces_succ]
    rw [← h.hashed, h.work, hi]
  · rw [htally]
    have htotal := hash_total s.tally (putCounter s.work (s.tally.i + 1))
    simp only [Tally.hash, Tally.total, List.length_append, List.length_singleton] at htotal ⊢
    rw [htotal false, ← Tally.total, h.total, UInt64.ofNat_add, UInt64.add_assoc]
    rfl
  · rw [htally]
    intro work hmem
    simp only [Tally.hash, List.mem_append] at hmem
    rcases hmem with hmem | hmem
    · exact h.sound work hmem
    · split at hmem
      · rename_i hshare
        rw [List.mem_singleton] at hmem
        rw [hmem]
        exact (Bool.and_eq_true_iff.mp hshare).2
      · cases hmem
  · intro hfast
    rw [htally, check_eq_verifies backend hf2Height hfast]
    simp only [Tally.hash, Bool.and_self, List.filter_append, h.complete hfast,
      List.filter_cons, List.filter_nil]

theorem Ground.run {task : Task} {i : UInt32} {counter : UInt64} {s : Grinder Scratch}
    (fuel : Nat) (h : Ground backend hf2Height task i counter s) :
    Ground backend hf2Height task i counter
      (pollWhile observed.guard (grindBatch backend observed hf2Height task) 0 fuel s).2 := by
  apply pollWhile_invariant _ _ _ h
  intro s hs
  apply forBreak_invariant _ _ hs
  intro s hs
  exact hs.grindOnce backend observed hf2Height s

/-- What an accepted job is ground with. -/
theorem prepare_ok {job : GetBlockTemplateResult} {random12 : Random12} {tid : UInt8}
    {task : Task} (h : prepare backend job random12 tid = .ok task) :
    ∃ work, backend.decodeToSlice job.blockhashingBlob = some work ∧
      backend.parseBytes job.difficulty = some task.diff ∧
      task.height = workHeight work ∧ task.work = stampJob work random12 tid := by
  unfold prepare at h
  split at h
  · cases h
  split at h
  · cases h
  rename_i work hwork
  dsimp only at h
  split at h
  · cases h
  rename_i diff hdiff
  split at h
  · cases h
  split at h
  · cases h
  · cases h
    exact ⟨work, hwork, hdiff, rfl, rfl⟩

end Soundness

section TwoLanes

variable {Scratch : Type} (backend : Backend Scratch) (observed : Observed)
variable (hf2Height : UInt64)

/-- A tally without the number of exit loads, which the caller does not see. -/
def Tally.visible (tally : Tally) : Tally := { tally with exitLoads := 0 }

theorem hash_visible (tally : Tally) (work : Work) (share : Bool) :
    (tally.hash work share).visible = tally.visible.hash work share := by
  simp only [Tally.hash, Tally.visible, recordHash_eq]

/-- Whether a buffer becomes a share when `hash` is the fast hash. -/
def reported (hash : List UInt8 → Hash) (task : Task) (work : Work) : Bool :=
  checkPowHashBig (powHashAtHeight backend.pow16 hash work.1 task.height hf2Height) task.diff &&
    verifies backend hf2Height task work

theorem grindOnce_visible {hash : List UInt8 → Hash}
    (hone : ∀ serialized scratch,
      (backend.astrobwtv3WithScratch serialized scratch).1 = hash serialized)
    (task : Task) (s : Grinder Scratch) :
    (grindOnce backend observed hf2Height task s).1.tally.visible =
      s.tally.visible.hash (putCounter s.work (s.tally.i + 1))
        (reported backend hf2Height hash task (putCounter s.work (s.tally.i + 1))) := by
  obtain ⟨exitLoads, htally⟩ := grindOnce_tally backend observed hf2Height task s
  have hpow : ∀ (work : Work) (scratch : Scratch),
      (powHashAtHeightWithScratch backend hf2Height work.1 task.height scratch).1 =
        powHashAtHeight backend.pow16 hash work.1 task.height hf2Height := by
    intro work scratch
    unfold powHashAtHeightWithScratch powHashAtHeight
    split
    · rfl
    · exact hone _ _
  rw [htally, hpow, ← hash_visible]
  rfl

theorem grindPair_visible {hash : List UInt8 → Hash}
    (htwo : ∀ a b sa sb, (backend.astrobwtv3X2 a b sa sb).1 = (hash a, hash b))
    (task : Task) (t : GrinderX2 Scratch) :
    (grindPair backend observed hf2Height task t).1.tally.visible =
      (t.tally.visible.hash (putCounter t.workA (t.tally.i + 1))
          (reported backend hf2Height hash task (putCounter t.workA (t.tally.i + 1)))).hash
        (putCounter t.workB (t.tally.i + 1 + 1))
        (reported backend hf2Height hash task (putCounter t.workB (t.tally.i + 1 + 1))) := by
  have hpow : ∀ (a b : Work) (sa sb : Scratch),
      (powHashAtHeightX2 backend hf2Height a.1 b.1 task.height sa sb).1 =
        (powHashAtHeight backend.pow16 hash a.1 task.height hf2Height,
          powHashAtHeight backend.pow16 hash b.1 task.height hf2Height) := by
    intro a b sa sb
    unfold powHashAtHeightX2 powHashAtHeight
    split
    · rfl
    · exact htwo _ _ _ _
  have hlow : ∀ work : Work, task.height < hf2Height →
      powHashAtHeight backend.pow16 hash work.1 task.height hf2Height =
        backend.pow16 work.1 := by
    intro work hlt
    rw [powHashAtHeight, if_pos hlt]
  unfold grindPair loadExit
  simp only [hpow, submit_eq _ _ _ (hlow _), recordHash_eq, Tally.hash, Tally.visible,
    List.append_assoc, List.singleton_append]
  rfl

/-- The two grinders between two pairs of nonces. -/
structure Aligned (s : Grinder Scratch) (t : GrinderX2 Scratch) : Prop where
  tally : s.tally.visible = t.tally.visible
  workA : ∀ j, putCounter s.work j = putCounter t.workA j
  workB : ∀ j, putCounter s.work j = putCounter t.workB j

theorem Aligned.pair {hash : List UInt8 → Hash}
    (hone : ∀ serialized scratch,
      (backend.astrobwtv3WithScratch serialized scratch).1 = hash serialized)
    (htwo : ∀ a b sa sb, (backend.astrobwtv3X2 a b sa sb).1 = (hash a, hash b))
    (task : Task) (s : Grinder Scratch) (t : GrinderX2 Scratch) (h : Aligned s t) :
    Aligned (grindOnce backend observed hf2Height task
        (grindOnce backend observed hf2Height task s).1).1
      (grindPair backend observed hf2Height task t).1 := by
  have hi : t.tally.i = s.tally.i := (congrArg Tally.i h.tally).symm
  have hi' : (grindOnce backend observed hf2Height task s).1.tally.i = s.tally.i + 1 :=
    congrArg Tally.i (grindOnce_visible backend observed hf2Height hone task s)
  have hwork : (grindOnce backend observed hf2Height task s).1.work =
      putCounter s.work (s.tally.i + 1) := rfl
  refine ⟨?_, ?_, ?_⟩
  · rw [grindOnce_visible backend observed hf2Height hone,
      grindOnce_visible backend observed hf2Height hone,
      grindPair_visible backend observed hf2Height htwo, hi', hwork, putCounter_putCounter,
      ← h.workA, ← h.workB, ← h.tally, hi]
  · intro j
    exact (putCounter_putCounter _ _ j).trans ((putCounter_putCounter _ _ j).trans
      ((h.workA j).trans (putCounter_putCounter _ _ j).symm))
  · intro j
    exact (putCounter_putCounter _ _ j).trans ((putCounter_putCounter _ _ j).trans
      ((h.workB j).trans (putCounter_putCounter _ _ j).symm))

/-- With the exit flag never set, a batch of pairs does what a batch does. -/
theorem Aligned.batch {hash : List UInt8 → Hash} (hexit : ∀ k, observed.exit k = false)
    (hone : ∀ serialized scratch,
      (backend.astrobwtv3WithScratch serialized scratch).1 = hash serialized)
    (htwo : ∀ a b sa sb, (backend.astrobwtv3X2 a b sa sb).1 = (hash a, hash b))
    (task : Task) (s : Grinder Scratch) (t : GrinderX2 Scratch) (h : Aligned s t) :
    Aligned (grindBatch backend observed hf2Height task s)
      (grindBatchX2 backend observed hf2Height task t) := by
  apply forBreak_pairs _ _ (Aligned.pair backend observed hf2Height hone htwo task)
    (hashCounterFlushInterval / 2) h
  · intro s
    unfold grindOnce loadExit
    dsimp only
    split
    · exact hexit _
    · rfl
  · intro t
    exact hexit _

theorem finish_visible (ended : Bool) (tally : Tally) :
    (finish ended tally).2.visible = (finish ended tally.visible).2 := by
  cases ended <;> simp [finish, flushHashes_eq, Tally.visible, Tally.total]

theorem finish_outcome (ended : Bool) (tally tally' : Tally) :
    (finish ended tally).1 = (finish ended tally').1 := by
  cases ended <;> rfl

theorem Aligned.job {hash : List UInt8 → Hash} (hexit : ∀ k, observed.exit k = false)
    (hone : ∀ serialized scratch,
      (backend.astrobwtv3WithScratch serialized scratch).1 = hash serialized)
    (htwo : ∀ a b sa sb, (backend.astrobwtv3X2 a b sa sb).1 = (hash a, hash b))
    (job : GetBlockTemplateResult) (random12 : Random12) (tid : UInt8) (i : UInt32)
    (counter : UInt64) (scratch scratchA scratchB : Scratch) (fuel : Nat) :
    (grindJobWithScratch backend observed hf2Height job random12 tid i counter scratch fuel).1 =
      (grindJobX2WithScratch backend observed hf2Height job random12 tid i counter scratchA
        scratchB fuel).1 ∧
    (grindJobWithScratch backend observed hf2Height job random12 tid i counter scratch
        fuel).2.visible =
      (grindJobX2WithScratch backend observed hf2Height job random12 tid i counter scratchA
        scratchB fuel).2.visible := by
  unfold grindJobWithScratch grindJobX2WithScratch
  cases prepare backend job random12 tid with
  | error e => exact ⟨rfl, rfl⟩
  | ok task =>
      have hstart : Aligned
          { tally := Tally.start i counter, work := task.work, scratch := scratch }
          { tally := Tally.start i counter, workA := task.work, workB := task.work,
            scratchA := scratchA, scratchB := scratchB } :=
        ⟨rfl, fun _ => rfl, fun _ => rfl⟩
      obtain ⟨hended, haligned⟩ := pollWhile_related observed.guard
        (Aligned.batch backend observed hf2Height hexit hone htwo task) 0 fuel hstart
      dsimp only
      rw [hended, finish_visible, finish_visible, haligned.tally]
      exact ⟨finish_outcome _ _ _, rfl⟩

/-- The two-lane grinder does what the one-lane grinder does, poll for poll. -/
theorem grindJobX2WithScratch_refines {hash : List UInt8 → Hash}
    (hexit : ∀ k, observed.exit k = false)
    (hone : ∀ serialized scratch,
      (backend.astrobwtv3WithScratch serialized scratch).1 = hash serialized)
    (htwo : ∀ a b sa sb, (backend.astrobwtv3X2 a b sa sb).1 = (hash a, hash b))
    (job : GetBlockTemplateResult) (random12 : Random12) (tid : UInt8) (i : UInt32)
    (counter : UInt64) (scratch scratchA scratchB : Scratch) (fuel : Nat) :
    ∃ outcome one two,
      grindJobWithScratch backend observed hf2Height job random12 tid i counter scratch fuel =
        (outcome, one) ∧
      grindJobX2WithScratch backend observed hf2Height job random12 tid i counter scratchA
        scratchB fuel = (outcome, two) ∧
      two.shares = one.shares ∧ two.i = one.i ∧ two.counter = one.counter ∧
      two.hashed = one.hashed := by
  obtain ⟨houtcome, hvisible⟩ := Aligned.job backend observed hf2Height hexit hone htwo job
    random12 tid i counter scratch scratchA scratchB fuel
  generalize grindJobWithScratch backend observed hf2Height job random12 tid i counter scratch
    fuel = one at houtcome hvisible
  generalize grindJobX2WithScratch backend observed hf2Height job random12 tid i counter scratchA
    scratchB fuel = two at houtcome hvisible
  refine ⟨one.1, one.2, two.2, rfl, Prod.ext_iff.mpr ⟨houtcome.symm, rfl⟩, ?_, ?_, ?_, ?_⟩
  · exact (congrArg Tally.shares hvisible).symm
  · exact (congrArg Tally.i hvisible).symm
  · exact (congrArg Tally.counter hvisible).symm
  · exact (congrArg Tally.hashed hvisible).symm

theorem grindJobX2WithScratch_refines_sample :
    ∃ outcome one two,
      grindJobWithScratch sampleBackend { guard := fun k => k = 0, exit := fun _ => false } 0
        sampleJob sampleRandom12 3 0xfffffffe 10 () 2 = (outcome, one) ∧
      grindJobX2WithScratch sampleBackend { guard := fun k => k = 0, exit := fun _ => false } 0
        sampleJob sampleRandom12 3 0xfffffffe 10 () () 2 = (outcome, two) ∧
      two.shares = one.shares ∧ two.i = one.i ∧ two.counter = one.counter ∧
      two.hashed = one.hashed :=
  grindJobX2WithScratch_refines sampleBackend _ 0 (fun _ => rfl) (fun _ _ => rfl)
    (fun _ _ _ _ => rfl) sampleJob sampleRandom12 3 0xfffffffe 10 () () () 2

end TwoLanes

end DirtybirdMiner.Miner.Grind
