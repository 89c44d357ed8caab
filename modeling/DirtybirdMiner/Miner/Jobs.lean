import Mathlib.Logic.Function.Basic
import DirtybirdMiner.Miner.Grind

/-!
The miner as a system of threads: the getwork thread publishes jobs
(`src/main.rs`), the workers take snapshots of them and grind (`mine_thread` of
`src/worker.rs`).  Each access to the shared state is one step, and steps of
different threads come in any order.

A job is published in two steps, the write and then the increment; a snapshot is
taken in two steps, the load of the counter and then the read.  Fields marked as
ghost are not in the source: they record what happened, and no step of a thread
depends on them.
-/

namespace DirtybirdMiner.Miner.Jobs

open DirtybirdMiner.Block.MiniBlocks
open DirtybirdMiner.Miner.Work
open DirtybirdMiner.Miner.Grind

structure SubmitBlockParams where
  jobid : List UInt8
  mblBlob : List UInt8
deriving DecidableEq

/-- The shared state, with the position of the getwork thread in its code. -/
structure Shared where
  job : GetBlockTemplateResult
  jobCounter : UInt64
  exit : Bool
  /-- The job is written and the counter not yet incremented. -/
  pending : Bool
  /-- Ghost: every job written so far.  A job's version is its index here. -/
  history : List GetBlockTemplateResult
  /-- Ghost: the number of increments so far. -/
  increments : Nat

/-- The local variables of `mine_thread` and of the grinder it has called. -/
structure Snapshot where
  localJobCounter : UInt64
  myjob : GetBlockTemplateResult
  jobid : List UInt8
  task : Task
  work : Work
  /-- Ghost: the number of increments when the counter was loaded. -/
  loadedAt : Nat
  /-- Ghost: the version of `myjob`. -/
  version : Nat

/-- Where a worker is in its code. -/
inductive Phase where
  | idle
  | loaded (localJobCounter : UInt64) (loadedAt : Nat)
  | polling (snapshot : Snapshot)
  /-- Inside a batch; the flag says whether a buffer has been hashed in it. -/
  | grinding (snapshot : Snapshot) (fresh : Bool)
  | stopped

structure Worker where
  phase : Phase
  /-- The counter persists across jobs. -/
  i : UInt32

/-- Ghost: one hash computation. -/
structure Hashing (ι : Type) where
  worker : ι
  version : Nat
  work : Work

structure State (ι : Type) where
  shared : Shared
  workers : ι → Worker
  /-- The submit channel, each share with the version of its job. -/
  submitted : List (Nat × SubmitBlockParams)
  hashed : List (Hashing ι)

inductive Action (ι : Type) where
  | write (job : GetBlockTemplateResult)
  | increment
  | quit
  | load (w : ι)
  | read (w : ι)
  | poll (w : ι)
  | hash (w : ι)
  | submit (w : ι)
  | endBatch (w : ι)

/-- No job has arrived yet. -/
def noJob : GetBlockTemplateResult where
  jobid := []
  blockhashingBlob := []
  difficulty := []

def Shared.start : Shared where
  job := noJob
  jobCounter := 0
  exit := false
  pending := false
  history := [noJob]
  increments := 0

def State.start (ι : Type) : State ι where
  shared := Shared.start
  workers := fun _ => { phase := .idle, i := 0 }
  submitted := []
  hashed := []

section Steps

variable {ι Scratch : Type} [DecidableEq ι]
variable (backend : Backend Scratch) (encode : List UInt8 → List UInt8)
variable (tid : ι → UInt8) (random12 : ι → Random12)

def State.setPhase (st : State ι) (w : ι) (phase : Phase) : State ι :=
  { st with workers := Function.update st.workers w { st.workers w with phase := phase } }

/-- The worker counts up, writes the counter and hashes the buffer. -/
def State.hashNext (st : State ι) (w : ι) (snapshot : Snapshot) : State ι :=
  let i := (st.workers w).i + 1
  let work := putCounter snapshot.work i
  { st with
    workers := Function.update st.workers w
      { phase := .grinding { snapshot with work := work } true, i := i }
    hashed := st.hashed ++ [{ worker := w, version := snapshot.version, work := work }] }

/-- The condition of the grinders' loop. -/
def guard (shared : Shared) (snapshot : Snapshot) : Bool :=
  snapshot.localJobCounter = shared.jobCounter && !shared.exit

/-- A step of the system, `none` where the thread is not at that point of its code. -/
def step (st : State ι) : Action ι → Option (State ι)
  | .write job =>
      if st.shared.pending then none
      else some { st with shared := { st.shared with
        job := job, pending := true, history := st.shared.history ++ [job] } }
  | .increment =>
      if st.shared.pending then some { st with shared := { st.shared with
        jobCounter := st.shared.jobCounter + 1, pending := false,
        increments := st.shared.increments + 1 } }
      else none
  | .quit => some { st with shared := { st.shared with exit := true } }
  | .load w =>
      match (st.workers w).phase with
      | .idle =>
          if st.shared.exit then some (st.setPhase w .stopped)
          else some (st.setPhase w (.loaded st.shared.jobCounter st.shared.increments))
      | _ => none
  | .read w =>
      match (st.workers w).phase with
      | .loaded localJobCounter loadedAt =>
          let myjob := st.shared.job
          -- A refused job is logged, and the worker starts over.
          match prepare backend myjob (random12 w) (tid w) with
          | .error _ => some (st.setPhase w .idle)
          | .ok task => some (st.setPhase w (.polling
              { localJobCounter := localJobCounter, myjob := myjob, jobid := myjob.jobid,
                task := task, work := task.work, loadedAt := loadedAt,
                version := st.shared.history.length - 1 }))
      | _ => none
  | .poll w =>
      match (st.workers w).phase with
      | .polling snapshot =>
          if guard st.shared snapshot then some (st.setPhase w (.grinding snapshot false))
          else some (st.setPhase w .idle)
      | _ => none
  | .hash w =>
      match (st.workers w).phase with
      | .grinding snapshot _ => some (st.hashNext w snapshot)
      | _ => none
  | .submit w =>
      match (st.workers w).phase with
      | .grinding snapshot true =>
          some { st with submitted := st.submitted ++ [(snapshot.version,
            { jobid := snapshot.jobid, mblBlob := encode snapshot.work.1 })] }
      | _ => none
  | .endBatch w =>
      match (st.workers w).phase with
      | .grinding snapshot _ => some (st.setPhase w (.polling snapshot))
      | _ => none

/-- The states that runs lead to. -/
inductive Reachable : State ι → Prop where
  | start : Reachable (State.start ι)
  | step {st st' : State ι} (action : Action ι) (h : Reachable st)
      (hstep : step backend encode tid random12 st action = some st') : Reachable st'

end Steps

section Invariant

variable {ι Scratch : Type}
variable (backend : Backend Scratch) (encode : List UInt8 → List UInt8)
variable (tid : ι → UInt8) (random12 : ι → Random12)

structure SharedOk (shared : Shared) : Prop where
  counter : shared.jobCounter = UInt64.ofNat shared.increments
  length : shared.history.length = shared.increments + 1 + shared.pending.toNat
  last : shared.history[shared.history.length - 1]? = some shared.job

structure SnapshotOk (shared : Shared) (w : ι) (snapshot : Snapshot) : Prop where
  counter : snapshot.localJobCounter = UInt64.ofNat snapshot.loadedAt
  loadedAt_le : snapshot.loadedAt ≤ shared.increments
  loadedAt_le_version : snapshot.loadedAt ≤ snapshot.version
  job : shared.history[snapshot.version]? = some snapshot.myjob
  jobid : snapshot.jobid = snapshot.myjob.jobid
  prepared : prepare backend snapshot.myjob (random12 w) (tid w) = .ok snapshot.task
  work : ∀ j, putCounter snapshot.work j = putCounter snapshot.task.work j

def PhaseOk (shared : Shared) (w : ι) : Phase → Prop
  | .idle => True
  | .loaded localJobCounter loadedAt =>
      localJobCounter = UInt64.ofNat loadedAt ∧ loadedAt ≤ shared.increments
  | .polling snapshot => SnapshotOk backend tid random12 shared w snapshot
  | .grinding snapshot fresh =>
      SnapshotOk backend tid random12 shared w snapshot ∧
        (fresh = true → ∃ i, snapshot.work = putCounter snapshot.task.work i)
  | .stopped => True

/-- The share carries the jobid of a published job, and a buffer made from the
blob of that same job by one of the workers. -/
def ShareOk (history : List GetBlockTemplateResult) (share : Nat × SubmitBlockParams) : Prop :=
  ∃ job w task i, history[share.1]? = some job ∧ share.2.jobid = job.jobid ∧
    prepare backend job (random12 w) (tid w) = .ok task ∧
    share.2.mblBlob = encode (putCounter task.work i).1

structure Inv (st : State ι) : Prop where
  shared : SharedOk st.shared
  workers : ∀ w, PhaseOk backend tid random12 st.shared w (st.workers w).phase
  submitted : ∀ share ∈ st.submitted,
    ShareOk backend encode tid random12 st.shared.history share

/-- What the getwork thread does to the ghost fields. -/
structure Grows (shared shared' : Shared) : Prop where
  increments : shared.increments ≤ shared'.increments
  history : ∀ (v : Nat) job, shared.history[v]? = some job → shared'.history[v]? = some job

variable {backend encode tid random12}

theorem SnapshotOk.mono {shared shared' : Shared} {w : ι} {snapshot : Snapshot}
    (hgrows : Grows shared shared') (h : SnapshotOk backend tid random12 shared w snapshot) :
    SnapshotOk backend tid random12 shared' w snapshot :=
  { h with
    loadedAt_le := h.loadedAt_le.trans hgrows.increments
    job := hgrows.history _ _ h.job }

theorem PhaseOk.mono {shared shared' : Shared} {w : ι} {phase : Phase}
    (hgrows : Grows shared shared') (h : PhaseOk backend tid random12 shared w phase) :
    PhaseOk backend tid random12 shared' w phase := by
  cases phase with
  | idle => exact h
  | loaded localJobCounter loadedAt => exact ⟨h.1, h.2.trans hgrows.increments⟩
  | polling snapshot => exact SnapshotOk.mono hgrows h
  | grinding snapshot fresh => exact ⟨h.1.mono hgrows, h.2⟩
  | stopped => exact h

theorem Inv.setShared {st : State ι} (h : Inv backend encode tid random12 st) {shared : Shared}
    (hok : SharedOk shared) (hgrows : Grows st.shared shared) :
    Inv backend encode tid random12 { st with shared := shared } := by
  refine ⟨hok, fun w => (h.workers w).mono hgrows, ?_⟩
  intro share hmem
  obtain ⟨job, w, task, i, hjob, hrest⟩ := h.submitted share hmem
  exact ⟨job, w, task, i, hgrows.history _ _ hjob, hrest⟩

theorem inv_start : Inv backend encode tid random12 (State.start ι) where
  shared := ⟨rfl, rfl, rfl⟩
  workers := fun _ => trivial
  submitted := by simp [State.start]

/-- The snapshot a worker grinds. -/
def Phase.snapshot : Phase → Option Snapshot
  | .polling snapshot => some snapshot
  | .grinding snapshot _ => some snapshot
  | _ => none

theorem Inv.snapshot {st : State ι} (h : Inv backend encode tid random12 st) {w : ι}
    {snapshot : Snapshot} (hsnapshot : (st.workers w).phase.snapshot = some snapshot) :
    SnapshotOk backend tid random12 st.shared w snapshot := by
  have hphase := h.workers w
  cases heq : (st.workers w).phase with
  | polling snapshot' =>
      rw [heq] at hphase hsnapshot
      cases hsnapshot
      exact hphase
  | grinding snapshot' fresh =>
      rw [heq] at hphase hsnapshot
      cases hsnapshot
      exact hphase.1
  | idle | loaded | stopped =>
      rw [heq] at hsnapshot
      cases hsnapshot

/-- A guard that passes within 2⁶⁴ increments passes on the counter it was
compared with when the snapshot was taken. -/
theorem loadedAt_eq_of_guard {shared : Shared} {w : ι} {snapshot : Snapshot}
    (hshared : SharedOk shared) (h : SnapshotOk backend tid random12 shared w snapshot)
    (hguard : guard shared snapshot = true)
    (hwrap : shared.increments < snapshot.loadedAt + 2 ^ 64) :
    snapshot.loadedAt = shared.increments := by
  have heq : snapshot.localJobCounter = shared.jobCounter :=
    of_decide_eq_true (Bool.and_eq_true_iff.mp hguard).1
  have hmod := congrArg UInt64.toNat heq
  rw [h.counter, hshared.counter, UInt64.toNat_ofNat', UInt64.toNat_ofNat'] at hmod
  have hle := h.loadedAt_le
  omega

variable [DecidableEq ι]

theorem phaseOk_update {shared : Shared} {workers : ι → Worker} {w : ι} {worker : Worker}
    (h : ∀ w, PhaseOk backend tid random12 shared w (workers w).phase)
    (hw : PhaseOk backend tid random12 shared w worker.phase) (w' : ι) :
    PhaseOk backend tid random12 shared w' (Function.update workers w worker w').phase := by
  by_cases heq : w' = w
  · subst heq
    rwa [Function.update_self]
  · rw [Function.update_of_ne heq]
    exact h w'

theorem Inv.setPhase {st : State ι} (h : Inv backend encode tid random12 st) {w : ι}
    {phase : Phase} (hphase : PhaseOk backend tid random12 st.shared w phase) :
    Inv backend encode tid random12 (st.setPhase w phase) :=
  ⟨h.shared, phaseOk_update h.workers hphase, h.submitted⟩

theorem inv_step {st st' : State ι} {action : Action ι} (h : Inv backend encode tid random12 st)
    (hstep : step backend encode tid random12 st action = some st') :
    Inv backend encode tid random12 st' := by
  cases action with
  | write job =>
      simp only [step] at hstep
      split at hstep
      · cases hstep
      · rename_i hidle
        cases hstep
        apply h.setShared
        · refine ⟨h.shared.counter, ?_, ?_⟩
          · simp [h.shared.length, hidle]
          · simp
        · refine ⟨le_rfl, ?_⟩
          intro v job hjob
          exact List.getElem?_append_left (List.getElem?_eq_some_iff.mp hjob).1 ▸ hjob
  | increment =>
      simp only [step] at hstep
      split at hstep
      · rename_i hpending
        cases hstep
        apply h.setShared
        · refine ⟨?_, ?_, h.shared.last⟩
          · rw [h.shared.counter, UInt64.ofNat_add]
            rfl
          · simp [h.shared.length, hpending]
        · exact ⟨Nat.le_succ _, fun _ _ hjob => hjob⟩
      · cases hstep
  | quit =>
      cases hstep
      apply h.setShared
      · exact ⟨h.shared.counter, h.shared.length, h.shared.last⟩
      · exact ⟨le_rfl, fun _ _ hjob => hjob⟩
  | load w =>
      simp only [step] at hstep
      split at hstep
      · split at hstep
        · cases hstep
          exact h.setPhase trivial
        · cases hstep
          exact h.setPhase ⟨h.shared.counter, le_rfl⟩
      · cases hstep
  | read w =>
      simp only [step] at hstep
      split at hstep
      · rename_i localJobCounter loadedAt hphase
        have hloaded := h.workers w
        rw [hphase] at hloaded
        split at hstep
        · cases hstep
          exact h.setPhase trivial
        · rename_i task htask
          cases hstep
          apply h.setPhase
          exact
            { counter := hloaded.1
              loadedAt_le := hloaded.2
              loadedAt_le_version := by
                have hlen := h.shared.length
                have hle := hloaded.2
                dsimp only
                omega
              job := h.shared.last
              jobid := rfl
              prepared := htask
              work := fun _ => rfl }
      · cases hstep
  | poll w =>
      simp only [step] at hstep
      split at hstep
      · rename_i snapshot hphase
        have hpolling := h.workers w
        rw [hphase] at hpolling
        split at hstep
        · cases hstep
          exact h.setPhase ⟨hpolling, by simp⟩
        · cases hstep
          exact h.setPhase trivial
      · cases hstep
  | hash w =>
      simp only [step] at hstep
      split at hstep
      · rename_i snapshot fresh hphase
        have hgrinding := h.workers w
        rw [hphase] at hgrinding
        cases hstep
        refine ⟨h.shared, phaseOk_update h.workers ?_, h.submitted⟩
        refine ⟨{ hgrinding.1 with work := ?_ }, fun _ => ⟨_, hgrinding.1.work _⟩⟩
        intro j
        rw [putCounter_putCounter, hgrinding.1.work]
      · cases hstep
  | submit w =>
      simp only [step] at hstep
      split at hstep
      · rename_i snapshot hphase
        have hgrinding := h.workers w
        rw [hphase] at hgrinding
        cases hstep
        refine ⟨h.shared, h.workers, ?_⟩
        intro share hmem
        rw [List.mem_append, List.mem_singleton] at hmem
        rcases hmem with hmem | rfl
        · exact h.submitted share hmem
        · obtain ⟨i, hwork⟩ := hgrinding.2 rfl
          exact ⟨snapshot.myjob, w, snapshot.task, i, hgrinding.1.job, hgrinding.1.jobid,
            hgrinding.1.prepared, by rw [hwork]⟩
      · cases hstep
  | endBatch w =>
      simp only [step] at hstep
      split at hstep
      · rename_i snapshot fresh hphase
        have hgrinding := h.workers w
        rw [hphase] at hgrinding
        cases hstep
        exact h.setPhase hgrinding.1
      · cases hstep

theorem Reachable.inv {st : State ι} (h : Reachable backend encode tid random12 st) :
    Inv backend encode tid random12 st := by
  induction h with
  | start => exact inv_start
  | step action _ hstep ih => exact inv_step ih hstep

/-- One worker has taken a snapshot of the first job. -/
def sampleSnapshot : Snapshot where
  localJobCounter := 1
  myjob := sampleJob
  jobid := []
  task := { work := stampJob sampleWork sampleRandom12 0, height := 0, diff := 1 }
  work := stampJob sampleWork sampleRandom12 0
  loadedAt := 1
  version := 1

def sampleState : State Unit where
  shared :=
    { job := sampleJob, jobCounter := 1, exit := false, pending := false,
      history := [noJob, sampleJob], increments := 1 }
  workers := fun _ => { phase := .polling sampleSnapshot, i := 0 }
  submitted := []
  hashed := []

theorem sampleState_reachable :
    Reachable sampleBackend id (fun _ : Unit => 0) (fun _ => sampleRandom12) sampleState := by
  refine .step (.read ())
    (.step (.load ()) (.step .increment (.step (.write sampleJob) .start rfl) rfl) rfl) ?_
  rfl

/-- The getwork thread alone can publish any number of jobs. -/
theorem Reachable.publish {st : State ι} (h : Reachable backend encode tid random12 st)
    (hidle : st.shared.pending = false) (n : Nat) :
    ∃ st', Reachable backend encode tid random12 st' ∧ st'.workers = st.workers ∧
      st'.shared.jobCounter = st.shared.jobCounter + UInt64.ofNat n ∧
      st'.shared.increments = st.shared.increments + n ∧
      st'.shared.exit = st.shared.exit ∧ st'.shared.pending = false := by
  induction n with
  | zero => exact ⟨st, h, rfl, (UInt64.add_zero _).symm, rfl, rfl, hidle⟩
  | succ n ih =>
      obtain ⟨st', hst', hworkers, hcounter, hincrements, hexit, hpending⟩ := ih
      have hwrite := Reachable.step (.write noJob) hst' (if_neg (by simp [hpending]))
      refine ⟨_, hwrite.step .increment rfl, hworkers, ?_, ?_, hexit, rfl⟩
      · dsimp only
        rw [hcounter, UInt64.ofNat_add, UInt64.add_assoc]
        rfl
      · dsimp only
        rw [hincrements, Nat.add_assoc]

/-- After 2⁶⁴ further jobs the counter shows its old value again, and the guard
passes on the first job. -/
theorem guard_passes_on_wrapped_counter :
    ∃ st, Reachable sampleBackend id (fun _ : Unit => 0) (fun _ => sampleRandom12) st ∧
      ∃ snapshot, (st.workers ()).phase.snapshot = some snapshot ∧
        guard st.shared snapshot = true ∧
        ¬ (snapshot.version = st.shared.increments ∨
          (st.shared.pending = true ∧ snapshot.version = st.shared.increments + 1)) := by
  obtain ⟨st, hst, hworkers, hcounter, hincrements, hexit, hpending⟩ :=
    sampleState_reachable.publish rfl (2 ^ 64)
  refine ⟨st, hst, sampleSnapshot, ?_, ?_, ?_⟩
  · rw [hworkers]
    rfl
  · have hsame : st.shared.jobCounter = 1 := hcounter
    simp [guard, hsame, hexit, sampleState, sampleSnapshot]
  · simp [hincrements, hpending, sampleState, sampleSnapshot]

/-- Any interleaving: a worker's job is at least as new as its counter; a guard
that passes within 2⁶⁴ increments of the load of the counter passes on the newest
job whose increment has happened, or on the next one, written and not yet counted;
and a share pairs a jobid with a buffer made from that job. -/
theorem snapshot_protocol_safe {st : State ι} (h : Reachable backend encode tid random12 st) :
    (∀ w snapshot, (st.workers w).phase.snapshot = some snapshot →
      snapshot.localJobCounter.toNat ≤ snapshot.version ∧
      st.shared.history[snapshot.version]? = some snapshot.myjob) ∧
    (∀ w snapshot, (st.workers w).phase.snapshot = some snapshot →
      guard st.shared snapshot = true → st.shared.increments < snapshot.loadedAt + 2 ^ 64 →
      snapshot.version = st.shared.increments ∨
        (st.shared.pending = true ∧ snapshot.version = st.shared.increments + 1)) ∧
    (∀ share ∈ st.submitted, ShareOk backend encode tid random12 st.shared.history share) := by
  have hinv := h.inv
  refine ⟨?_, ?_, hinv.submitted⟩
  · intro w snapshot hsnapshot
    have hok := hinv.snapshot hsnapshot
    refine ⟨?_, hok.job⟩
    rw [hok.counter, UInt64.toNat_ofNat']
    exact (Nat.mod_le _ _).trans hok.loadedAt_le_version
  · intro w snapshot hsnapshot hguard hwrap
    have hok := hinv.snapshot hsnapshot
    have hloaded := loadedAt_eq_of_guard hinv.shared hok hguard hwrap
    have hnewer := hok.loadedAt_le_version
    have hlt := (List.getElem?_eq_some_iff.mp hok.job).1
    rw [hinv.shared.length] at hlt
    cases hpending : st.shared.pending <;> simp [hpending] at hlt ⊢ <;> omega

theorem snapshot_protocol_safe_sample :
    (∃ snapshot, (sampleState.workers ()).phase.snapshot = some snapshot ∧
      guard sampleState.shared snapshot = true) ∧
    (∀ w snapshot, (sampleState.workers w).phase.snapshot = some snapshot →
      guard sampleState.shared snapshot = true →
      sampleState.shared.increments < snapshot.loadedAt + 2 ^ 64 →
      snapshot.version = sampleState.shared.increments ∨
        (sampleState.shared.pending = true ∧
          snapshot.version = sampleState.shared.increments + 1)) :=
  ⟨⟨sampleSnapshot, rfl, rfl⟩, (snapshot_protocol_safe sampleState_reachable).2.1⟩

end Invariant

end DirtybirdMiner.Miner.Jobs
