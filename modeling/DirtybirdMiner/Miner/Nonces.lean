import DirtybirdMiner.Lib.Logs
import DirtybirdMiner.Miner.Jobs

/-!
The nonces of the workers: stamping and counting change the nonce only, and the
system of threads does not hash a buffer twice.
-/

namespace DirtybirdMiner.Miner.Nonces

open DirtybirdMiner.Lib.Logs
open DirtybirdMiner.Block.MiniBlocks
open DirtybirdMiner.Miner.Work
open DirtybirdMiner.Miner.Grind
open DirtybirdMiner.Miner.Jobs

/-- The thread count that `main` runs with; it panics outside `1..=2048`. -/
def admitThreads (threads : Int) : Option Nat :=
  if 1 ≤ threads ∧ threads ≤ 2048 then
    some (if threads > 255 then 255 else threads.toNat)
  else none

/-- `tid as u8` for `tid in 0..threads`. -/
def workerTid {threads : Nat} (w : Fin threads) : UInt8 := UInt8.ofNat w.val

theorem workerTid_injective {threads : Int} {n : Nat} (h : admitThreads threads = some n) :
    Function.Injective (workerTid : Fin n → UInt8) := by
  have hn : n ≤ 255 := by
    unfold admitThreads at h
    split at h
    · cases h
      split <;> omega
    · cases h
  intro w w' heq
  have hmod := congrArg UInt8.toNat heq
  rw [workerTid, workerTid, UInt8.toNat_ofNat', UInt8.toNat_ofNat'] at hmod
  apply Fin.ext
  have hw := w.isLt
  have hw' := w'.isLt
  omega

/-- The buffer after a stamp and any calls of `put_counter`. -/
def workAfter (work : Work) (random12 : Random12) (tid : UInt8) (counters : List UInt32) : Work :=
  counters.foldl putCounter (stampJob work random12 tid)

theorem header_foldl_putCounter (work : Work) (counters : List UInt32) :
    header (counters.foldl putCounter work).1 = header work.1 := by
  induction counters generalizing work with
  | nil => rfl
  | cons i counters ih => rw [List.foldl_cons, ih, header_putCounter]

theorem header_workAfter (work : Work) (random12 : Random12) (tid : UInt8)
    (counters : List UInt32) : header (workAfter work random12 tid counters).1 = header work.1 := by
  rw [workAfter, header_foldl_putCounter, header_stampJob]

theorem foldl_putCounter_append (work : Work) (counters : List UInt32) (i : UInt32) :
    (counters ++ [i]).foldl putCounter work = putCounter work i := by
  induction counters generalizing work with
  | nil => rfl
  | cons j counters ih => rw [List.cons_append, List.foldl_cons, ih, putCounter_putCounter]

section Logs

variable {ι Scratch : Type} [DecidableEq ι]
variable (backend : Backend Scratch) (encode : List UInt8 → List UInt8)
variable (tid : ι → UInt8) (random12 : ι → Random12)

/-- The hash computations of one worker, oldest first. -/
def hashesOf (hashed : List (Hashing ι)) (w : ι) : List (Hashing ι) :=
  hashed.filter fun h => h.worker = w

/-- The hash computations of one worker on one job. -/
def hashesOn (hashed : List (Hashing ι)) (w : ι) (version : Nat) : List (Hashing ι) :=
  (hashesOf hashed w).filter fun h => h.version = version

/-- What the log says about a worker. -/
structure LogOk (st : State ι) (w : ι) : Prop where
  counter : (st.workers w).i = UInt32.ofNat (hashesOf st.hashed w).length
  work : ∀ k h, (hashesOf st.hashed w)[k]? = some h → ∃ blob,
    h.work = putCounter (stampJob blob (random12 w) (tid w)) (UInt32.ofNat (k + 1))
  sorted : (hashesOf st.hashed w).Pairwise fun h h' => h.version ≤ h'.version
  published : ∀ h ∈ hashesOf st.hashed w, h.version < st.shared.history.length
  held : ∀ snapshot, (st.workers w).phase.snapshot = some snapshot →
    ∀ h ∈ hashesOf st.hashed w, h.version ≤ snapshot.version

/-- A step that hashes nothing: a worker keeps its counter, and holds a job it
held before or the one that is published now. -/
structure Quiet (st st' : State ι) : Prop where
  hashed : st'.hashed = st.hashed
  history : st.shared.history.length ≤ st'.shared.history.length
  counter : ∀ w, (st'.workers w).i = (st.workers w).i
  snapshot : ∀ w snapshot', (st'.workers w).phase.snapshot = some snapshot' →
    (∃ snapshot, (st.workers w).phase.snapshot = some snapshot ∧
      snapshot.version = snapshot'.version) ∨
    snapshot'.version = st.shared.history.length - 1

variable {backend encode tid random12}

theorem quiet_setPhase {st : State ι} {w : ι} {phase : Phase}
    (h : ∀ snapshot', phase.snapshot = some snapshot' →
      (∃ snapshot, (st.workers w).phase.snapshot = some snapshot ∧
        snapshot.version = snapshot'.version) ∨
      snapshot'.version = st.shared.history.length - 1) : Quiet st (st.setPhase w phase) := by
  refine ⟨rfl, le_rfl, ?_, ?_⟩
  · intro w'
    by_cases heq : w' = w
    · subst heq
      simp [State.setPhase]
    · simp [State.setPhase, heq]
  · intro w' snapshot' hsnapshot
    by_cases heq : w' = w
    · subst heq
      simp only [State.setPhase, Function.update_self] at hsnapshot
      exact h snapshot' hsnapshot
    · simp only [State.setPhase, Function.update_of_ne heq] at hsnapshot
      exact .inl ⟨snapshot', hsnapshot, rfl⟩

omit [DecidableEq ι] in
theorem quiet_setShared {st : State ι} {shared : Shared}
    (h : st.shared.history.length ≤ shared.history.length) :
    Quiet st { st with shared := shared } :=
  ⟨rfl, h, fun _ => rfl, fun _ snapshot' hsnapshot => .inl ⟨snapshot', hsnapshot, rfl⟩⟩

/-- What a step can do to the log. -/
theorem step_hashes {st st' : State ι} {action : Action ι}
    (hstep : step backend encode tid random12 st action = some st') :
    Quiet st st' ∨ ∃ w snapshot fresh, (st.workers w).phase = .grinding snapshot fresh ∧
      st' = st.hashNext w snapshot := by
  cases action with
  | write job =>
      simp only [step] at hstep
      split at hstep
      · cases hstep
      · cases hstep
        exact .inl (quiet_setShared (by simp))
  | increment =>
      simp only [step] at hstep
      split at hstep
      · cases hstep
        exact .inl (quiet_setShared le_rfl)
      · cases hstep
  | quit =>
      cases hstep
      exact .inl (quiet_setShared le_rfl)
  | load w =>
      simp only [step] at hstep
      split at hstep
      · split at hstep <;> cases hstep <;> exact .inl (quiet_setPhase (by simp [Phase.snapshot]))
      · cases hstep
  | read w =>
      simp only [step] at hstep
      split at hstep
      · split at hstep <;> cases hstep <;> exact .inl (quiet_setPhase (by simp [Phase.snapshot]))
      · cases hstep
  | poll w =>
      simp only [step] at hstep
      split at hstep
      · rename_i snapshot hphase
        split at hstep <;> cases hstep <;>
          exact .inl (quiet_setPhase (by simp [Phase.snapshot, hphase]))
      · cases hstep
  | hash w =>
      simp only [step] at hstep
      split at hstep
      · rename_i snapshot fresh hphase
        cases hstep
        exact .inr ⟨w, snapshot, fresh, hphase, rfl⟩
      · cases hstep
  | submit w =>
      simp only [step] at hstep
      split at hstep
      · cases hstep
        exact .inl ⟨rfl, le_rfl, fun _ => rfl,
          fun _ snapshot' hsnapshot => .inl ⟨snapshot', hsnapshot, rfl⟩⟩
      · cases hstep
  | endBatch w =>
      simp only [step] at hstep
      split at hstep
      · rename_i snapshot fresh hphase
        cases hstep
        exact .inl (quiet_setPhase (by simp [Phase.snapshot, hphase]))
      · cases hstep

theorem LogOk.quiet {st st' : State ι} {w : ι} (h : LogOk tid random12 st w)
    (hquiet : Quiet st st') : LogOk tid random12 st' w := by
  refine ⟨?_, ?_, ?_, ?_, ?_⟩
  · rw [hquiet.counter, hquiet.hashed, h.counter]
  · rw [hquiet.hashed]
    exact h.work
  · rw [hquiet.hashed]
    exact h.sorted
  · rw [hquiet.hashed]
    exact fun e he => (h.published e he).trans_le hquiet.history
  · rw [hquiet.hashed]
    intro snapshot' hsnapshot e he
    rcases hquiet.snapshot w snapshot' hsnapshot with ⟨snapshot, hold, hversion⟩ | hversion
    · rw [← hversion]
      exact h.held snapshot hold e he
    · have hlt := h.published e he
      omega

theorem hashesOf_append_self {hashed : List (Hashing ι)} {h : Hashing ι} {w : ι}
    (heq : h.worker = w) : hashesOf (hashed ++ [h]) w = hashesOf hashed w ++ [h] := by
  simp [hashesOf, heq]

theorem hashesOf_append_other {hashed : List (Hashing ι)} {h : Hashing ι} {w : ι}
    (hne : h.worker ≠ w) : hashesOf (hashed ++ [h]) w = hashesOf hashed w := by
  simp [hashesOf, hne]

/-- The log after a hash, for the worker that hashed. -/
theorem LogOk.hash {st : State ι} {w : ι} {snapshot : Snapshot} {fresh : Bool}
    (hinv : Inv backend encode tid random12 st) (h : LogOk tid random12 st w)
    (hphase : (st.workers w).phase = .grinding snapshot fresh) :
    LogOk tid random12 (st.hashNext w snapshot) w := by
  have hsnapshot : (st.workers w).phase.snapshot = some snapshot := by rw [hphase]; rfl
  have hok := hinv.snapshot hsnapshot
  have hnext : (st.workers w).i + 1 =
      UInt32.ofNat ((hashesOf st.hashed w).length + 1) := by
    rw [h.counter, UInt32.ofNat_add]
    rfl
  have hbound := (List.getElem?_eq_some_iff.mp hok.job).1
  have hhashes : hashesOf (st.hashNext w snapshot).hashed w = hashesOf st.hashed w ++
      [⟨w, snapshot.version, putCounter snapshot.work ((st.workers w).i + 1)⟩] :=
    hashesOf_append_self rfl
  have hworker : (st.hashNext w snapshot).workers w =
      ⟨.grinding ⟨snapshot.localJobCounter, snapshot.myjob, snapshot.jobid, snapshot.task,
        putCounter snapshot.work ((st.workers w).i + 1), snapshot.loadedAt, snapshot.version⟩ true,
        (st.workers w).i + 1⟩ :=
    Function.update_self _ _ _
  refine ⟨?_, ?_, ?_, ?_, ?_⟩
  · rw [hworker, hhashes, List.length_append, List.length_singleton, hnext]
  · intro k e hget
    rw [hhashes] at hget
    rcases lt_trichotomy k (hashesOf st.hashed w).length with hlt | rfl | hgt
    · rw [List.getElem?_append_left hlt] at hget
      exact h.work k e hget
    · rw [List.getElem?_concat_length, Option.some.injEq] at hget
      obtain ⟨blob, -, -, -, hwork⟩ := prepare_ok backend hok.prepared
      refine ⟨blob, ?_⟩
      rw [← hget, ← hnext, ← hwork]
      exact hok.work _
    · rw [List.getElem?_eq_none (by simp; omega)] at hget
      cases hget
  · rw [hhashes]
    refine List.pairwise_append.mpr ⟨h.sorted, List.pairwise_singleton _ _, ?_⟩
    intro e he e' he'
    rw [List.mem_singleton] at he'
    rw [he']
    exact h.held snapshot hsnapshot e he
  · intro e he
    rw [hhashes, List.mem_append, List.mem_singleton] at he
    rcases he with he | rfl
    · exact h.published e he
    · exact hbound
  · intro held hheld e he
    rw [hworker, Phase.snapshot, Option.some.injEq] at hheld
    rw [hhashes, List.mem_append, List.mem_singleton] at he
    rw [← hheld]
    rcases he with he | rfl
    · exact h.held snapshot hsnapshot e he
    · exact le_rfl

/-- The log after a hash, for the other workers. -/
theorem LogOk.other {st : State ι} {w w' : ι} {snapshot : Snapshot}
    (h : LogOk tid random12 st w') (hne : w' ≠ w) :
    LogOk tid random12 (st.hashNext w snapshot) w' := by
  have hsame : hashesOf (st.hashNext w snapshot).hashed w' = hashesOf st.hashed w' :=
    hashesOf_append_other hne.symm
  have hworker : (st.hashNext w snapshot).workers w' = st.workers w' :=
    Function.update_of_ne hne _ _
  refine ⟨?_, ?_, ?_, ?_, ?_⟩
  · rw [hworker, hsame, h.counter]
  · rw [hsame]
    exact h.work
  · rw [hsame]
    exact h.sorted
  · rw [hsame]
    exact h.published
  · rw [hworker, hsame]
    exact h.held

theorem logOk_start (w : ι) : LogOk tid random12 (State.start ι) w where
  counter := rfl
  work := by simp [State.start, hashesOf]
  sorted := List.Pairwise.nil
  published := by simp [State.start, hashesOf]
  held := by simp [State.start, hashesOf]

theorem logOk_of_reachable {st : State ι} (h : Reachable backend encode tid random12 st) (w : ι) :
    LogOk tid random12 st w := by
  induction h with
  | start => exact logOk_start w
  | step action hreach hstep ih =>
      rcases step_hashes hstep with hquiet | ⟨w', snapshot, fresh, hphase, rfl⟩
      · exact ih.quiet hquiet
      · by_cases heq : w = w'
        · subst heq
          exact ih.hash hreach.inv hphase
        · exact ih.other heq

/-- A buffer that was hashed twice for one job belongs to a worker whose counter
has gone round on that job. -/
theorem hashesOn_of_hashed_twice {st : State ι} (h : Reachable backend encode tid random12 st)
    (htid : Function.Injective tid) {p q : Nat} {e e' : Hashing ι} (hpq : p < q)
    (hp : st.hashed[p]? = some e) (hq : st.hashed[q]? = some e') (hversion : e.version = e'.version)
    (hwork : e.work = e'.work) :
    2 ^ 32 < (hashesOn st.hashed e.worker e.version).length := by
  have hlog := logOk_of_reachable h e.worker
  have hlog' := logOk_of_reachable h e'.worker
  -- The positions of the two computations in their worker's log.
  have hk := getElem?_filter_countP (f := fun h => decide (h.worker = e.worker)) hp (by simp)
  have hk' := getElem?_filter_countP (f := fun h => decide (h.worker = e'.worker)) hq (by simp)
  obtain ⟨blob, hblob⟩ := hlog.work _ _ hk
  obtain ⟨blob', hblob'⟩ := hlog'.work _ _ hk'
  rw [hblob, hblob'] at hwork
  have hsame : e.worker = e'.worker := htid (tid_eq_of_work_eq hwork)
  rw [← hsame] at hk' hwork
  have hcounter := congrArg UInt32.toNat (counter_eq_of_work_eq hwork)
  rw [UInt32.toNat_ofNat', UInt32.toNat_ofNat'] at hcounter
  have hlt := countP_take_lt (f := fun h => decide (h.worker = e.worker)) hp (by simp) hpq
  have hlen := length_filter_of_sorted hlog.sorted hlt hk hk' rfl hversion.symm
  rw [hashesOn]
  omega

end Logs

/-- Stamping and counting change the nonce only; buffers of different threads or
counters differ, whatever the random bytes; and no two hash computations of the
system on one job use the same buffer, before some worker has hashed more than
2³² nonces on it. -/
theorem nonces_unique :
    (∀ (work : Work) mbl, deserialize work.1 = .ok mbl → ∀ random12 tid counters,
      (∃ nonce, deserialize (workAfter work random12 tid counters).1 =
        .ok { mbl with nonce := nonce }) ∧
      workHeight (workAfter work random12 tid counters) = workHeight work) ∧
    (∀ work random12 random12' tid tid' counters counters' i i', tid ≠ tid' ∨ i ≠ i' →
      workAfter work random12 tid (counters ++ [i]) ≠
        workAfter work random12' tid' (counters' ++ [i'])) ∧
    (∀ threads n, admitThreads threads = some n →
      ∀ (Scratch : Type) (backend : Backend Scratch) encode random12 (st : State (Fin n)),
        Reachable backend encode workerTid random12 st → ∀ version,
        (∀ w, (hashesOn st.hashed w version).length ≤ 2 ^ 32) →
        ∀ (p q : Nat) h h', p ≠ q → st.hashed[p]? = some h → st.hashed[q]? = some h' →
          h.version = version → h'.version = version → h.work ≠ h'.work) := by
  refine ⟨?_, ?_, ?_⟩
  · intro work mbl hok random12 tid counters
    have hheader := header_workAfter work random12 tid counters
    have hlen := (workAfter work random12 tid counters).2
    exact ⟨deserialize_of_header hlen.ge hheader.symm hok, workHeight_of_header hheader⟩
  · intro work random12 random12' tid tid' counters counters' i i' hne heq
    rw [workAfter, workAfter, foldl_putCounter_append, foldl_putCounter_append] at heq
    rcases hne with htid | hi
    · exact htid (tid_eq_of_work_eq heq)
    · exact hi (counter_eq_of_work_eq heq)
  · intro threads n hadmit Scratch backend encode random12 st hreach version hcount p q h h'
      hpq hp hq hv hv' hwork
    have htid := workerTid_injective hadmit
    have hversion : h.version = h'.version := hv.trans hv'.symm
    rcases Nat.lt_or_gt_of_ne hpq with hlt | hgt
    · have hmany := hashesOn_of_hashed_twice hreach htid hlt hp hq hversion hwork
      rw [hv] at hmany
      exact absurd (hcount h.worker) (Nat.not_le.mpr hmany)
    · have hmany := hashesOn_of_hashed_twice hreach htid hgt hq hp hversion.symm hwork.symm
      rw [hv'] at hmany
      exact absurd (hcount h'.worker) (Nat.not_le.mpr hmany)

end DirtybirdMiner.Miner.Nonces
