import DirtybirdMiner.Miner.Jobs
import DirtybirdMiner.Ws.Handshake

/-!
The getwork thread of `src/main.rs` in the system of threads: it connects, drops the shares
found without a connection, writes the ones found since and publishes the jobs that arrive.

What the network does is the input of a step.  The workers send shares at any time; the
channel keeps them in order.  Fields marked as ghost record what happened.
-/

namespace DirtybirdMiner.Miner.Session

open DirtybirdMiner.Block.MiniBlocks
open DirtybirdMiner.Lib.Casing
open DirtybirdMiner.Miner.Work
open DirtybirdMiner.Miner.Grind
open DirtybirdMiner.Ws.Frames
open DirtybirdMiner.Ws.Reassembly
open DirtybirdMiner.Ws.Handshake
open DirtybirdMiner.Miner.Jobs (ShareOk SubmitBlockParams)

/-- A share, with the version of its job. -/
abbrev Share : Type := Nat × SubmitBlockParams

/-- A job message: the job that the workers see, and the rest of what is read of it. -/
structure JobMessage where
  job : GetBlockTemplateResult
  blocks : UInt64
  miniblocks : UInt64
  rejected : UInt64
  difficultyuint64 : UInt64
  height : UInt64

/-- The fields of `Shared` that mirror the last job message. -/
inductive Counter where
  | blockCounter
  | miniBlockCounter
  | rejected
  | difficulty
  | ourHeight
deriving DecidableEq

def JobMessage.value (m : JobMessage) : Counter → UInt64
  | .blockCounter => m.blocks
  | .miniBlockCounter => m.miniblocks
  | .rejected => m.rejected
  | .difficulty => m.difficultyuint64
  | .ourHeight => m.height

/-- In the order of the stores. -/
def Counter.all : List Counter := [blockCounter, miniBlockCounter, rejected, difficulty, ourHeight]

structure Connection where
  client : WsClient
  /-- Ghost: how many shares had been found when the channel had been drained. -/
  drainedAt : Nat
  /-- Ghost: the shares written. -/
  sent : List Share

/-- Where the getwork thread is in its code. -/
inductive Phase where
  /-- At the head of the outer loop. -/
  | top
  | checking
  | dialing
  /-- In the sleep after a failed attempt. -/
  | waiting
  | opened (conn : Connection)
  | draining (conn : Connection)
  /-- At the head of the inner loop. -/
  | polling (conn : Connection)
  | pumping (conn : Connection)
  | sending (conn : Connection) (share : Share)
  | reading (conn : Connection)
  | publishing (conn : Connection) (m : JobMessage)
  /-- The job is written and not yet counted. -/
  | counting (conn : Connection) (m : JobMessage)
  | storing (conn : Connection) (m : JobMessage) (counters : List Counter)
  | returned

def Phase.connection : Phase → Option Connection
  | top | checking | dialing | waiting | returned => none
  | opened conn | draining conn | polling conn | pumping conn | sending conn _ | reading conn
  | publishing conn _ | counting conn _ | storing conn _ _ => some conn

/-- The share that has left the channel and is not written yet. -/
def Phase.inFlight : Phase → List Share
  | sending _ share => [share]
  | _ => []

/-- What became of a share that left the channel. -/
inductive Fate where
  | drained
  | written (connection : Nat)
  | lost
deriving DecidableEq

structure State (ι : Type) where
  jobs : Jobs.State ι
  connected : Bool
  counters : Counter → UInt64
  phase : Phase
  /-- The submit channel. -/
  queue : List Share
  /-- Ghost: the shares that left the channel. -/
  received : List (Share × Fate)
  /-- Ghost: the connections that have ended. -/
  closed : List Connection
  /-- Ghost: the messages whose jobs have been written. -/
  accepted : List JobMessage

def State.start (ι : Type) : State ι where
  jobs := Jobs.State.start ι
  connected := false
  counters := fun _ => 0
  phase := .top
  queue := []
  received := []
  closed := []
  accepted := []

inductive WorkerMove where
  | load
  | read
  | poll
  | hash
  | submit
  | endBatch

def WorkerMove.action {ι : Type} (w : ι) : WorkerMove → Jobs.Action ι
  | load => .load w
  | read => .read w
  | poll => .poll w
  | hash => .hash w
  | submit => .submit w
  | endBatch => .endBatch w

/-- What the network and the random generator do in a step of the getwork thread. -/
inductive Input where
  | none
  | unreachable
  | dial (keyBytes : List UInt8) (writeOk : Bool) (reads : List ReadResult)
  | write (mask : MaskKey) (ok : Bool)
  | read (maskKey : Nat → MaskKey) (writeOk : Nat → Bool) (reads : List ReadResult)

inductive Action (ι : Type) where
  | worker (w : ι) (move : WorkerMove)
  | quit
  | getwork (input : Input)

/-- `write_text`. -/
def writeText (mask : MaskKey) (ok : Bool) (client : WsClient) (payload : List UInt8) :
    WsClient × Except WsError Unit :=
  writeControl (fun _ => mask) (fun _ => ok) client opcodeText payload

section Steps

variable {ι Scratch : Type} [DecidableEq ι]
variable (backend : Backend Scratch) (encode : List UInt8 → List UInt8)
variable (tid : ι → UInt8) (random12 : ι → Random12)
variable (lossy : List UInt8 → Text) (sha1 : List UInt8 → List UInt8)
-- `serde_json::to_string` of a share and `serde_json::from_slice` of a job.
variable (serialize : SubmitBlockParams → List UInt8) (fromSlice : List UInt8 → Option JobMessage)
variable (daemonRpcAddress walletAddress : Text)

/-- Every way back to the head of the outer loop ends the connection. -/
def State.reconnect (st : State ι) (conn : Connection) : State ι :=
  { st with phase := .top, closed := st.closed ++ [conn] }

/-- The number of the connection that is up. -/
def State.number (st : State ι) : Nat := st.closed.length

/-- What the inner loop does with the result of `try_read_message`. -/
def State.handleOutcome (st : State ι) (conn : Connection) :
    Ws.Reassembly.Outcome → Option (State ι)
  | .message (.text data) | .message (.binary data) =>
      match fromSlice data with
      | some m => some { st with phase := .publishing conn m }
      | none => some (st.reconnect conn)
  | .message .close => some (st.reconnect conn)
  | .again => some { st with phase := .polling conn }
  | .failed _ => some (st.reconnect conn)
  | .panicked => none
  | .blocked => none

/-- A step of the getwork thread, `none` where the input is not the one it asks for. -/
def getwork (st : State ι) : Input → Option (State ι)
  | .none =>
      match st.phase with
      | .top => some { st with connected := false, phase := .checking }
      | .checking =>
          some { st with phase := if st.jobs.shared.exit then .returned else .dialing }
      | .waiting => some { st with phase := .top }
      | .opened conn => some { st with connected := true, phase := .draining conn }
      | .draining conn =>
          match st.queue with
          | share :: queue =>
              some { st with queue := queue, received := st.received ++ [(share, .drained)] }
          | [] => some { st with phase := .polling { conn with drainedAt := st.received.length } }
      | .polling conn =>
          if st.jobs.shared.exit then
            some { st with phase := .returned, closed := st.closed ++ [conn] }
          else some { st with phase := .pumping conn }
      | .pumping conn =>
          match st.queue with
          | share :: queue => some { st with queue := queue, phase := .sending conn share }
          | [] => some { st with phase := .reading conn }
      | .publishing conn m =>
          (Jobs.step backend encode tid random12 st.jobs (.write m.job)).map fun jobs =>
            { st with jobs := jobs, phase := .counting conn m, accepted := st.accepted ++ [m] }
      | .counting conn m =>
          (Jobs.step backend encode tid random12 st.jobs .increment).map fun jobs =>
            { st with jobs := jobs, phase := .storing conn m Counter.all }
      | .storing conn m (c :: counters) =>
          some { st with
            counters := Function.update st.counters c (m.value c)
            phase := .storing conn m counters }
      | .storing conn _ [] => some { st with phase := .polling conn }
      | .dialing | .sending .. | .reading .. | .returned => none
  | .unreachable =>
      match st.phase with
      | .dialing => some { st with phase := .waiting }
      | _ => none
  | .dial keyBytes writeOk reads =>
      match st.phase with
      | .dialing =>
          match (handshake lossy sha1 keyBytes writeOk daemonRpcAddress
            ("/ws/".toList ++ walletAddress) reads).opening with
          | .connected client =>
              some { st with phase := .opened { client := client, drainedAt := 0, sent := [] } }
          | .failed _ => some { st with phase := .waiting }
          | .blocked => none
      | _ => none
  | .write mask ok =>
      match st.phase with
      | .sending conn share =>
          match writeText mask ok conn.client (serialize share.2) with
          | (client, .ok _) =>
              some { st with
                phase := .pumping { conn with client := client, sent := conn.sent ++ [share] }
                received := st.received ++ [(share, .written st.number)] }
          | (client, .error _) =>
              some { st.reconnect { conn with client := client } with
                received := st.received ++ [(share, .lost)] }
      | _ => none
  | .read maskKey writeOk reads =>
      match st.phase with
      | .reading conn =>
          let call := tryReadMessage maskKey writeOk reads conn.client
          -- The socket has no results left that the call has not asked for.
          if call.rest = [] then
            st.handleOutcome fromSlice { conn with client := call.client } call.outcome
          else none
      | _ => none

/-- A step of the system.  A share that a worker submits goes into the channel. -/
def step (st : State ι) : Action ι → Option (State ι)
  | .worker w move =>
      (Jobs.step backend encode tid random12 st.jobs (move.action w)).map fun jobs =>
        { st with
          jobs := jobs
          queue := st.queue ++ jobs.submitted.drop st.jobs.submitted.length }
  | .quit =>
      (Jobs.step backend encode tid random12 st.jobs .quit).map fun jobs => { st with jobs := jobs }
  | .getwork input =>
      getwork backend encode tid random12 lossy sha1 serialize fromSlice daemonRpcAddress
        walletAddress st input

/-- The states that runs lead to. -/
inductive Reachable : State ι → Prop where
  | start : Reachable (State.start ι)
  | step {st st' : State ι} (action : Action ι) (h : Reachable st)
      (hstep : step backend encode tid random12 lossy sha1 serialize fromSlice daemonRpcAddress
        walletAddress st action = some st') : Reachable st'

end Steps

section Invariant

variable {ι Scratch : Type}
variable {backend : Backend Scratch} {encode : List UInt8 → List UInt8}
variable {tid : ι → UInt8} {random12 : ι → Random12}
variable {lossy : List UInt8 → Text} {sha1 : List UInt8 → List UInt8}
variable {serialize : SubmitBlockParams → List UInt8} {fromSlice : List UInt8 → Option JobMessage}
variable {daemonRpcAddress walletAddress : Text}

/-- The shares that were written on a connection. -/
def writtenOn (received : List (Share × Fate)) (k : Nat) : List Share :=
  received.filterMap fun r => if r.2 = .written k then some r.1 else none

/-- The bytes are whole masked frames: the shares, one text frame each, and control frames. -/
def WireOk (serialize : SubmitBlockParams → List UInt8) (written : List UInt8)
    (sent : List Share) : Prop :=
  ∃ fs : List Written, written = fs.flatMap Written.bytes ∧
    (fs.filter fun f => f.opcode = opcodeText).map Written.payload =
      sent.map (fun share => serialize share.2) ∧
    ∀ f ∈ fs, f.opcode = opcodeText ∨ f.IsControl

/-- What holds of the connection with number `k`. -/
structure ConnectionOk (serialize : SubmitBlockParams → List UInt8)
    (received : List (Share × Fate)) (k : Nat) (conn : Connection) : Prop where
  sent : conn.sent = writtenOn received k
  drained : conn.drainedAt ≤ received.length
  fresh : ∀ j share, received[j]? = some (share, .written k) → conn.drainedAt ≤ j
  wire : WireOk serialize conn.client.written conn.sent

def State.connections {ι : Type} (st : State ι) : List Connection :=
  st.closed ++ st.phase.connection.toList

/-- The value a counter mirrors, after these messages. -/
def lastValue (accepted : List JobMessage) (c : Counter) : UInt64 :=
  (accepted.getLast?.map fun m => m.value c).getD 0

/-- The counters, as far as the stores for the last message have come. -/
def CountersOk (accepted : List JobMessage) (counters : Counter → UInt64) : Phase → Prop
  | .counting _ m => ∃ before, accepted = before ++ [m] ∧ ∀ c, counters c = lastValue before c
  | .storing _ m rest => ∃ before done, accepted = before ++ [m] ∧ done ++ rest = Counter.all ∧
      (∀ c ∈ done, counters c = m.value c) ∧ ∀ c, c ∉ done → counters c = lastValue before c
  | _ => ∀ c, counters c = lastValue accepted c

/-- What the flag says: it is up from the upgrade to the head of the outer loop. -/
def ConnectedOk (connected : Bool) : Phase → Prop
  | .top | .returned => True
  | .checking | .dialing | .waiting | .opened _ => connected = false
  | _ => connected = true

/-- Nothing is written on a connection before the channel has been drained. -/
def DrainOk : Phase → Prop
  | .opened conn | .draining conn => conn.sent = []
  | _ => True

def Phase.isCounting : Phase → Bool
  | counting _ _ => true
  | _ => false

structure SessionInv (serialize : SubmitBlockParams → List UInt8) (st : State ι) : Prop where
  fifo : st.received.map Prod.fst ++ st.phase.inFlight ++ st.queue = st.jobs.submitted
  pending : st.jobs.shared.pending = st.phase.isCounting
  history : st.jobs.shared.history = Jobs.noJob :: st.accepted.map JobMessage.job
  connected : ConnectedOk st.connected st.phase
  counters : CountersOk st.accepted st.counters st.phase
  closed : ∀ k conn, st.closed[k]? = some conn → ConnectionOk serialize st.received k conn
  current : ∀ conn, st.phase.connection = some conn →
    ConnectionOk serialize st.received st.number conn
  fates : ∀ r ∈ st.received, ∀ k, r.2 = .written k →
    k < st.number + st.phase.connection.toList.length
  drain : DrainOk st.phase

theorem getElem?_concat {α : Type} {xs : List α} {x y : α} {k : Nat}
    (h : (xs ++ [x])[k]? = some y) : xs[k]? = some y ∨ (k = xs.length ∧ x = y) := by
  rcases Nat.lt_or_ge k xs.length with hlt | hge
  · rw [List.getElem?_append_left hlt] at h
    exact .inl h
  · rw [List.getElem?_append_right hge, List.getElem?_singleton] at h
    split at h
    · exact .inr ⟨by omega, Option.some.inj h⟩
    · cases h

theorem writtenOn_append (received : List (Share × Fate)) (r : Share × Fate) (k : Nat) :
    writtenOn (received ++ [r]) k =
      writtenOn received k ++ (if r.2 = .written k then [r.1] else []) := by
  rw [writtenOn, List.filterMap_append]
  congr 1
  by_cases hfate : r.2 = .written k
  · simp [hfate]
  · simp [hfate]

theorem drained_ne_written (k : Nat) : Fate.drained ≠ .written k := by
  intro h
  cases h

theorem lost_ne_written (k : Nat) : Fate.lost ≠ .written k := by
  intro h
  cases h

theorem fates_append {received : List (Share × Fate)} {bound : Nat}
    (h : ∀ r ∈ received, ∀ k, r.2 = .written k → k < bound) {share : Share} {fate : Fate}
    (hfate : ∀ k, fate = .written k → k < bound) :
    ∀ r ∈ received ++ [(share, fate)], ∀ k, r.2 = .written k → k < bound := by
  intro r hr k hk
  rcases List.mem_append.mp hr with hr | hr
  · exact h r hr k hk
  · rw [List.mem_singleton.mp hr] at hk
    exact hfate k hk

/-- A connection that is not up knows nothing of a share written now. -/
theorem ConnectionOk.append_other {received : List (Share × Fate)} {k : Nat} {conn : Connection}
    (h : ConnectionOk serialize received k conn) {share : Share} {fate : Fate}
    (hfate : fate ≠ .written k) : ConnectionOk serialize (received ++ [(share, fate)]) k conn := by
  refine ⟨?_, ?_, ?_, h.wire⟩
  · rw [writtenOn_append, if_neg hfate, List.append_nil]
    exact h.sent
  · rw [List.length_append]
    exact h.drained.trans (Nat.le_add_right _ _)
  · intro j other hj
    rcases Nat.lt_or_ge j received.length with hlt | hge
    · rw [List.getElem?_append_left hlt] at hj
      exact h.fresh j other hj
    · exact h.drained.trans hge

theorem ConnectionOk.append_written {received : List (Share × Fate)} {k : Nat}
    {conn : Connection} (h : ConnectionOk serialize received k conn) (share : Share)
    {client : WsClient} (hwire : WireOk serialize client.written (conn.sent ++ [share])) :
    ConnectionOk serialize (received ++ [(share, .written k)]) k
      { conn with client := client, sent := conn.sent ++ [share] } := by
  refine ⟨?_, ?_, ?_, hwire⟩
  · rw [writtenOn_append, if_pos rfl, h.sent]
  · rw [List.length_append]
    exact h.drained.trans (Nat.le_add_right _ _)
  · intro j other hj
    rcases Nat.lt_or_ge j received.length with hlt | hge
    · rw [List.getElem?_append_left hlt] at hj
      exact h.fresh j other hj
    · exact h.drained.trans hge

theorem ConnectionOk.setClient {received : List (Share × Fate)} {k : Nat} {conn : Connection}
    (h : ConnectionOk serialize received k conn) {client : WsClient}
    (hwire : WireOk serialize client.written conn.sent) :
    ConnectionOk serialize received k { conn with client := client } :=
  ⟨h.sent, h.drained, h.fresh, hwire⟩

theorem WireOk.answered {client client' : WsClient} {sent : List Share}
    (h : WireOk serialize client.written sent) (hanswered : Answered client client') :
    WireOk serialize client'.written sent := by
  obtain ⟨fs, hwritten, htexts, hkinds⟩ := h
  obtain ⟨answers, hwritten', hcontrol⟩ := hanswered
  refine ⟨fs ++ answers, ?_, ?_, ?_⟩
  · rw [hwritten', hwritten, List.flatMap_append]
  · have hnone : (answers.filter fun f => f.opcode = opcodeText) = [] := by
      rw [List.filter_eq_nil_iff]
      intro f hf htext
      rw [decide_eq_true_eq] at htext
      rcases hcontrol f hf with hpong | hclose
      · rw [htext] at hpong
        exact absurd hpong (by decide)
      · rw [htext] at hclose
        exact absurd hclose (by decide)
    rw [List.filter_append, hnone, List.append_nil]
    exact htexts
  · intro f hf
    rcases List.mem_append.mp hf with hf | hf
    · exact hkinds f hf
    · exact .inr (hcontrol f hf)

theorem WireOk.write {written : List UInt8} {sent : List Share}
    (h : WireOk serialize written sent) (share : Share) (mask : MaskKey) :
    WireOk serialize
      (written ++ encodeFrame opcodeText (serialize share.2) (some mask)) (sent ++ [share]) := by
  obtain ⟨fs, rfl, htexts, hkinds⟩ := h
  refine ⟨fs ++ [⟨opcodeText, serialize share.2, mask⟩], ?_, ?_, ?_⟩
  · simp [Written.bytes]
  · simp [List.filter_append, htexts]
  · intro f hf
    rcases List.mem_append.mp hf with hf | hf
    · exact hkinds f hf
    · rw [List.mem_singleton.mp hf]
      exact .inl rfl

theorem WireOk.start (leftover : List UInt8) :
    WireOk serialize (WsClient.start leftover).written [] :=
  ⟨[], rfl, rfl, by simp⟩

/-- Moves of the getwork thread between phases of one connection, or of none. -/
theorem SessionInv.move {st : State ι} (h : SessionInv serialize st) {old phase : Phase}
    (hphase : st.phase = old) (connected : Bool) (hconn : phase.connection = old.connection)
    (hflight : phase.inFlight = old.inFlight) (hcounting : phase.isCounting = old.isCounting)
    (hconnected : ConnectedOk connected phase)
    (hcounters : CountersOk st.accepted st.counters phase) (hdrain : DrainOk phase) :
    SessionInv serialize { st with phase := phase, connected := connected } := by
  subst hphase
  refine ⟨?_, ?_, h.history, hconnected, hcounters, h.closed, ?_, ?_, hdrain⟩
  · exact hflight ▸ h.fifo
  · exact h.pending.trans hcounting.symm
  · intro conn hcurrent
    exact h.current conn (hconn ▸ hcurrent)
  · intro r hr k hk
    have hlt := h.fates r hr k hk
    change k < st.number + phase.connection.toList.length
    rwa [hconn]

/-- The end of a connection. -/
theorem SessionInv.close {st : State ι} (h : SessionInv serialize st) {old phase : Phase}
    (hphase : st.phase = old) {conn conn' : Connection} (hconn : old.connection = some conn)
    (hok : ConnectionOk serialize st.received st.number conn') (hnone : phase.connection = none)
    (hflight : phase.inFlight = old.inFlight) (hcounting : phase.isCounting = old.isCounting)
    (hconnected : ConnectedOk st.connected phase)
    (hcounters : CountersOk st.accepted st.counters phase) (hdrain : DrainOk phase) :
    SessionInv serialize { st with phase := phase, closed := st.closed ++ [conn'] } := by
  subst hphase
  refine ⟨?_, ?_, h.history, hconnected, hcounters, ?_, ?_, ?_, hdrain⟩
  · exact hflight ▸ h.fifo
  · exact h.pending.trans hcounting.symm
  · intro k other hk
    rcases getElem?_concat hk with hk | ⟨rfl, rfl⟩
    · exact h.closed k other hk
    · exact hok
  · intro other hother
    exact absurd (hnone.symm.trans hother) (by simp)
  · intro r hr k hk
    have hlt := h.fates r hr k hk
    rw [hconn] at hlt
    change k < (st.closed ++ [conn']).length + phase.connection.toList.length
    rw [hnone, List.length_append]
    exact hlt

/-- Steps of other threads: the channel grows by what has been submitted. -/
theorem SessionInv.setJobs {st : State ι} (h : SessionInv serialize st) (jobs : Jobs.State ι)
    (new : List Share) (hpending : jobs.shared.pending = st.jobs.shared.pending)
    (hhistory : jobs.shared.history = st.jobs.shared.history)
    (hsubmitted : jobs.submitted = st.jobs.submitted ++ new) :
    SessionInv serialize { st with jobs := jobs, queue := st.queue ++ new } := by
  refine ⟨?_, hpending.trans h.pending, hhistory.trans h.history, h.connected, h.counters,
    h.closed, h.current, h.fates, h.drain⟩
  change st.received.map Prod.fst ++ st.phase.inFlight ++ (st.queue ++ new) = jobs.submitted
  rw [hsubmitted, ← h.fifo, List.append_assoc, List.append_assoc, List.append_assoc]

/-- The job is written and the counter incremented; the other fields of the state stay. -/
theorem SessionInv.publish {st : State ι} (h : SessionInv serialize st) {old phase : Phase}
    (hphase : st.phase = old) {jobs : Jobs.State ι} {accepted : List JobMessage}
    (hconn : phase.connection = old.connection) (hflight : phase.inFlight = old.inFlight)
    (hconnected : ConnectedOk st.connected phase)
    (hcounters : CountersOk accepted st.counters phase) (hdrain : DrainOk phase)
    (hpending : jobs.shared.pending = phase.isCounting)
    (hhistory : jobs.shared.history = Jobs.noJob :: accepted.map JobMessage.job)
    (hsubmitted : jobs.submitted = st.jobs.submitted) :
    SessionInv serialize { st with jobs := jobs, phase := phase, accepted := accepted } := by
  subst hphase
  refine ⟨?_, hpending, hhistory, hconnected, hcounters, h.closed, ?_, ?_, hdrain⟩
  · change st.received.map Prod.fst ++ phase.inFlight ++ st.queue = jobs.submitted
    rw [hflight, hsubmitted]
    exact h.fifo
  · intro conn hcurrent
    exact h.current conn (hconn ▸ hcurrent)
  · intro r hr k hk
    have hlt := h.fates r hr k hk
    change k < st.number + phase.connection.toList.length
    rwa [hconn]

theorem lastValue_append (before : List JobMessage) (m : JobMessage) (c : Counter) :
    lastValue (before ++ [m]) c = m.value c := by
  rw [lastValue, List.getLast?_append, List.getLast?_singleton]
  rfl

theorem counter_mem_all (c : Counter) : c ∈ Counter.all := by
  cases c <;> decide

theorem counter_all_nodup : Counter.all.Nodup := by decide

/-- A store moves one counter to the last message. -/
theorem CountersOk.store {accepted : List JobMessage} {counters : Counter → UInt64}
    {conn : Connection} {m : JobMessage} {c : Counter} {rest : List Counter}
    (h : CountersOk accepted counters (.storing conn m (c :: rest))) :
    CountersOk accepted (Function.update counters c (m.value c)) (.storing conn m rest) := by
  obtain ⟨before, done, haccepted, hall, hdone, hbefore⟩ := h
  have hnotMem : c ∉ done := by
    have hnodup := counter_all_nodup
    rw [← hall, List.nodup_append] at hnodup
    exact fun hmem => hnodup.2.2 c hmem c List.mem_cons_self rfl
  refine ⟨before, done ++ [c], haccepted, ?_, ?_, ?_⟩
  · rw [← hall, List.append_assoc]
    rfl
  · intro other hother
    rcases List.mem_append.mp hother with hother | hother
    · have hne : other ≠ c := fun heq => hnotMem (heq ▸ hother)
      rw [Function.update_of_ne hne]
      exact hdone other hother
    · rw [List.mem_singleton.mp hother, Function.update_self]
  · intro other hother
    rw [List.mem_append, not_or, List.mem_singleton] at hother
    rw [Function.update_of_ne hother.2]
    exact hbefore other hother.1

/-- After the last store, the counters are those of the last message. -/
theorem CountersOk.stored {accepted : List JobMessage} {counters : Counter → UInt64}
    {conn : Connection} {m : JobMessage} (h : CountersOk accepted counters (.storing conn m [])) :
    ∀ c, counters c = lastValue accepted c := by
  obtain ⟨before, done, haccepted, hall, hdone, -⟩ := h
  intro c
  rw [List.append_nil] at hall
  rw [haccepted, lastValue_append]
  exact hdone c (hall ▸ counter_mem_all c)

/-- Once the channel is drained, the connection begins with the next share. -/
theorem ConnectionOk.begin {received : List (Share × Fate)} {k : Nat} {conn : Connection}
    (h : ConnectionOk serialize received k conn) (hnone : writtenOn received k = []) :
    ConnectionOk serialize received k { conn with drainedAt := received.length } := by
  refine ⟨h.sent, Nat.le_refl _, ?_, h.wire⟩
  -- nothing has been written on this connection yet
  intro j share hj
  have hmem : share ∈ writtenOn received k :=
    List.mem_filterMap.mpr ⟨_, List.mem_of_getElem? hj, if_pos rfl⟩
  rw [hnone] at hmem
  cases hmem

/-- What `try_read_message` returned. -/
theorem SessionInv.handleOutcome {st st' : State ι} (h : SessionInv serialize st)
    {conn conn' : Connection} (hphase : st.phase = .reading conn)
    (hok : ConnectionOk serialize st.received st.number conn')
    {outcome : Ws.Reassembly.Outcome}
    (hstep : st.handleOutcome fromSlice conn' outcome = some st') : SessionInv serialize st' := by
  have hcounters := h.counters
  have hconnected := h.connected
  have hfates := h.fates
  have hfifo := h.fifo
  rw [hphase] at hcounters hconnected hfates hfifo
  have hpending := h.pending
  rw [hphase] at hpending
  have hclose : SessionInv serialize (st.reconnect conn') :=
    h.close hphase rfl hok rfl rfl rfl trivial hcounters trivial
  have hgo : ∀ phase : Phase, phase.connection = some conn' → phase.inFlight = [] →
      phase.isCounting = false → ConnectedOk st.connected phase →
      CountersOk st.accepted st.counters phase → DrainOk phase →
      SessionInv serialize { st with phase := phase } := by
    intro phase hconn hflight hcounting hconnected' hcounters' hdrain'
    refine ⟨?_, hpending.trans hcounting.symm, h.history, hconnected', hcounters', h.closed, ?_, ?_,
      hdrain'⟩
    · rw [← hfifo]
      exact congrArg (st.received.map Prod.fst ++ · ++ st.queue) hflight
    · intro other hother
      obtain rfl : conn' = other := Option.some.inj (hconn.symm.trans hother)
      exact hok
    · intro r hr k hk
      change k < st.number + phase.connection.toList.length
      rw [hconn]
      exact hfates r hr k hk
  have hmessage : ∀ data : List UInt8, (match fromSlice data with
      | some m => some { st with phase := .publishing conn' m }
      | none => some (st.reconnect conn')) = some st' → SessionInv serialize st' := by
    intro data hdata
    split at hdata
    · cases hdata
      exact hgo _ rfl rfl rfl hconnected hcounters trivial
    · cases hdata
      exact hclose
  cases outcome with
  | message m =>
      cases m with
      | text data => exact hmessage data hstep
      | binary data => exact hmessage data hstep
      | close =>
          cases hstep
          exact hclose
  | again =>
      cases hstep
      exact hgo _ rfl rfl rfl hconnected hcounters trivial
  | failed e =>
      cases hstep
      exact hclose
  | panicked => cases hstep
  | blocked => cases hstep

theorem sessionInv_start : SessionInv serialize (State.start ι) where
  fifo := rfl
  pending := rfl
  history := rfl
  connected := trivial
  counters := fun _ => rfl
  closed := by simp [State.start]
  current := nofun
  fates := by simp [State.start]
  drain := trivial

theorem handleOutcome_jobs {st st' : State ι} {conn : Connection}
    {outcome : Ws.Reassembly.Outcome} (hstep : st.handleOutcome fromSlice conn outcome = some st') :
    st'.jobs = st.jobs := by
  unfold State.handleOutcome at hstep
  split at hstep
  · split at hstep <;> cases hstep <;> rfl
  · split at hstep <;> cases hstep <;> rfl
  all_goals cases hstep
  all_goals rfl

theorem State.connections_cases {st : State ι} {k : Nat} {conn : Connection}
    (h : st.connections[k]? = some conn) :
    st.closed[k]? = some conn ∨ (k = st.number ∧ st.phase.connection = some conn) := by
  rw [State.connections] at h
  cases hconn : st.phase.connection with
  | none =>
      rw [hconn, Option.toList_none, List.append_nil] at h
      exact .inl h
  | some other =>
      rw [hconn] at h
      rcases getElem?_concat h with hclosed | ⟨hk, rfl⟩
      · exact .inl hclosed
      · exact .inr ⟨hk, rfl⟩

variable [DecidableEq ι]

theorem worker_step {jobs jobs' : Jobs.State ι} {w : ι} {move : WorkerMove}
    (hstep : Jobs.step backend encode tid random12 jobs (move.action w) = some jobs') :
    jobs'.shared = jobs.shared ∧ ∃ new, jobs'.submitted = jobs.submitted ++ new := by
  have hsame : ∀ {jobs'' : Jobs.State ι}, some jobs'' = some jobs' →
      jobs''.shared = jobs.shared → jobs''.submitted = jobs.submitted →
      jobs'.shared = jobs.shared ∧ ∃ new, jobs'.submitted = jobs.submitted ++ new := by
    rintro jobs'' ⟨⟩ hshared hsubmitted
    exact ⟨hshared, [], by rw [hsubmitted, List.append_nil]⟩
  cases move with
  | load =>
      simp only [WorkerMove.action, Jobs.step] at hstep
      split at hstep
      · split at hstep
        · exact hsame hstep rfl rfl
        · exact hsame hstep rfl rfl
      · cases hstep
  | read =>
      simp only [WorkerMove.action, Jobs.step] at hstep
      split at hstep
      · split at hstep
        · exact hsame hstep rfl rfl
        · exact hsame hstep rfl rfl
      · cases hstep
  | poll =>
      simp only [WorkerMove.action, Jobs.step] at hstep
      split at hstep
      · split at hstep
        · exact hsame hstep rfl rfl
        · exact hsame hstep rfl rfl
      · cases hstep
  | hash =>
      simp only [WorkerMove.action, Jobs.step] at hstep
      split at hstep
      · exact hsame hstep rfl rfl
      · cases hstep
  | submit =>
      simp only [WorkerMove.action, Jobs.step] at hstep
      split at hstep
      · cases hstep
        exact ⟨rfl, _, rfl⟩
      · cases hstep
  | endBatch =>
      simp only [WorkerMove.action, Jobs.step] at hstep
      split at hstep
      · exact hsame hstep rfl rfl
      · cases hstep

/-- The channel is drained before anything is written on the new connection. -/
theorem SessionInv.getwork_draining {st st' : State ι} (h : SessionInv serialize st)
    {conn : Connection} (hphase : st.phase = .draining conn)
    (hstep : getwork backend encode tid random12 lossy sha1 serialize fromSlice daemonRpcAddress
      walletAddress st .none = some st') : SessionInv serialize st' := by
  have hcounters := h.counters
  have hconnected := h.connected
  have hcurrent := h.current
  have hdrain := h.drain
  have hfifo := h.fifo
  have hfates := h.fates
  simp only [getwork, hphase] at hstep
  rw [hphase] at hcounters hconnected hcurrent hdrain hfifo hfates
  have hok := hcurrent conn rfl
  have hnone : writtenOn st.received st.number = [] := hok.sent.symm.trans hdrain
  split at hstep
  · rename_i share queue hqueue
    cases hstep
    rw [hqueue] at hfifo
    refine ⟨?_, ?_, h.history, hconnected, hcounters, ?_, ?_, ?_, hdrain⟩
    · rw [← hfifo]
      simp [Phase.inFlight]
    · exact h.pending.trans (by rw [hphase])
    · exact fun k other hk => (h.closed k other hk).append_other (drained_ne_written k)
    · exact fun other hother => (hcurrent other hother).append_other (drained_ne_written _)
    · exact fates_append hfates fun k hk => absurd hk (drained_ne_written k)
  · cases hstep
    refine ⟨?_, ?_, h.history, hconnected, hcounters, h.closed, ?_, hfates, trivial⟩
    · exact hfifo
    · exact h.pending.trans (by rw [hphase]; rfl)
    · rintro other ⟨⟩
      exact hok.begin hnone

/-- A step that the network has no part in. -/
theorem SessionInv.getwork_none {st st' : State ι} (h : SessionInv serialize st)
    (hstep : getwork backend encode tid random12 lossy sha1 serialize fromSlice daemonRpcAddress
      walletAddress st .none = some st') : SessionInv serialize st' := by
  have hcounters := h.counters
  have hconnected := h.connected
  have hcurrent := h.current
  have hdrain := h.drain
  have hfifo := h.fifo
  have hfates := h.fates
  cases hphase : st.phase with
  | top =>
      simp only [getwork, hphase] at hstep
      cases hstep
      rw [hphase] at hcounters
      exact h.move hphase false rfl rfl rfl rfl hcounters trivial
  | checking =>
      simp only [getwork, hphase] at hstep
      cases hstep
      rw [hphase] at hcounters hconnected
      split
      · exact h.move hphase _ rfl rfl rfl trivial hcounters trivial
      · exact h.move hphase _ rfl rfl rfl hconnected hcounters trivial
  | waiting =>
      simp only [getwork, hphase] at hstep
      cases hstep
      rw [hphase] at hcounters
      exact h.move hphase _ rfl rfl rfl trivial hcounters trivial
  | opened conn =>
      simp only [getwork, hphase] at hstep
      cases hstep
      rw [hphase] at hcounters hdrain
      exact h.move hphase true rfl rfl rfl rfl hcounters hdrain
  | draining conn => exact h.getwork_draining hphase hstep
  | polling conn =>
      simp only [getwork, hphase] at hstep
      rw [hphase] at hcounters hconnected hcurrent
      split at hstep
      · cases hstep
        exact h.close hphase rfl (hcurrent conn rfl) rfl rfl rfl trivial hcounters trivial
      · cases hstep
        exact h.move hphase _ rfl rfl rfl hconnected hcounters trivial
  | pumping conn =>
      simp only [getwork, hphase] at hstep
      rw [hphase] at hcounters hconnected hcurrent hfifo hfates
      split at hstep
      · rename_i share queue hqueue
        cases hstep
        rw [hqueue] at hfifo
        refine ⟨?_, ?_, h.history, hconnected, hcounters, h.closed, hcurrent, hfates, trivial⟩
        · rw [← hfifo]
          simp [Phase.inFlight]
        · exact h.pending.trans (by rw [hphase]; rfl)
      · cases hstep
        exact h.move hphase _ rfl rfl rfl hconnected hcounters trivial
  | publishing conn m =>
      simp only [getwork, hphase] at hstep
      rw [hphase] at hcounters hconnected
      obtain ⟨jobs, hjobs, rfl⟩ := Option.map_eq_some_iff.mp hstep
      simp only [Jobs.step] at hjobs
      split at hjobs
      · cases hjobs
      · cases hjobs
        refine h.publish hphase rfl rfl hconnected ⟨st.accepted, rfl, hcounters⟩ trivial rfl ?_ rfl
        rw [h.history, List.map_append]
        rfl
  | counting conn m =>
      simp only [getwork, hphase] at hstep
      rw [hphase] at hcounters hconnected
      obtain ⟨jobs, hjobs, rfl⟩ := Option.map_eq_some_iff.mp hstep
      obtain ⟨before, haccepted, hbefore⟩ := hcounters
      simp only [Jobs.step] at hjobs
      split at hjobs
      · cases hjobs
        exact h.publish hphase rfl rfl hconnected
          ⟨before, [], haccepted, rfl, fun _ hc => absurd hc List.not_mem_nil, fun c _ => hbefore c⟩
          trivial rfl h.history rfl
      · cases hjobs
  | storing conn m rest =>
      rw [hphase] at hcounters hconnected
      cases rest with
      | nil =>
          simp only [getwork, hphase] at hstep
          cases hstep
          exact h.move hphase _ rfl rfl rfl hconnected hcounters.stored trivial
      | cons c rest =>
          simp only [getwork, hphase] at hstep
          cases hstep
          rw [hphase] at hcurrent hfates
          refine ⟨?_, ?_, h.history, hconnected, hcounters.store, h.closed, hcurrent, hfates,
            trivial⟩
          · rw [hphase] at hfifo
            exact hfifo
          · exact h.pending.trans (by rw [hphase]; rfl)
  | dialing =>
      simp only [getwork, hphase] at hstep
      cases hstep
  | sending conn share =>
      simp only [getwork, hphase] at hstep
      cases hstep
  | reading conn =>
      simp only [getwork, hphase] at hstep
      cases hstep
  | returned =>
      simp only [getwork, hphase] at hstep
      cases hstep

/-- A share is written, or lost with its connection. -/
theorem SessionInv.getwork_write {st st' : State ι} (h : SessionInv serialize st) {mask : MaskKey}
    {ok : Bool}
    (hstep : getwork backend encode tid random12 lossy sha1 serialize fromSlice daemonRpcAddress
      walletAddress st (.write mask ok) = some st') : SessionInv serialize st' := by
  have hcounters := h.counters
  have hconnected := h.connected
  have hcurrent := h.current
  have hfifo := h.fifo
  have hfates := h.fates
  have hpending := h.pending
  cases hphase : st.phase with
  | sending conn share =>
      simp only [getwork, hphase, writeText, writeControl] at hstep
      rw [hphase] at hcounters hconnected hcurrent hfifo hfates hpending
      have hok := hcurrent conn rfl
      have hlist : ∀ fate, (st.received ++ [(share, fate)]).map Prod.fst ++ [] ++ st.queue =
          st.jobs.submitted := by
        intro fate
        rw [← hfifo]
        simp [Phase.inFlight]
      cases ok with
      | true =>
          cases hstep
          refine ⟨hlist _, hpending, h.history, hconnected, hcounters, ?_, ?_, ?_, trivial⟩
          · intro k other hk
            refine (h.closed k other hk).append_other fun heq => ?_
            obtain rfl : st.number = k := Fate.written.inj heq
            exact absurd (List.getElem?_eq_some_iff.mp hk).1 (Nat.lt_irrefl _)
          · rintro other ⟨⟩
            exact hok.append_written share (hok.wire.write share mask)
          · refine fates_append hfates fun k hk => ?_
            obtain rfl : st.number = k := Fate.written.inj hk
            exact Nat.lt_succ_self _
      | false =>
          have hlost : ConnectionOk serialize (st.received ++ [(share, .lost)]) st.number conn :=
            hok.append_other (lost_ne_written _)
          cases hstep
          refine ⟨hlist _, hpending, h.history, trivial, hcounters, ?_, ?_, ?_, trivial⟩
          · intro k other hk
            rcases getElem?_concat hk with hk | ⟨rfl, rfl⟩
            · exact (h.closed k other hk).append_other (lost_ne_written k)
            · exact hlost.setClient hlost.wire
          · intro other hother
            cases hother
          · intro r hr k hk
            change k < (st.closed ++ [_]).length + 0
            rw [List.length_append]
            exact fates_append hfates (fun j hj => absurd hj (lost_ne_written j)) r hr k hk
  | top | checking | dialing | waiting | opened | draining | polling | pumping | reading
  | publishing | counting | storing | returned =>
      simp only [getwork, hphase] at hstep
      cases hstep

theorem SessionInv.getwork_any {st st' : State ι} (h : SessionInv serialize st) {input : Input}
    (hstep : getwork backend encode tid random12 lossy sha1 serialize fromSlice daemonRpcAddress
      walletAddress st input = some st') : SessionInv serialize st' := by
  have hcounters := h.counters
  have hconnected := h.connected
  cases input with
  | none => exact h.getwork_none hstep
  | unreachable =>
      simp only [getwork] at hstep
      split at hstep
      · rename_i hphase
        cases hstep
        rw [hphase] at hcounters hconnected
        exact h.move hphase _ rfl rfl rfl hconnected hcounters trivial
      · cases hstep
  | dial keyBytes writeOk reads =>
      simp only [getwork] at hstep
      split at hstep
      · rename_i hphase
        have hfates := h.fates
        rw [hphase] at hcounters hconnected hfates
        split at hstep
        · rename_i client hopening
          cases hstep
          obtain ⟨leftover, rfl⟩ := handshake_client lossy sha1 hopening
          refine ⟨?_, ?_, h.history, hconnected, hcounters, h.closed, ?_, ?_, rfl⟩
          · have hfifo := h.fifo
            rw [hphase] at hfifo
            exact hfifo
          · exact h.pending.trans (by rw [hphase]; rfl)
          · rintro other ⟨⟩
            have hnone : writtenOn st.received st.number = [] := by
              refine List.filterMap_eq_nil_iff.mpr fun r hr => if_neg fun hk => ?_
              exact absurd (hfates r hr _ hk) (Nat.lt_irrefl _)
            exact ⟨hnone.symm, Nat.zero_le _, fun _ _ _ => Nat.zero_le _, WireOk.start leftover⟩
          · intro r hr k hk
            exact Nat.lt_succ_of_lt (hfates r hr k hk)
        · cases hstep
          exact h.move hphase _ rfl rfl rfl hconnected hcounters trivial
        · cases hstep
      · cases hstep
  | write mask ok => exact h.getwork_write hstep
  | read maskKey writeOk reads =>
      simp only [getwork] at hstep
      split at hstep
      · rename_i conn hphase
        split at hstep
        · have hok : ConnectionOk serialize st.received st.number conn :=
            h.current conn (by rw [hphase]; rfl)
          have hanswered := (tryReadMessage_any maskKey writeOk reads conn.client).1
          exact h.handleOutcome hphase (hok.setClient (hok.wire.answered hanswered)) hstep
        · cases hstep
      · cases hstep

theorem SessionInv.next {st st' : State ι} (h : SessionInv serialize st) {action : Action ι}
    (hstep : step backend encode tid random12 lossy sha1 serialize fromSlice daemonRpcAddress
      walletAddress st action = some st') : SessionInv serialize st' := by
  cases action with
  | worker w move =>
      obtain ⟨jobs, hjobs, rfl⟩ := Option.map_eq_some_iff.mp hstep
      obtain ⟨hshared, new, hnew⟩ := worker_step hjobs
      have hdrop : jobs.submitted.drop st.jobs.submitted.length = new := by
        rw [hnew, List.drop_left]
      rw [hdrop]
      exact h.setJobs jobs new (by rw [hshared]) (by rw [hshared]) hnew
  | quit =>
      obtain rfl := Option.some.inj hstep
      have hquit := h.setJobs { st.jobs with shared := { st.jobs.shared with exit := true } } []
        rfl rfl (List.append_nil _).symm
      rwa [List.append_nil] at hquit
  | getwork input => exact h.getwork_any hstep

theorem Reachable.inv {st : State ι}
    (h : Reachable backend encode tid random12 lossy sha1 serialize fromSlice daemonRpcAddress
      walletAddress st) : SessionInv serialize st := by
  induction h with
  | start => exact sessionInv_start
  | step _ _ hstep ih => exact ih.next hstep

/-- The getwork thread touches the job in its two steps only. -/
theorem getwork_jobs {st st' : State ι} {input : Input}
    (hstep : getwork backend encode tid random12 lossy sha1 serialize fromSlice daemonRpcAddress
      walletAddress st input = some st') :
    st'.jobs = st.jobs ∨
      ∃ action, Jobs.step backend encode tid random12 st.jobs action = some st'.jobs := by
  cases input with
  | none =>
      simp only [getwork] at hstep
      split at hstep
      case h_8 =>
        obtain ⟨jobs, hjobs, rfl⟩ := Option.map_eq_some_iff.mp hstep
        exact .inr ⟨_, hjobs⟩
      case h_9 =>
        obtain ⟨jobs, hjobs, rfl⟩ := Option.map_eq_some_iff.mp hstep
        exact .inr ⟨_, hjobs⟩
      all_goals first | cases hstep | (split at hstep <;> cases hstep)
      all_goals exact .inl rfl
  | unreachable =>
      simp only [getwork] at hstep
      split at hstep
      · cases hstep
        exact .inl rfl
      · cases hstep
  | dial keyBytes writeOk reads =>
      simp only [getwork] at hstep
      split at hstep
      · split at hstep
        · cases hstep
          exact .inl rfl
        · cases hstep
          exact .inl rfl
        · cases hstep
      · cases hstep
  | write mask ok =>
      simp only [getwork] at hstep
      split at hstep
      · split at hstep
        · cases hstep
          exact .inl rfl
        · cases hstep
          exact .inl rfl
      · cases hstep
  | read maskKey writeOk reads =>
      simp only [getwork] at hstep
      split at hstep
      · split at hstep
        · exact .inl (handleOutcome_jobs hstep)
        · cases hstep
      · cases hstep

/-- The threads that share the job run as they do without the network. -/
theorem Reachable.jobs {st : State ι}
    (h : Reachable backend encode tid random12 lossy sha1 serialize fromSlice daemonRpcAddress
      walletAddress st) : Jobs.Reachable backend encode tid random12 st.jobs := by
  induction h with
  | start => exact .start
  | step action _ hstep ih =>
      cases action with
      | worker w move =>
          obtain ⟨jobs, hjobs, rfl⟩ := Option.map_eq_some_iff.mp hstep
          exact ih.step _ hjobs
      | quit =>
          obtain rfl := Option.some.inj hstep
          exact ih.step .quit rfl
      | getwork input =>
          rcases getwork_jobs hstep with hsame | ⟨action, hjobs⟩
          · rwa [hsame]
          · exact ih.step action hjobs

/-- The system can be run. -/
theorem run_reachable (actions : List (Action ι)) {st st' : State ι}
    (h : Reachable backend encode tid random12 lossy sha1 serialize fromSlice daemonRpcAddress
      walletAddress st)
    (hrun : actions.foldlM (step backend encode tid random12 lossy sha1 serialize fromSlice
      daemonRpcAddress walletAddress) st = some st') :
    Reachable backend encode tid random12 lossy sha1 serialize fromSlice daemonRpcAddress
      walletAddress st' := by
  induction actions generalizing st with
  | nil =>
      obtain rfl := Option.some.inj hrun
      exact h
  | cons action actions ih =>
      rw [List.foldlM_cons] at hrun
      obtain ⟨next, hstep, hrest⟩ := Option.bind_eq_some_iff.mp hrun
      exact ih (h.step action hstep) hrest

def sampleMessage : JobMessage where
  job := sampleJob
  blocks := 2
  miniblocks := 105
  rejected := 1
  difficultyuint64 := 1
  height := 7

/-- The fields that are not zero or empty. -/
def sampleText : List UInt8 :=
  utf8 "\x7b\"blockhashing_blob\":\"".toList ++ sampleJob.blockhashingBlob ++
    utf8 "\",\"difficulty\":\"1\",\"difficultyuint64\":1,\"height\":7,\"blocks\":2,".toList ++
    utf8 "\"miniblocks\":105,\"rejected\":1\x7d".toList

def sampleFromSlice (data : List UInt8) : Option JobMessage :=
  if data = sampleText then some sampleMessage else none

/-- `hex::encode`. -/
def sampleHex (bytes : List UInt8) : List UInt8 :=
  let digit (v : UInt8) : UInt8 := if v < 10 then 0x30 + v else 0x57 + v
  bytes.flatMap fun (b : UInt8) => [digit (b >>> 4), digit (b &&& 15)]

/-- The object of a share whose strings have no character to escape. -/
def sampleSerialize (share : SubmitBlockParams) : List UInt8 :=
  utf8 "\x7b\"jobid\":\"".toList ++ share.jobid ++ utf8 "\",\"mbl_blob\":\"".toList ++
    share.mblBlob ++ utf8 "\"\x7d".toList

def sampleMask : MaskKey := ⟨List.replicate 4 7, List.length_replicate⟩

/-- A connection is made, a job arrives, and the share found for it is written. -/
def sampleActions : List (Action Unit) :=
  [.getwork .none, .getwork .none,
    .getwork (.dial sampleKey true [.data sampleResponse.bytes]),
    .getwork .none, .getwork .none, .getwork .none, .getwork .none,
    .getwork (.read (fun _ => sampleMask) (fun _ => true)
      [.data (encodeFrame opcodeText sampleText none)]),
    .getwork .none, .getwork .none, .getwork .none, .getwork .none, .getwork .none,
    .getwork .none, .getwork .none, .getwork .none,
    .worker () .load, .worker () .read, .worker () .poll, .worker () .hash, .worker () .submit,
    .getwork .none, .getwork .none, .getwork (.write sampleMask true)]

/-- Reachable, with these parameters. -/
abbrev SampleReachable (st : State Unit) : Prop :=
  Reachable sampleBackend sampleHex (fun _ => 0) (fun _ => sampleRandom12) asciiText
    (fun _ => sampleDigest) sampleSerialize sampleFromSlice [] [] st

set_option maxRecDepth 8000 in
theorem sampleActions_run : ((sampleActions.foldlM (step sampleBackend sampleHex (fun _ => 0)
      (fun _ => sampleRandom12) asciiText (fun _ => sampleDigest) sampleSerialize sampleFromSlice
      [] []) (.start Unit)).map fun st => (st.received.map Prod.snd, st.accepted.length)) =
    some ([.written 0], 1) := by
  decide

theorem sampleActions_reachable : ∃ st, SampleReachable st ∧
    st.received.map Prod.snd = [.written 0] ∧ st.accepted.length = 1 := by
  obtain ⟨st, hst, heq⟩ := Option.map_eq_some_iff.mp sampleActions_run
  exact ⟨st, run_reachable sampleActions .start hst, (Prod.mk.inj heq).1, (Prod.mk.inj heq).2⟩

/-- The getwork thread can always go on: it never waits for another thread, and no bytes of
the peer stop it. -/
theorem SessionInv.getwork_enabled {st : State ι} (h : SessionInv serialize st)
    (hphase : st.phase ≠ .returned) :
    ∃ input st', getwork backend encode tid random12 lossy sha1 serialize fromSlice
      daemonRpcAddress walletAddress st input = some st' := by
  have hpending := h.pending
  cases heq : st.phase with
  | returned => exact absurd heq hphase
  | dialing => exact ⟨.unreachable, _, by simp only [getwork, heq]; rfl⟩
  | sending conn share =>
      exact ⟨.write ⟨[0, 0, 0, 0], rfl⟩ true, _, by simp only [getwork, heq]; rfl⟩
  | reading conn =>
      obtain ⟨reads, hrest, hblocked⟩ :=
        tryReadMessage_returns (fun _ => ⟨[0, 0, 0, 0], rfl⟩) (fun _ => true) conn.client
      have hpanicked :=
        (tryReadMessage_any (fun _ => ⟨[0, 0, 0, 0], rfl⟩) (fun _ => true) reads conn.client).2
      refine ⟨.read (fun _ => ⟨[0, 0, 0, 0], rfl⟩) (fun _ => true) reads, ?_⟩
      simp only [getwork, heq, if_pos hrest]
      cases houtcome : (tryReadMessage (fun _ => ⟨[0, 0, 0, 0], rfl⟩) (fun _ => true) reads
          conn.client).outcome with
      | message m =>
          cases m with
          | text data => cases hjob : fromSlice data <;> simp [State.handleOutcome, hjob]
          | binary data => cases hjob : fromSlice data <;> simp [State.handleOutcome, hjob]
          | close => exact ⟨_, rfl⟩
      | again => exact ⟨_, rfl⟩
      | failed e => exact ⟨_, rfl⟩
      | panicked => exact absurd houtcome hpanicked
      | blocked => exact absurd houtcome hblocked
  | publishing conn m =>
      rw [heq] at hpending
      refine ⟨.none, ?_⟩
      simp only [getwork, heq, Jobs.step, hpending]
      exact ⟨_, rfl⟩
  | counting conn m =>
      rw [heq] at hpending
      refine ⟨.none, ?_⟩
      simp only [getwork, heq, Jobs.step, hpending]
      exact ⟨_, rfl⟩
  | draining conn =>
      refine ⟨.none, ?_⟩
      cases hqueue : st.queue <;> simp only [getwork, heq, hqueue] <;> exact ⟨_, rfl⟩
  | pumping conn =>
      refine ⟨.none, ?_⟩
      cases hqueue : st.queue <;> simp only [getwork, heq, hqueue] <;> exact ⟨_, rfl⟩
  | polling conn =>
      refine ⟨.none, ?_⟩
      cases hexit : st.jobs.shared.exit <;> simp only [getwork, heq, hexit] <;> exact ⟨_, rfl⟩
  | storing conn m rest =>
      refine ⟨.none, ?_⟩
      cases rest <;> simp only [getwork, heq] <;> exact ⟨_, rfl⟩
  | top | checking | waiting | opened =>
      exact ⟨.none, _, by simp only [getwork, heq]; rfl⟩

end Invariant

end DirtybirdMiner.Miner.Session
