import DirtybirdMiner.Ws.Frames

/-!
The websocket client, from `src/ws.rs`: `try_read_message` over a socket whose
reads return what the environment decides, and the messages it puts together.

A peer divides each message into a first frame and continuation frames, and puts
pings and pongs between the frames.  However the bytes arrive, the calls return
the messages in order.
-/

namespace DirtybirdMiner.Ws.Reassembly

open DirtybirdMiner.Ws.Frames

inductive WsMessage where
  | text (payload : List UInt8)
  | binary (payload : List UInt8)
  | close
deriving DecidableEq

/-- What one `read` of the socket returns; `Ok(0)` is no data. -/
inductive ReadResult where
  | data (bytes : List UInt8)
  | wouldBlock
  | timedOut
  | interrupted
  | failed
deriving DecidableEq

/-- The fields of the client, with what it has written to the stream and the
number of frames that was attempted for. -/
structure WsClient where
  buf : List UInt8
  frag : Option (UInt8 × List UInt8)
  sentClose : Bool
  written : List UInt8
  frames : Nat
deriving DecidableEq

/-- The client that the handshake returns. -/
def WsClient.start (leftover : List UInt8) : WsClient where
  buf := leftover
  frag := none
  sentClose := false
  written := []
  frames := 0

inductive Outcome where
  | message (message : WsMessage)
  /-- `Ok(None)`. -/
  | again
  | failed (error : WsError)
  | panicked
  /-- The call waits in a read: the environment has no result for it. -/
  | blocked
deriving DecidableEq

/-- A call of `try_read_message`, with the reads it made and those still to come. -/
structure Call where
  outcome : Outcome
  client : WsClient
  made : List ReadResult
  rest : List ReadResult
deriving DecidableEq

/-- The call made this read first. -/
def Call.after (call : Call) (r : ReadResult) : Call := { call with made := r :: call.made }

section Client

-- The random mask of each written frame, and whether writing it succeeds.
variable (maskKey : Nat → MaskKey) (writeOk : Nat → Bool)

def writeControl (client : WsClient) (opcode : UInt8) (payload : List UInt8) :
    WsClient × Except WsError Unit :=
  if writeOk client.frames then
    ({ client with
        written := client.written ++ encodeFrame opcode payload (some (maskKey client.frames))
        frames := client.frames + 1 }, .ok ())
  else ({ client with frames := client.frames + 1 }, .error .stream)

/-- The message of a finished frame sequence that began with this opcode. -/
def finished (opcode : UInt8) (payload : List UInt8) : WsMessage :=
  if opcode = opcodeText then .text payload else .binary payload

/-- The body of the inner loop: `none` is to go on with the next frame. -/
def handleFrame (client : WsClient) (frame : RawFrame) : WsClient × Option Outcome :=
  if frame.opcode = opcodePing then
    match writeControl maskKey writeOk client opcodePong frame.payload with
    | (client, .ok _) => (client, none)
    | (client, .error e) => (client, some (.failed e))
  else if frame.opcode = opcodePong then (client, none)
  else if frame.opcode = opcodeClose then
    if client.sentClose then (client, some (.message .close))
    else
      let client := { client with sentClose := true }
      -- the result of the write is ignored
      ((writeControl maskKey writeOk client opcodeClose frame.payload).1, some (.message .close))
  else if frame.opcode = opcodeText ∨ frame.opcode = opcodeBinary then
    if frame.fin then (client, some (.message (finished frame.opcode frame.payload)))
    else ({ client with frag := some (frame.opcode, frame.payload) }, none)
  else if frame.opcode = opcodeContinuation then
    match client.frag with
    | none => (client, some (.failed .continuationWithoutStart))
    | some (opcode, payload) =>
        let payload := payload ++ frame.payload
        if frame.fin then
          ({ client with frag := none }, some (.message (finished opcode payload)))
        else ({ client with frag := some (opcode, payload) }, none)
  else (client, some (.failed (.unknownOpcode frame.opcode)))

/-- The inner loop, with a budget of iterations; `drain(..used)` panics past the end. -/
def consumeFrames : Nat → WsClient → WsClient × Option Outcome
  | 0, client => (client, some .panicked)
  | fuel + 1, client =>
      match parseFrame client.buf with
      | none => (client, some .panicked)
      | some (.error e) => (client, some (.failed e))
      | some (.ok none) => (client, none)
      | some (.ok (some (frame, used))) =>
          if client.buf.length < used then (client, some .panicked)
          else
            match handleFrame maskKey writeOk { client with buf := client.buf.drop used } frame with
            | (client, some outcome) => (client, some outcome)
            | (client, none) => consumeFrames fuel client

/-- The outer loop.  Every frame takes at least one byte of the buffer, which is
the budget of the inner loop. -/
def tryReadMessage : List ReadResult → WsClient → Call
  | [], client =>
      match consumeFrames maskKey writeOk (client.buf.length + 1) client with
      | (client, some outcome) => { outcome := outcome, client := client, made := [], rest := [] }
      | (client, none) => { outcome := .blocked, client := client, made := [], rest := [] }
  | r :: reads, client =>
      match consumeFrames maskKey writeOk (client.buf.length + 1) client with
      | (client, some outcome) =>
          { outcome := outcome, client := client, made := [], rest := r :: reads }
      | (client, none) =>
          match r with
          | .data [] =>
              { outcome := .failed .connectionClosed, client := client, made := [r], rest := reads }
          | .data bytes => (tryReadMessage reads { client with buf := client.buf ++ bytes }).after r
          | .wouldBlock => { outcome := .again, client := client, made := [r], rest := reads }
          | .timedOut => { outcome := .again, client := client, made := [r], rest := reads }
          | .interrupted => (tryReadMessage reads client).after r
          | .failed => { outcome := .failed .stream, client := client, made := [r], rest := reads }

/-- The first `n` calls. -/
def calls : Nat → List ReadResult → WsClient → List Call
  | 0, _, _ => []
  | n + 1, reads, client =>
      let call := tryReadMessage maskKey writeOk reads client
      call :: calls n call.rest call.client

end Client

section Sending

inductive Kind where
  | text
  | binary
deriving DecidableEq

def Kind.opcode : Kind → UInt8
  | text => opcodeText
  | binary => opcodeBinary

def Kind.message (payload : List UInt8) : Kind → WsMessage
  | text => .text payload
  | binary => .binary payload

/-- A message as its sender divides it: the payload of the first frame and those
of the continuation frames. -/
structure Division where
  kind : Kind
  first : List UInt8
  more : List (List UInt8)

def Division.message (d : Division) : WsMessage := d.kind.message (d.first ++ d.more.flatten)

/-- Continuation frames: the last one is final. -/
def continuations : List (List UInt8) → List RawFrame
  | [] => []
  | payload :: more =>
      { fin := more.isEmpty, opcode := opcodeContinuation, payload := payload } ::
        continuations more

def Division.frames (d : Division) : List RawFrame :=
  { fin := d.more.isEmpty, opcode := d.kind.opcode, payload := d.first } :: continuations d.more

def isControl (frame : RawFrame) : Bool := frame.opcode = opcodePing || frame.opcode = opcodePong

/-- The frames that carry parts of messages. -/
def dataFrames (frames : List WireFrame) : List RawFrame :=
  (frames.map WireFrame.raw).filter fun frame => !isControl frame

def pings (frames : List WireFrame) : List (List UInt8) :=
  ((frames.map WireFrame.raw).filter fun frame => frame.opcode = opcodePing).map RawFrame.payload

/-- The answers to pings, one frame each, from frame number `k` on. -/
def pongs (maskKey : Nat → MaskKey) : Nat → List (List UInt8) → List UInt8
  | _, [] => []
  | k, payload :: more => encodeFrame opcodePong payload (some (maskKey k)) ++ pongs maskKey (k + 1) more

def ReadResult.bytes : ReadResult → List UInt8
  | data bytes => bytes
  | _ => []

def received (reads : List ReadResult) : List UInt8 := reads.flatMap ReadResult.bytes

def ReadResult.TimesOut (r : ReadResult) : Prop := r = .wouldBlock ∨ r = .timedOut

/-- A read of a connection that is up, into a buffer of 8192 bytes. -/
def ReadResult.Regular : ReadResult → Prop
  | data bytes => 1 ≤ bytes.length ∧ bytes.length ≤ 8192
  | failed => False
  | _ => True

def Outcome.message? : Outcome → Option WsMessage
  | message m => some m
  | _ => none

end Sending

section Progress

variable {maskKey : Nat → MaskKey} {writeOk : Nat → Bool}

/-- What the fragment kept so far and the data frames to come amount to. -/
def Pending (frag : Option (UInt8 × List UInt8)) (data : List RawFrame)
    (messages : List WsMessage) : Prop :=
  (frag = none ∧ ∃ ds : List Division,
    data = ds.flatMap Division.frames ∧ messages = ds.map Division.message) ∨
  ∃ (kind : Kind) (kept payload : List UInt8) (more : List (List UInt8)) (ds : List Division),
    frag = some (kind.opcode, kept) ∧
    data = continuations (payload :: more) ++ ds.flatMap Division.frames ∧
    messages = kind.message (kept ++ (payload :: more).flatten) :: ds.map Division.message

theorem finished_opcode (kind : Kind) (payload : List UInt8) :
    finished kind.opcode payload = kind.message payload := by
  cases kind <;> rfl

theorem Pending.nil {frag : Option (UInt8 × List UInt8)} {messages : List WsMessage}
    (h : Pending frag [] messages) : messages = [] := by
  rcases h with ⟨_, ds, hdata, rfl⟩ | ⟨_, _, _, _, _, _, hdata, _⟩
  · cases ds with
    | nil => rfl
    | cons d ds => simp [Division.frames] at hdata
  · simp [continuations] at hdata

/-- Both kinds of data frame: what is left of the division after a frame. -/
theorem Pending.kept (kind : Kind) (kept : List UInt8) (more : List (List UInt8))
    (ds : List Division) (hmore : more ≠ []) :
    Pending (some (kind.opcode, kept)) (continuations more ++ ds.flatMap Division.frames)
      (kind.message (kept ++ more.flatten) :: ds.map Division.message) := by
  obtain ⟨payload, more, rfl⟩ := List.exists_cons_of_ne_nil hmore
  exact .inr ⟨kind, kept, payload, more, ds, rfl, rfl, rfl⟩

/-- What one data frame does: it ends a message, which is returned, or is kept. -/
theorem handleFrame_data {client : WsClient} {frame : RawFrame} {data : List RawFrame}
    {messages : List WsMessage} (h : Pending client.frag (frame :: data) messages) :
    ∃ frag rest, Pending frag data rest ∧
      ((handleFrame maskKey writeOk client frame = ({ client with frag := frag }, none) ∧
          messages = rest) ∨
        ∃ m, handleFrame maskKey writeOk client frame =
            ({ client with frag := frag }, some (.message m)) ∧ messages = m :: rest) := by
  rcases h with ⟨hfrag, ds, hdata, rfl⟩ | ⟨kind, kept, payload, more, ds, hfrag, hdata, rfl⟩
  · obtain _ | ⟨d, ds⟩ := ds
    · simp at hdata
    obtain ⟨kind, first, more⟩ := d
    simp only [List.flatMap_cons, Division.frames, List.cons_append, List.cons.injEq] at hdata
    obtain ⟨rfl, rfl⟩ := hdata
    by_cases hmore : more = []
    · subst hmore
      refine ⟨none, ds.map Division.message, .inl ⟨rfl, ds, rfl, rfl⟩, .inr ?_⟩
      refine ⟨_, ?_, List.map_cons⟩
      cases kind <;> simp [handleFrame, finished, Kind.opcode, Division.message, Kind.message,
        opcodePing, opcodePong, opcodeClose, opcodeText, opcodeBinary, ← hfrag]
    · refine ⟨_, _, Pending.kept kind first more ds hmore, .inl ⟨?_, rfl⟩⟩
      cases kind <;> simp [handleFrame, Kind.opcode, opcodePing, opcodePong, opcodeClose,
        opcodeText, opcodeBinary, hmore]
  · simp only [continuations, List.cons_append, List.cons.injEq] at hdata
    obtain ⟨rfl, rfl⟩ := hdata
    have hhandle : ∀ fin, handleFrame maskKey writeOk client
        { fin := fin, opcode := opcodeContinuation, payload := payload } =
        if fin then ({ client with frag := none }, some (.message (kind.message (kept ++ payload))))
        else ({ client with frag := some (kind.opcode, kept ++ payload) }, none) := by
      intro fin
      simp [handleFrame, hfrag, finished_opcode, opcodePing, opcodePong, opcodeClose, opcodeText,
        opcodeBinary, opcodeContinuation]
    rw [hhandle]
    by_cases hmore : more = []
    · subst hmore
      refine ⟨none, ds.map Division.message, .inl ⟨rfl, ds, rfl, rfl⟩, .inr ?_⟩
      exact ⟨_, rfl, by simp⟩
    · refine ⟨_, _, Pending.kept kind (kept ++ payload) more ds hmore, .inl ⟨?_, ?_⟩⟩
      · simp [hmore]
      · simp

/-- Where a connection stands: the frames whose bytes are not consumed yet, the
messages still to be returned, and the bytes that will have been written. -/
structure Standing (maskKey : Nat → MaskKey) (client : WsClient) (reads : List ReadResult)
    (frames : List WireFrame) (messages : List WsMessage) (answers : List UInt8) : Prop where
  bytes : client.buf ++ received reads = frames.flatMap WireFrame.bytes
  pending : Pending client.frag (dataFrames frames) messages
  answers : client.written ++ pongs maskKey client.frames (pings frames) = answers

theorem dataFrames_cons_control {f : WireFrame} (h : isControl f.raw = true)
    (frames : List WireFrame) : dataFrames (f :: frames) = dataFrames frames := by
  rw [dataFrames, List.map_cons, List.filter_cons_of_neg (by simp [h])]
  rfl

theorem dataFrames_cons_data {f : WireFrame} (h : isControl f.raw = false)
    (frames : List WireFrame) : dataFrames (f :: frames) = f.raw :: dataFrames frames := by
  rw [dataFrames, List.map_cons, List.filter_cons_of_pos (by simp [h])]
  rfl

theorem pings_cons_ping {f : WireFrame} (h : f.raw.opcode = opcodePing)
    (frames : List WireFrame) : pings (f :: frames) = f.raw.payload :: pings frames := by
  rw [pings, List.map_cons, List.filter_cons_of_pos (by simp [h])]
  rfl

theorem pings_cons_other {f : WireFrame} (h : f.raw.opcode ≠ opcodePing)
    (frames : List WireFrame) : pings (f :: frames) = pings frames := by
  rw [pings, List.map_cons, List.filter_cons_of_neg (by simp [h])]
  rfl

theorem handleFrame_standing (hwrite : ∀ k, writeOk k = true) {client : WsClient}
    {reads : List ReadResult} {f : WireFrame} {frames : List WireFrame}
    {messages : List WsMessage} {answers : List UInt8}
    (h : Standing maskKey client reads (f :: frames) messages answers) {rest : List UInt8}
    (hbuf : client.buf = f.bytes ++ rest) :
    ∃ client' messages', Standing maskKey client' reads frames messages' answers ∧
      client'.buf = rest ∧
      ((handleFrame maskKey writeOk { client with buf := rest } f.raw = (client', none) ∧
          messages = messages') ∨
        ∃ m, handleFrame maskKey writeOk { client with buf := rest } f.raw =
            (client', some (.message m)) ∧ messages = m :: messages') := by
  have hbytes : rest ++ received reads = frames.flatMap WireFrame.bytes := by
    have hall := h.bytes
    rw [hbuf, List.flatMap_cons, List.append_assoc] at hall
    exact List.append_cancel_left hall
  have hpending := h.pending
  have hanswers := h.answers
  by_cases hping : f.raw.opcode = opcodePing
  · rw [dataFrames_cons_control (by simp [isControl, hping])] at hpending
    rw [pings_cons_ping hping, pongs] at hanswers
    refine ⟨{ client with
      buf := rest
      written := client.written ++ encodeFrame opcodePong f.raw.payload (some (maskKey client.frames))
      frames := client.frames + 1 }, messages, ⟨hbytes, hpending, ?_⟩, rfl, .inl ⟨?_, rfl⟩⟩
    · simpa using hanswers
    · simp [handleFrame, hping, writeControl, hwrite]
  by_cases hpong : f.raw.opcode = opcodePong
  · rw [dataFrames_cons_control (by simp [isControl, hpong])] at hpending
    rw [pings_cons_other hping] at hanswers
    refine ⟨{ client with buf := rest }, messages, ⟨hbytes, hpending, hanswers⟩, rfl,
      .inl ⟨?_, rfl⟩⟩
    simp [handleFrame, hpong, opcodePing, opcodePong]
  · rw [dataFrames_cons_data (by simp [isControl, hping, hpong])] at hpending
    rw [pings_cons_other hping] at hanswers
    obtain ⟨frag, messages', hpending', hout⟩ :=
      @handleFrame_data maskKey writeOk { client with buf := rest } _ _ _ hpending
    exact ⟨{ client with buf := rest, frag := frag }, messages',
      ⟨hbytes, hpending', hanswers⟩, rfl, hout⟩

/-- The buffer holds no complete frame. -/
def Incomplete (client : WsClient) (frames : List WireFrame) : Prop :=
  ∀ f ∈ frames.head?, client.buf.length < f.bytes.length

/-- The inner loop stops at the first message, or with an incomplete frame. -/
theorem consumeFrames_standing (hwrite : ∀ k, writeOk k = true) (fuel : Nat) {client : WsClient}
    {reads : List ReadResult} {frames : List WireFrame} {messages : List WsMessage}
    {answers : List UInt8} (h : Standing maskKey client reads frames messages answers)
    (hfuel : client.buf.length < fuel) :
    ∃ client' frames' messages', Standing maskKey client' reads frames' messages' answers ∧
      ((consumeFrames maskKey writeOk fuel client = (client', none) ∧ messages = messages' ∧
          Incomplete client' frames') ∨
        ∃ m, consumeFrames maskKey writeOk fuel client = (client', some (.message m)) ∧
          messages = m :: messages') := by
  induction fuel generalizing client frames messages with
  | zero => omega
  | succ fuel ih =>
      rw [consumeFrames]
      obtain _ | ⟨f, frames⟩ := frames
      · -- no bytes are left
        have hbuf : client.buf = [] := by
          have hall := h.bytes
          simp only [List.flatMap_nil, List.append_eq_nil_iff] at hall
          exact hall.1
        refine ⟨client, [], messages, h, .inl ⟨?_, rfl, by simp [Incomplete]⟩⟩
        rw [hbuf]
        rfl
      have hbytes := h.bytes
      rw [List.flatMap_cons] at hbytes
      have htake : client.buf = (f.bytes ++ frames.flatMap WireFrame.bytes).take client.buf.length := by
        rw [← hbytes, List.take_left]
      have hparse := parseFrame_take f (frames.flatMap WireFrame.bytes) (k := client.buf.length)
        (by rw [← hbytes]; simp)
      rw [← htake] at hparse
      by_cases hlt : client.buf.length < f.bytes.length
      · refine ⟨client, f :: frames, messages, h, .inl ⟨?_, rfl, by simpa [Incomplete] using hlt⟩⟩
        rw [hparse, if_pos hlt]
      · have hbuf : client.buf = f.bytes ++ client.buf.drop f.bytes.length := by
          rw [List.append_eq_append_iff] at hbytes
          rcases hbytes with ⟨t, ht, _⟩ | ⟨t, ht, _⟩
          · have : t = [] := by
              rw [ht] at hlt
              simpa using hlt
            subst this
            simp [ht]
          · rw [ht]
            simp
        obtain ⟨client', messages', hstanding, hrest, hout⟩ :=
          handleFrame_standing hwrite h hbuf
        rw [hparse, if_neg hlt]
        simp only [if_neg hlt]
        rcases hout with ⟨hhandle, rfl⟩ | ⟨m, hhandle, rfl⟩
        · have hless : client'.buf.length < fuel := by
            have hpos : 0 < f.bytes.length := by rw [f.bytes_length]; omega
            rw [hrest, List.length_drop]
            omega
          rw [hhandle]
          exact ih hstanding hless
        · rw [hhandle]
          exact ⟨client', frames, messages', hstanding, .inr ⟨m, rfl, rfl⟩⟩

/-- What a call can end with, and where the connection stands then. -/
def Call.Progress (maskKey : Nat → MaskKey) (call : Call) (reads : List ReadResult)
    (messages : List WsMessage) (answers : List UInt8) : Prop :=
  reads = call.made ++ call.rest ∧
  ∃ frames' messages', Standing maskKey call.client call.rest frames' messages' answers ∧
    ((call.outcome = .blocked ∧ call.rest = [] ∧ messages = [] ∧ call.client.written = answers) ∨
      (call.outcome = .again ∧ messages = messages' ∧ ∃ r ∈ call.made.getLast?, r.TimesOut) ∨
      ∃ m, call.outcome = .message m ∧ messages = m :: messages')

theorem Call.Progress.after {call : Call} {reads : List ReadResult} {messages : List WsMessage}
    {answers : List UInt8} (h : call.Progress maskKey reads messages answers) (r : ReadResult) :
    (call.after r).Progress maskKey (r :: reads) messages answers := by
  obtain ⟨hreads, frames', messages', hstanding, hout⟩ := h
  refine ⟨by simp [Call.after, hreads], frames', messages', hstanding, ?_⟩
  rcases hout with hblocked | ⟨hagain, hmessages, last, hlast, htimes⟩ | hmessage
  · exact .inl hblocked
  · refine .inr (.inl ⟨hagain, hmessages, last, ?_, htimes⟩)
    rw [Option.mem_def] at hlast ⊢
    simp [Call.after, List.getLast?_cons, hlast]
  · exact .inr (.inr hmessage)

theorem tryReadMessage_progress (hwrite : ∀ k, writeOk k = true) (reads : List ReadResult)
    (hreads : ∀ r ∈ reads, r.Regular) {client : WsClient} {frames : List WireFrame}
    {messages : List WsMessage} {answers : List UInt8}
    (h : Standing maskKey client reads frames messages answers) :
    (tryReadMessage maskKey writeOk reads client).Progress maskKey reads messages answers := by
  induction reads generalizing client frames messages with
  | nil =>
      obtain ⟨client', frames', messages', hstanding, hout⟩ :=
        consumeFrames_standing hwrite _ h (Nat.lt_succ_self _)
      rw [tryReadMessage]
      rcases hout with ⟨hconsume, rfl, hincomplete⟩ | ⟨m, hconsume, rfl⟩
      · rw [hconsume]
        -- all bytes have arrived, so no frame can be incomplete
        have hnil : frames' = [] := by
          obtain _ | ⟨f, frames'⟩ := frames'
          · rfl
          have hbytes := congrArg List.length hstanding.bytes
          have hlt := hincomplete f rfl
          simp [received] at hbytes
          omega
        subst hnil
        have hanswers := hstanding.answers
        simp only [pings, List.map_nil, List.filter_nil, pongs, List.append_nil] at hanswers
        exact ⟨rfl, [], messages, hstanding, .inl ⟨rfl, rfl, hstanding.pending.nil, hanswers⟩⟩
      · rw [hconsume]
        exact ⟨rfl, frames', messages', hstanding, .inr (.inr ⟨m, rfl, rfl⟩)⟩
  | cons r reads ih =>
      obtain ⟨client', frames', messages', hstanding, hout⟩ :=
        consumeFrames_standing hwrite _ h (Nat.lt_succ_self _)
      have hrest : ∀ r ∈ reads, r.Regular := fun r hr => hreads r (List.mem_cons_of_mem _ hr)
      have hr : r.Regular := hreads r List.mem_cons_self
      rw [tryReadMessage]
      rcases hout with ⟨hconsume, rfl, hincomplete⟩ | ⟨m, hconsume, rfl⟩
      · rw [hconsume]
        cases r with
        | data bytes =>
            obtain _ | ⟨b, bytes⟩ := bytes
            · exact absurd hr.1 (by simp)
            have hmore : Standing maskKey { client' with buf := client'.buf ++ b :: bytes } reads
                frames' messages answers := by
              refine ⟨?_, hstanding.pending, hstanding.answers⟩
              have hbytes := hstanding.bytes
              simp only [received, List.flatMap_cons, ReadResult.bytes] at hbytes ⊢
              simpa using hbytes
            exact (ih hrest hmore).after _
        | wouldBlock =>
            exact ⟨rfl, frames', messages, ⟨by simpa [received, ReadResult.bytes] using
              hstanding.bytes, hstanding.pending, hstanding.answers⟩,
              .inr (.inl ⟨rfl, rfl, .wouldBlock, rfl, .inl rfl⟩)⟩
        | timedOut =>
            exact ⟨rfl, frames', messages, ⟨by simpa [received, ReadResult.bytes] using
              hstanding.bytes, hstanding.pending, hstanding.answers⟩,
              .inr (.inl ⟨rfl, rfl, .timedOut, rfl, .inr rfl⟩)⟩
        | interrupted =>
            have hsame : Standing maskKey client' reads frames' messages answers :=
              ⟨by simpa [received, ReadResult.bytes] using hstanding.bytes, hstanding.pending,
                hstanding.answers⟩
            exact (ih hrest hsame).after _
        | failed => exact hr.elim
      · rw [hconsume]
        exact ⟨rfl, frames', messages', hstanding, .inr (.inr ⟨m, rfl, rfl⟩)⟩

/-- The calls up to the first one that waits for bytes that never come. -/
theorem calls_standing (hwrite : ∀ k, writeOk k = true) (size : Nat) {reads : List ReadResult}
    (hreads : ∀ r ∈ reads, r.Regular) {client : WsClient} {frames : List WireFrame}
    {messages : List WsMessage} {answers : List UInt8}
    (h : Standing maskKey client reads frames messages answers)
    (hsize : reads.length + messages.length = size) :
    ∃ cs last, calls maskKey writeOk (cs.length + 1) reads client = cs ++ [last] ∧
      cs.filterMap (fun call => call.outcome.message?) = messages ∧
      (∀ call ∈ cs, (∃ m, call.outcome = .message m) ∨
        (call.outcome = .again ∧ ∃ r ∈ call.made.getLast?, r.TimesOut)) ∧
      last.outcome = .blocked ∧ cs.flatMap Call.made ++ last.made = reads ∧
      last.client.written = answers := by
  induction size using Nat.strong_induction_on generalizing reads client frames messages with
  | _ size ih =>
      obtain ⟨hsplit, frames', messages', hstanding, hout⟩ :=
        tryReadMessage_progress hwrite reads hreads h
      have hrest : ∀ r ∈ (tryReadMessage maskKey writeOk reads client).rest, r.Regular := by
        intro r hr
        apply hreads r
        rw [hsplit]
        exact List.mem_append_right _ hr
      have hlen := congrArg List.length hsplit
      rw [List.length_append] at hlen
      rcases hout with ⟨hblocked, hdone, rfl, hanswers⟩ | hgoes
      · refine ⟨[], tryReadMessage maskKey writeOk reads client, rfl, rfl, by simp, hblocked, ?_,
          hanswers⟩
        rw [List.flatMap_nil, List.nil_append]
        rw [hdone, List.append_nil] at hsplit
        exact hsplit.symm
      · have hless : (tryReadMessage maskKey writeOk reads client).rest.length + messages'.length <
            size := by
          rcases hgoes with ⟨_, rfl, r, hr, _⟩ | ⟨m, _, rfl⟩
          · have hmade := List.length_pos_of_mem (List.mem_of_getLast? hr)
            omega
          · rw [List.length_cons] at hsize
            omega
        obtain ⟨cs, last, hcalls, hmessages, hkinds, hblocked, hmade, hanswers⟩ :=
          ih _ hless hrest hstanding rfl
        refine ⟨tryReadMessage maskKey writeOk reads client :: cs, last, ?_, ?_, ?_, hblocked, ?_,
          hanswers⟩
        · rw [List.length_cons, calls, hcalls]
          rfl
        · rcases hgoes with ⟨hagain, rfl, _⟩ | ⟨m, hmessage, rfl⟩
          · rw [List.filterMap_cons_none (by rw [hagain]; rfl), hmessages]
          · rw [List.filterMap_cons_some (by rw [hmessage]; rfl), hmessages]
        · intro call hcall
          rcases List.mem_cons.mp hcall with rfl | hcall
          · rcases hgoes with ⟨hagain, _, htimes⟩ | ⟨m, hmessage, _⟩
            · exact .inr ⟨hagain, htimes⟩
            · exact .inl ⟨m, hmessage⟩
          · exact hkinds call hcall
        · rw [List.flatMap_cons, List.append_assoc, hmade, ← hsplit]

/-- The calls return the messages that were sent, in order and of the right kind.
A call returns without a message only after a read that timed out, and none
fails.  Every ping is answered by one pong with its payload, in order. -/
theorem tryReadMessage_reassembles (maskKey : Nat → MaskKey) (writeOk : Nat → Bool)
    (hwrite : ∀ k, writeOk k = true) (divisions : List Division) (frames : List WireFrame)
    (hframes : dataFrames frames = divisions.flatMap Division.frames) (leftover : List UInt8)
    (reads : List ReadResult) (hreads : ∀ r ∈ reads, r.Regular)
    (hstream : leftover ++ received reads = frames.flatMap WireFrame.bytes) :
    ∃ cs last, calls maskKey writeOk (cs.length + 1) reads (.start leftover) = cs ++ [last] ∧
      cs.filterMap (fun call => call.outcome.message?) = divisions.map Division.message ∧
      (∀ call ∈ cs, (∃ m, call.outcome = .message m) ∨
        (call.outcome = .again ∧ ∃ r ∈ call.made.getLast?, r.TimesOut)) ∧
      last.outcome = .blocked ∧ cs.flatMap Call.made ++ last.made = reads ∧
      last.client.written = pongs maskKey 0 (pings frames) := by
  have hstart : Standing maskKey (.start leftover) reads frames (divisions.map Division.message)
      (pongs maskKey 0 (pings frames)) := by
    refine ⟨hstream, .inl ⟨rfl, divisions, hframes, rfl⟩, ?_⟩
    simp [WsClient.start]
  exact calls_standing hwrite _ hreads hstart rfl

section Sample

/-- "Hi" as a text message in two frames, with a masked ping between them. -/
private def sampleFrames : List WireFrame :=
  [{ fin := false, opcode := opcodeText, payload := [0x48], mask := none, form := .short
     opcode_lt := by decide, payload_le := by decide, fits := by decide },
   { fin := true, opcode := opcodePing, payload := [7], mask := some ⟨[1, 2, 3, 4], rfl⟩
     form := .medium, opcode_lt := by decide, payload_le := by decide, fits := by decide },
   { fin := true, opcode := opcodeContinuation, payload := [0x69], mask := none, form := .long
     opcode_lt := by decide, payload_le := by decide, fits := by decide }]

private def sampleReads : List ReadResult :=
  [.data [0x48, 0x89], .timedOut, .data [0xfe, 0, 1, 1, 2, 3, 4, 6], .interrupted,
   .data [0x80, 127, 0, 0, 0, 0, 0, 0, 0, 1, 0x69]]

theorem tryReadMessage_reassembles_sample :
    ∃ cs last, calls (fun _ => ⟨[0, 0, 0, 0], rfl⟩) (fun _ => true) (cs.length + 1) sampleReads
        (.start [0x01, 0x01]) = cs ++ [last] ∧
      cs.filterMap (fun call => call.outcome.message?) = [.text [0x48, 0x69]] ∧
      (∀ call ∈ cs, (∃ m, call.outcome = .message m) ∨
        (call.outcome = .again ∧ ∃ r ∈ call.made.getLast?, r.TimesOut)) ∧
      last.outcome = .blocked ∧ cs.flatMap Call.made ++ last.made = sampleReads ∧
      last.client.written = [0x8a, 0x81, 0, 0, 0, 0, 7] :=
  tryReadMessage_reassembles (fun _ => ⟨[0, 0, 0, 0], rfl⟩) (fun _ => true) (fun _ => rfl)
    [{ kind := .text, first := [0x48], more := [[0x69]] }] sampleFrames (by decide) [0x01, 0x01]
    sampleReads (by simp [sampleReads, ReadResult.Regular]) (by decide)

end Sample

end Progress

section AnyPeer

variable (maskKey : Nat → MaskKey) (writeOk : Nat → Bool)

theorem frameLength_off {buf : List UInt8} {b1 : UInt8} {len off : Nat}
    (h : frameLength buf b1 = some (some (len, off))) : 2 ≤ off := by
  unfold frameLength at h
  dsimp only at h
  split at h
  · split at h
    · cases h
    · obtain ⟨bytes, -, h⟩ := Option.bind_eq_some_iff.mp h
      cases h
      decide
  split at h
  · split at h
    · cases h
    · obtain ⟨bytes, -, h⟩ := Option.bind_eq_some_iff.mp h
      cases h
      decide
  · cases h
    decide

theorem frameMask_off {buf mask : List UInt8} {masked : Bool} {off off' : Nat}
    (h : frameMask buf masked off = some (some (mask, off'))) : off ≤ off' := by
  unfold frameMask at h
  split at h
  · split at h
    · cases h
    · obtain ⟨bytes, -, h⟩ := Option.bind_eq_some_iff.mp h
      cases h
      exact Nat.le_add_right off 4
  · cases h
    exact Nat.le_refl off

/-- Whatever the bytes are, a frame takes at least two of them. -/
theorem parseFrame_used {buf : List UInt8} {frame : RawFrame} {used : Nat}
    (h : parseFrame buf = some (.ok (some (frame, used)))) : 2 ≤ used := by
  unfold parseFrame at h
  split at h
  · cases h
  obtain ⟨b0, -, h⟩ := Option.bind_eq_some_iff.mp h
  split at h
  · cases h
  obtain ⟨b1, -, h⟩ := Option.bind_eq_some_iff.mp h
  obtain ⟨size, hsize, h⟩ := Option.bind_eq_some_iff.mp h
  obtain _ | ⟨len, off⟩ := size
  · cases h
  dsimp only at h
  split at h
  · cases h
  obtain ⟨key, hkey, h⟩ := Option.bind_eq_some_iff.mp h
  obtain _ | ⟨mask, off'⟩ := key
  · cases h
  dsimp only at h
  split at h
  · cases h
  obtain ⟨payload, -, h⟩ := Option.bind_eq_some_iff.mp h
  cases h
  have hoff := frameLength_off hsize
  have hoff' := frameMask_off hkey
  omega

/-- A frame as the client writes it. -/
structure Written where
  opcode : UInt8
  payload : List UInt8
  mask : MaskKey

def Written.bytes (f : Written) : List UInt8 := encodeFrame f.opcode f.payload (some f.mask)

def Written.IsControl (f : Written) : Prop := f.opcode = opcodePong ∨ f.opcode = opcodeClose

/-- The client has written whole control frames and nothing else. -/
def Answered (client client' : WsClient) : Prop :=
  ∃ fs : List Written, client'.written = client.written ++ fs.flatMap Written.bytes ∧
    ∀ f ∈ fs, f.IsControl

theorem Answered.refl (client : WsClient) : Answered client client :=
  ⟨[], by simp, by simp⟩

theorem Answered.trans {client client' client'' : WsClient} (h : Answered client client')
    (h' : Answered client' client'') : Answered client client'' := by
  obtain ⟨fs, hwritten, hcontrol⟩ := h
  obtain ⟨fs', hwritten', hcontrol'⟩ := h'
  refine ⟨fs ++ fs', ?_, ?_⟩
  · rw [hwritten', hwritten, List.flatMap_append, List.append_assoc]
  · intro f hf
    rcases List.mem_append.mp hf with hf | hf
    · exact hcontrol f hf
    · exact hcontrol' f hf

theorem writeControl_answered (client : WsClient) {opcode : UInt8}
    (hopcode : opcode = opcodePong ∨ opcode = opcodeClose) (payload : List UInt8) :
    Answered client (writeControl maskKey writeOk client opcode payload).1 ∧
      (writeControl maskKey writeOk client opcode payload).1.buf = client.buf := by
  unfold writeControl
  split
  · refine ⟨⟨[⟨opcode, payload, maskKey client.frames⟩], ?_, ?_⟩, rfl⟩
    · simp [Written.bytes]
    · simpa [Written.IsControl] using hopcode
  · exact ⟨⟨[], by simp, by simp⟩, rfl⟩

/-- What one frame of any peer can make the client do. -/
theorem handleFrame_any (client : WsClient) (frame : RawFrame) :
    Answered client (handleFrame maskKey writeOk client frame).1 ∧
      (handleFrame maskKey writeOk client frame).1.buf = client.buf ∧
      (handleFrame maskKey writeOk client frame).2 ≠ some .panicked ∧
      (handleFrame maskKey writeOk client frame).2 ≠ some .blocked := by
  unfold handleFrame
  split
  · have hpong := writeControl_answered maskKey writeOk client (.inl rfl) frame.payload
    rcases hwrite : writeControl maskKey writeOk client opcodePong frame.payload with ⟨client', r⟩
    rw [hwrite] at hpong
    cases r with
    | ok => exact ⟨hpong.1, hpong.2, nofun, nofun⟩
    | error e => exact ⟨hpong.1, hpong.2, nofun, nofun⟩
  split
  · exact ⟨.refl client, rfl, nofun, nofun⟩
  split
  · split
    · exact ⟨.refl client, rfl, nofun, nofun⟩
    · obtain ⟨⟨fs, hfs⟩, hbuf⟩ := writeControl_answered maskKey writeOk
        { client with sentClose := true } (.inr rfl) frame.payload
      exact ⟨⟨fs, hfs⟩, hbuf, nofun, nofun⟩
  split
  · split
    · exact ⟨.refl client, rfl, nofun, nofun⟩
    · exact ⟨⟨[], by simp, by simp⟩, rfl, nofun, nofun⟩
  split
  · split
    · exact ⟨.refl client, rfl, nofun, nofun⟩
    · dsimp only
      split
      · exact ⟨⟨[], by simp, by simp⟩, rfl, nofun, nofun⟩
      · exact ⟨⟨[], by simp, by simp⟩, rfl, nofun, nofun⟩
  · exact ⟨.refl client, rfl, nofun, nofun⟩

theorem consumeFrames_any (fuel : Nat) (client : WsClient) (hfuel : client.buf.length < fuel) :
    Answered client (consumeFrames maskKey writeOk fuel client).1 ∧
      (consumeFrames maskKey writeOk fuel client).2 ≠ some .panicked ∧
      (consumeFrames maskKey writeOk fuel client).2 ≠ some .blocked := by
  induction fuel generalizing client with
  | zero => exact absurd hfuel (Nat.not_lt_zero _)
  | succ fuel ih =>
      obtain ⟨r, hparse, hused⟩ := parseFrame_returns client.buf
      rw [consumeFrames, hparse]
      rcases r with e | _ | ⟨frame, used⟩
      · exact ⟨.refl client, nofun, nofun⟩
      · exact ⟨.refl client, nofun, nofun⟩
      · have hle := hused frame used rfl
        have htwo := parseFrame_used hparse
        dsimp only
        rw [if_neg (Nat.not_lt.mpr hle)]
        obtain ⟨⟨fs, hfs⟩, hbuf, hends⟩ :=
          handleFrame_any maskKey writeOk { client with buf := client.buf.drop used } frame
        rcases hhandle : handleFrame maskKey writeOk { client with buf := client.buf.drop used }
          frame with ⟨client', outcome⟩
        rw [hhandle] at hfs hbuf hends
        have hanswered : Answered client client' := ⟨fs, hfs⟩
        cases outcome with
        | some outcome => exact ⟨hanswered, hends⟩
        | none =>
            have hless : client'.buf.length < fuel := by
              rw [hbuf, List.length_drop]
              omega
            obtain ⟨hanswered', hends'⟩ := ih client' hless
            exact ⟨hanswered.trans hanswered', hends'⟩

/-- Whatever arrives, a call writes whole control frames and nothing else, and does not
panic. -/
theorem tryReadMessage_any (reads : List ReadResult) (client : WsClient) :
    Answered client (tryReadMessage maskKey writeOk reads client).client ∧
      (tryReadMessage maskKey writeOk reads client).outcome ≠ .panicked := by
  induction reads generalizing client with
  | nil =>
      obtain ⟨hanswered, hpanic, -⟩ := consumeFrames_any maskKey writeOk _ client (Nat.lt_succ_self _)
      rw [tryReadMessage]
      rcases hconsume : consumeFrames maskKey writeOk (client.buf.length + 1) client with
        ⟨client', outcome⟩
      rw [hconsume] at hanswered hpanic
      cases outcome with
      | some outcome => exact ⟨hanswered, fun h => hpanic (congrArg some h)⟩
      | none => exact ⟨hanswered, nofun⟩
  | cons r reads ih =>
      obtain ⟨hanswered, hpanic, -⟩ := consumeFrames_any maskKey writeOk _ client (Nat.lt_succ_self _)
      rw [tryReadMessage]
      rcases hconsume : consumeFrames maskKey writeOk (client.buf.length + 1) client with
        ⟨client', outcome⟩
      rw [hconsume] at hanswered hpanic
      cases outcome with
      | some outcome => exact ⟨hanswered, fun h => hpanic (congrArg some h)⟩
      | none =>
          cases r with
          | data bytes =>
              cases bytes with
              | nil => exact ⟨hanswered, nofun⟩
              | cons b bytes =>
                  obtain ⟨⟨fs, hfs⟩, hpanic'⟩ :=
                    ih { client' with buf := client'.buf ++ b :: bytes }
                  exact ⟨hanswered.trans ⟨fs, hfs⟩, hpanic'⟩
          | wouldBlock => exact ⟨hanswered, nofun⟩
          | timedOut => exact ⟨hanswered, nofun⟩
          | interrupted =>
              obtain ⟨hanswered', hpanic'⟩ := ih client'
              exact ⟨hanswered.trans hanswered', hpanic'⟩
          | failed => exact ⟨hanswered, nofun⟩

/-- A call returns if the socket times out when it has no bytes. -/
theorem tryReadMessage_returns (client : WsClient) :
    ∃ reads, (tryReadMessage maskKey writeOk reads client).rest = [] ∧
      (tryReadMessage maskKey writeOk reads client).outcome ≠ .blocked := by
  obtain ⟨-, -, hblocked⟩ := consumeFrames_any maskKey writeOk _ client (Nat.lt_succ_self _)
  rcases hconsume : consumeFrames maskKey writeOk (client.buf.length + 1) client with
    ⟨client', outcome⟩
  rw [hconsume] at hblocked
  cases outcome with
  | none =>
      refine ⟨[.timedOut], ?_⟩
      rw [tryReadMessage, hconsume]
      exact ⟨rfl, nofun⟩
  | some outcome =>
      refine ⟨[], ?_⟩
      rw [tryReadMessage, hconsume]
      exact ⟨rfl, fun h => hblocked (congrArg some h)⟩

end AnyPeer

end DirtybirdMiner.Ws.Reassembly
