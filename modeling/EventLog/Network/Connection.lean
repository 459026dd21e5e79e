import EventLog.Lib.Run
import EventLog.Network.Client
import EventLog.Network.Server

/-!
# One connection

A client and `handleConn` on one connection, with a byte stream in each direction.  The
mutex of the client makes its calls follow one another; client and server otherwise run
side by side, and the server meets whatever the log is when it handles a request.

Nothing on the wire says which call a response belongs to.  In the model every byte the
client writes carries the call that wrote it, `written` lists the frames of the server with
the call whose request they answer, and `consumed` the frames the client read with the call
that read them.  Calls get their own answers when `consumed` is a prefix of `written`.

Frames are lost to a call in one way: a stream that its callback ended leaves the rest of
its frames to the next call.
-/

namespace EventLog.Network

open EventLog.Lib
open EventLog.Wal
open EventLog.Segments

/-! ## State -/

/-- Where the client stands; calls are numbered in the order they were made. -/
inductive ClientPc where
  | idle
  /-- In `roundTrip`, the request written. -/
  | awaiting (id : Nat) (u : Unary)
  /-- In the loop of `StreamRead`. -/
  | streaming (id next : Nat)
  deriving DecidableEq, Repr

/-- The call that is under way. -/
def ClientPc.call : ClientPc → Option Nat
  | .idle => none
  | .awaiting id _ => some id
  | .streaming id _ => some id

def Call.pc (id : Nat) : Call → ClientPc
  | .unary u => .awaiting id u
  | .streamRead startOffset => .streaming id startOffset

/-- Where `handleConn` stands. -/
inductive ServerPc where
  /-- In `ReadRequest`. -/
  | waiting
  /-- In the loop of `handleStreamRead`, for a request of call `id`. -/
  | streaming (id offset : Nat)
  /-- Returned, and the connection closed. -/
  | closed
  deriving DecidableEq, Repr

structure Conn where
  client : ClientPc
  calls : Nat
  results : List (Nat × Result)
  /-- Bytes the server has not read, each with the call that wrote it. -/
  toServer : List (Nat × UInt8)
  server : ServerPc
  /-- Bytes the client has not read. -/
  toClient : Bytes
  written : List (Nat × Response)
  consumed : List (Nat × Response)
  /-- Whether a `StreamRead` returned the error of its callback. -/
  aborted : Bool
  deriving DecidableEq

def Conn.init : Conn :=
  { client := .idle
    calls := 0
    results := []
    toServer := []
    server := .waiting
    toClient := []
    written := []
    consumed := []
    aborted := false }

/-! ## Transitions -/

inductive ConnEvent where
  /-- The client takes its mutex and writes the request. -/
  | call (c : Call)
  /-- `ReadRequest`, and the answer unless it is a stream; `m` is the log at that moment and
      `appended` what `manager.Append` returned, if it was called. -/
  | serve (m : Manager) (appended : Except AppendError Nat)
  /-- One round of the loop of `handleStreamRead`. -/
  | push (m : Manager)
  /-- `ReadResponse`, and what the call makes of it; `failed` says whether the callback, if
      it is called, returns an error. -/
  | receive (failed : Bool)
  /-- `handleConn` returns: a timeout, or an error of the connection. -/
  | hangup

namespace Conn

/-- `writeResponse` on the connection. -/
def write (s : Conn) (id : Nat) (resp : Response) : Conn :=
  { s with
    toClient := s.toClient ++ writeResponse resp
    written := s.written ++ [(id, resp)] }

/-- The round of `handleConn` after `ReadRequest`, for a request that call `id` wrote. -/
def handle (cs : Checksum) (texts : ErrorTexts) (m : Manager)
    (appended : Except AppendError Nat) (s : Conn) (id : Nat) (req : Request) : Option Conn :=
  match handleRequest req with
  | .respond resp => some (s.write id resp)
  | .call method => do
    let resp ← responseTo texts (answerOf cs m appended method)
    some (s.write id resp)
  | .stream offset => some { s with server := .streaming id offset }

/-- `ReadResponse` on the connection: `none` while it waits for more bytes. -/
def read (s : Conn) : Option (Except FrameError Response × Bytes) :=
  match readResponse s.toClient with
  | (.error e, rest) =>
    if e.isShort = true ∧ s.server ≠ .closed then none else some (.error e, rest)
  | (.ok resp, rest) => some (.ok resp, rest)

/-- The client has read a response, or failed to. -/
def consume (s : Conn) (id : Nat) (read : Except FrameError Response) (rest : Bytes) : Conn :=
  { s with
    toClient := rest
    consumed := s.consumed ++
      match read with
      | .ok resp => [(id, resp)]
      | .error _ => [] }

/-- One transition; `none` when the event is not enabled. -/
def step (cs : Checksum) (texts : ErrorTexts) (s : Conn) : ConnEvent → Option Conn
  | .call c =>
    if s.client = .idle then
      some { s with
        client := c.pc s.calls
        calls := s.calls + 1
        toServer := s.toServer ++ (writeRequest c.request).map fun b => (s.calls, b) }
    else none
  | .serve m appended =>
    if s.server = .waiting then
      match readRequest (s.toServer.map Prod.snd), s.toServer with
      | (.ok req, rest), (id, _) :: _ =>
        let read := { s with toServer := s.toServer.drop (s.toServer.length - rest.length) }
        read.handle cs texts m appended id req
      -- a request that is refused ends `handleConn`
      | (.error (.tooLarge _), _), _ => some { s with server := .closed }
      | _, _ => none
    else none
  | .push m =>
    match s.server with
    | .streaming id offset =>
      let (frame, next) := streamRound cs texts.readAt m offset
      some { s.write id frame with
        server :=
          match next with
          | some offset => .streaming id offset
          | none => .waiting }
    | _ => none
  | .receive failed =>
    match s.client, s.read with
    | .awaiting id u, some (read, rest) =>
      some { s.consume id read rest with
        client := .idle
        results := s.results ++ [(id, u.result read)] }
    | .streaming id next, some (read, rest) =>
      match streamReadRound failed next read with
      | .reading next => some { s.consume id read rest with client := .streaming id next }
      | .returned next err =>
        some { s.consume id read rest with
          client := .idle
          results := s.results ++ [(id, .stream next err)]
          aborted := s.aborted || decide (err = some .callback) }
    | _, _ => none
  | .hangup => some { s with server := .closed }

end Conn

/-! ## Requests of the client -/

/-- What the server does with the request of a round trip. -/
theorem handleRequest_unary (u : Unary) :
    (u = .produce [] ∧ handleRequest u.request = .respond (errorResponse "empty payload")) ∨
      (∃ data, data ≠ [] ∧ u = .produce data ∧ handleRequest u.request = .call (.append data)) ∨
      (∃ offset, u = .read offset ∧
        handleRequest u.request = .call (.readAt (beNat (beBytes 8 offset)))) ∨
      (u = .nextOffset ∧ handleRequest u.request = .call .nextOffset) ∨
      (u = .earliestOffset ∧ handleRequest u.request = .call .earliestOffset) := by
  cases u with
  | produce data =>
    cases data with
    | nil => exact .inl ⟨rfl, rfl⟩
    | cons b bs => exact .inr (.inl ⟨b :: bs, by simp, rfl, rfl⟩)
  | read offset =>
    -- the eight bytes of the offset pass the check of `handleRead`
    refine .inr (.inr (.inl ⟨offset, rfl, ?_⟩))
    have hstream : ¬OpRead = OpStreamRead := by decide
    have hproduce : ¬OpRead = OpProduce := by decide
    simp only [handleRequest, dispatch, Unary.request, hstream, hproduce, if_false, if_true,
      handleRead, beBytes_length, ne_eq, not_true_eq_false]
  | nextOffset => exact .inr (.inr (.inr (.inl ⟨rfl, rfl⟩)))
  | earliestOffset => exact .inr (.inr (.inr (.inr ⟨rfl, rfl⟩)))

theorem handleRequest_streamRead (startOffset : Nat) :
    handleRequest (Call.streamRead startOffset).request =
      .stream (beNat (beBytes 8 startOffset)) := by
  have hlen : (Call.streamRead startOffset).request.payload.length = 8 := beBytes_length 8 _
  have hop : (Call.streamRead startOffset).request.op = OpStreamRead := rfl
  rw [handleRequest, if_pos hop, if_neg (not_not.mpr hlen)]
  rfl

/-! ## Inversion -/

section Inversion

variable {cs : Checksum} {texts : ErrorTexts} {s s' : Conn}

/-- A step of the server leaves the client alone and writes `frames`. -/
structure Serves (s s' : Conn) (frames : List (Nat × Response)) : Prop where
  client : s'.client = s.client
  calls : s'.calls = s.calls
  consumed : s'.consumed = s.consumed
  aborted : s'.aborted = s.aborted
  written : s'.written = s.written ++ frames
  toClient : s'.toClient = s.toClient ++ frames.flatMap fun p => writeResponse p.2

theorem serves_write (s : Conn) (id : Nat) (resp : Response) :
    Serves s (s.write id resp) [(id, resp)] :=
  ⟨rfl, rfl, rfl, rfl, rfl, by simp [Conn.write]⟩

theorem serves_of_handle {m : Manager} {appended : Except AppendError Nat} {id : Nat}
    {req : Request} (h : s.handle cs texts m appended id req = some s') :
    ∃ frames, Serves s s' frames := by
  unfold Conn.handle at h
  split at h
  · obtain rfl := Option.some.inj h
    exact ⟨_, serves_write s id _⟩
  · obtain ⟨resp, -, h⟩ := Option.bind_eq_some_iff.mp h
    obtain rfl := Option.some.inj h
    exact ⟨_, serves_write s id resp⟩
  · obtain rfl := Option.some.inj h
    exact ⟨[], rfl, rfl, rfl, rfl, (List.append_nil _).symm, (List.append_nil _).symm⟩

theorem serves_of_serve {m : Manager} {appended : Except AppendError Nat}
    (h : s.step cs texts (.serve m appended) = some s') :
    s.server = .waiting ∧ ∃ frames, Serves s s' frames := by
  simp only [Conn.step] at h
  split_ifs at h with hwait
  refine ⟨hwait, ?_⟩
  split at h
  · -- a request was read; what it is answered with does not touch the client's side
    obtain ⟨frames, hs⟩ := serves_of_handle h
    exact ⟨frames, hs.client, hs.calls, hs.consumed, hs.aborted, hs.written, hs.toClient⟩
  · -- a request that is too large ends `handleConn`
    obtain rfl := Option.some.inj h
    exact ⟨[], rfl, rfl, rfl, rfl, (List.append_nil _).symm, (List.append_nil _).symm⟩
  · cases h

/-- One round of a stream writes one frame of it. -/
theorem serves_of_push {m : Manager} (h : s.step cs texts (.push m) = some s') :
    ∃ id offset, s.server = .streaming id offset ∧
      Serves s s' [(id, (streamRound cs texts.readAt m offset).1)] ∧
      s'.toServer = s.toServer ∧
      s'.server = (streamRound cs texts.readAt m offset).2.elim .waiting (.streaming id) := by
  simp only [Conn.step] at h
  split at h
  · rename_i id offset hserver
    obtain rfl := Option.some.inj h
    refine ⟨id, offset, hserver, ⟨rfl, rfl, rfl, rfl, rfl, by simp [Conn.write]⟩, rfl, ?_⟩
    cases (streamRound cs texts.readAt m offset).2 <;> rfl
  · cases h

/-- What `receive` does. -/
inductive Received (s : Conn) (failed : Bool) : Conn → Prop where
  | unary (id u read rest) : s.client = .awaiting id u → s.read = some (read, rest) →
      Received s failed { s.consume id read rest with
        client := .idle
        results := s.results ++ [(id, u.result read)] }
  | record (id next resp rest) : s.client = .streaming id next →
      s.read = some (.ok resp, rest) → resp.status = StatusOK → failed = false →
      Received s failed { s.consume id (.ok resp) rest with client := .streaming id (next + 1) }
  /-- The callback ended the stream. -/
  | aborted (id next resp rest) : s.client = .streaming id next →
      s.read = some (.ok resp, rest) → resp.status = StatusOK → failed = true →
      Received s failed { s.consume id (.ok resp) rest with
        client := .idle
        results := s.results ++ [(id, .stream next (some .callback))]
        aborted := true }
  | ended (id next read rest err) : s.client = .streaming id next → s.read = some (read, rest) →
      (∀ resp, read = .ok resp → resp.status ≠ StatusOK) →
      Received s failed { s.consume id read rest with
        client := .idle
        results := s.results ++ [(id, .stream next err)] }

theorem received_of_step {failed : Bool} (h : s.step cs texts (.receive failed) = some s') :
    Received s failed s' := by
  simp only [Conn.step] at h
  split at h
  · rename_i id u read rest hclient hread
    obtain rfl := Option.some.inj h
    exact .unary id u read rest hclient hread
  · rename_i id next read rest hclient hread
    rcases streamReadRound_cases failed next read with
      ⟨resp, rfl, hok, hfailed, hround⟩ | ⟨resp, rfl, hok, hfailed, hround⟩ |
        ⟨hend, err, herr, hround⟩
    · -- the three outcomes of a round: a record, the error of the callback, the end of the stream
      rw [hround] at h
      obtain rfl := Option.some.inj h
      exact .record id next resp rest hclient hread hok hfailed
    · simp only [hround, decide_true, Bool.or_true] at h
      obtain rfl := Option.some.inj h
      exact .aborted id next resp rest hclient hread hok hfailed
    · simp only [hround, decide_eq_false herr, Bool.or_false] at h
      obtain rfl := Option.some.inj h
      exact .ended id next read rest err hclient hread hend
  · cases h

end Inversion

end EventLog.Network
