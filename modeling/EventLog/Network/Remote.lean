import EventLog.Network.Pairing
import EventLog.Segment.Linearizability

/-!
# The server and its clients

Any number of clients, each with a connection of its own and a goroutine with `handleConn` at
its other end, and the manager that all of these goroutines call.  A handler reads a request,
calls a method of the manager, waits for it and writes the response; meanwhile the other
handlers, commits, reads and deletions go on.  The process may also call the manager itself,
for retention say.

A connection may break at any moment.  What was under way on it then still arrives or does
not: both ends find out when they next wait for something, and the handler first finishes the
call of the manager it is in.
-/

namespace EventLog.Network

open EventLog.Lib
open EventLog.Wal
open EventLog.Segments

/-- A round of `handleStreamRead` after `ReadAt`, whose file may be closed by now. -/
def frameTo (texts : ErrorTexts) (offset : Nat) : ReadResult → Response × Option Nat
  | .answered r => frameOf texts.readAt offset r
  | .fileClosed => (errorResponse texts.fileClosed, none)

/-! ## State -/

/-- Where the goroutine of a connection stands. -/
inductive HandlerPc where
  /-- In `ReadRequest`. -/
  | waiting
  /-- In a handler of `dispatch`, as a caller of the manager. -/
  | calling (c : Nat)
  /-- In the loop of `handleStreamRead`. -/
  | streaming (offset : Nat)
  /-- In the loop of `handleStreamRead`, as a caller of the manager. -/
  | reading (offset c : Nat)
  | closed
  deriving DecidableEq, Repr

/-- Whether the goroutine is in a method of the manager. -/
def HandlerPc.busy : HandlerPc → Bool
  | .calling _ | .reading _ _ => true
  | _ => false

/-- A connection, with what runs at its ends and the bytes that are under way. -/
structure RemoteConn where
  client : ClientPc
  toServer : Bytes
  handler : HandlerPc
  toClient : Bytes
  /-- Nothing more gets through. -/
  broken : Bool
  deriving DecidableEq

def RemoteConn.accepted : RemoteConn := ⟨.idle, [], .waiting, [], false⟩

/-- A call of a client, on its connection, or one of the process itself. -/
inductive RemoteOp where
  | client (conn : Nat) (u : Unary)
  | process (m : Method)
  deriving DecidableEq

inductive RemoteReply where
  | client (r : Result)
  | process (a : Answer)
  deriving DecidableEq

structure Remote where
  service : Service
  conns : List RemoteConn
  /-- The calls by number: the caller of the manager, for one of the process that is under way. -/
  calls : List (Option Nat)
  /-- What the clients and the process have seen, streams apart. -/
  history : List (CallEvent RemoteOp RemoteReply)
  /-- The records the callbacks of `StreamRead` got, with the number of the call. -/
  streamed : List (Nat × Nat × Bytes)

/-! ## Transitions -/

inductive RemoteEvent where
  | accept
  /-- The client of connection `k` takes its mutex and writes the request. -/
  | call (k : Nat) (c : Call)
  /-- `ReadRequest`, up to the call of the manager if there is one. -/
  | handle (k : Nat)
  /-- `handleStreamRead` calls `ReadAt`. -/
  | readNext (k : Nat)
  /-- The method of the manager returns, and the response is written. -/
  | reply (k : Nat)
  /-- `ReadResponse`, and what the call makes of it; `failed` says whether the callback, if it
      is called, returns an error. -/
  | receive (k : Nat) (failed : Bool)
  | breaks (k : Nat)
  /-- The call of the client returns the error of its connection. -/
  | fail (k : Nat)
  /-- `handleConn` returns. -/
  | hangup (k : Nat)
  /-- The process calls a method of the manager, and it returns. -/
  | enter (m : Method)
  | leave (r : Nat)
  /-- A step inside a method of the manager. -/
  | work (e : ServiceEvent)

/-- `writeResponse`, after which the goroutine goes on at `next`, or returns. -/
def RemoteConn.write (x : RemoteConn) (resp : Response) (next : HandlerPc) : RemoteConn :=
  if x.broken then { x with handler := .closed }
  else { x with toClient := x.toClient ++ writeResponse resp, handler := next }

/-- `ReadResponse`: `none` while it waits for more bytes. -/
def RemoteConn.read (x : RemoteConn) : Option (Except FrameError Response × Bytes) :=
  match readResponse x.toClient with
  | (.error e, rest) => if e.isShort then none else some (.error e, rest)
  | (.ok resp, rest) => some (.ok resp, rest)

/-- What shows of a call when it is made. -/
def Call.invocation (k r : Nat) : Call → List (CallEvent RemoteOp RemoteReply)
  | .unary u => [.invoke r (.client k u)]
  | .streamRead _ => []

/-- The records a round of `StreamRead` hands to its callback. -/
def streamedBy (r next : Nat) : Except FrameError Response → List (Nat × Nat × Bytes)
  | .ok resp => if resp.status = StatusOK then [(r, next, resp.payload)] else []
  | .error _ => []

/-- Where a round of `StreamRead` leaves the client. -/
def StreamPc.client (r : Nat) : StreamPc → ClientPc
  | .reading next => .streaming r next
  | .returned _ _ => .idle

namespace Remote

def setConn (s : Remote) (k : Nat) (x : RemoteConn) : Remote :=
  { s with conns := s.conns.set k x }

/-- The round of `handleConn` after `ReadRequest`. -/
def handle (cs : Checksum) (s : Remote) (k : Nat) (x : RemoteConn) (req : Request) :
    Option Remote :=
  match handleRequest req with
  | .respond resp => some (s.setConn k (x.write resp .waiting))
  | .call m => do
    let service ← s.service.step cs (.invoke m)
    let x := { x with handler := .calling s.service.callers.length }
    some { s.setConn k x with service := service }
  | .stream offset => some (s.setConn k { x with handler := .streaming offset })

/-- One step; `none` when the event is not enabled. -/
def step (cs : Checksum) (texts : ErrorTexts) (s : Remote) : RemoteEvent → Option Remote
  | .accept => some { s with conns := s.conns ++ [.accepted] }
  | .call k c => do
    let x ← s.conns[k]?
    -- on a broken connection the call fails at once, and the server hears nothing of it
    guard (x.client = .idle ∧ x.broken = false)
    let x := { x with
      client := c.pc s.calls.length
      toServer := x.toServer ++ writeRequest c.request }
    some { s.setConn k x with
      calls := s.calls ++ [none]
      history := s.history ++ c.invocation k s.calls.length }
  | .handle k => do
    let x ← s.conns[k]?
    guard (x.handler = .waiting)
    match readRequest x.toServer with
    | (.ok req, rest) => s.handle cs k { x with toServer := rest } req
    -- a request that is refused ends `handleConn`
    | (.error (.tooLarge _), _) => some (s.setConn k { x with handler := .closed, broken := true })
    -- a request that has not arrived as a whole
    | (.error _, _) => none
  | .readNext k => do
    let x ← s.conns[k]?
    match x.handler with
    | .streaming offset =>
      let service ← s.service.step cs (.invoke (.readAt offset))
      let x := { x with handler := .reading offset s.service.callers.length }
      some { s.setConn k x with service := service }
    | _ => none
  | .reply k => do
    let x ← s.conns[k]?
    match x.handler with
    | .calling c =>
      let a ← s.service.leaving c
      let resp ← responseTo texts a
      let service ← s.service.step cs (.respond c)
      some { s.setConn k (x.write resp .waiting) with service := service }
    | .reading offset c =>
      match s.service.leaving c with
      | some (.readAt r) =>
        let service ← s.service.step cs (.respond c)
        let (frame, next) := frameTo texts offset r
        some { s.setConn k (x.write frame (next.elim .waiting .streaming)) with
          service := service }
      | _ => none
    | _ => none
  | .receive k failed => do
    let x ← s.conns[k]?
    let (read, rest) ← x.read
    match x.client with
    | .awaiting r u =>
      some { s.setConn k { x with client := .idle, toClient := rest } with
        history := s.history ++ [.respond r (.client (u.result read))] }
    | .streaming r next =>
      let client := (streamReadRound failed next read).client r
      some { s.setConn k { x with client := client, toClient := rest } with
        streamed := s.streamed ++ streamedBy r next read }
    | .idle => none
  | .breaks k => do
    let x ← s.conns[k]?
    some (s.setConn k { x with broken := true })
  | .fail k => do
    let x ← s.conns[k]?
    guard (x.broken = true)
    some (s.setConn k { x with client := .idle })
  | .hangup k => do
    let x ← s.conns[k]?
    -- a goroutine inside the manager finds out when it writes its response
    guard (x.broken = true ∧ x.handler.busy = false)
    some (s.setConn k { x with handler := .closed })
  | .enter m => do
    let service ← s.service.step cs (.invoke m)
    some { s with
      service := service
      calls := s.calls ++ [some s.service.callers.length]
      history := s.history ++ [.invoke s.calls.length (.process m)] }
  | .leave r => do
    let c ← (s.calls[r]?).join
    let a ← s.service.leaving c
    let service ← s.service.step cs (.respond c)
    some { s with
      service := service
      calls := s.calls.set r none
      history := s.history ++ [.respond r (.process a)] }
  | .work e => do
    guard e.isInner
    let service ← s.service.step cs e
    some { s with service := service }

/-- A server that has just been started. -/
def opened (m : Manager) : Remote := ⟨Service.opened m, [], [], [], []⟩

end Remote

/-! ## Inversion -/

/-- Everything an event can do to the system. -/
inductive RemoteTransition (cs : Checksum) (texts : ErrorTexts) (s : Remote) :
    RemoteEvent → Remote → Prop where
  | accepted : RemoteTransition cs texts s .accept { s with conns := s.conns ++ [.accepted] }
  | called (k c x) : s.conns[k]? = some x → x.client = .idle → x.broken = false →
      RemoteTransition cs texts s (.call k c)
        { s.setConn k { x with
            client := c.pc s.calls.length
            toServer := x.toServer ++ writeRequest c.request } with
          calls := s.calls ++ [none]
          history := s.history ++ c.invocation k s.calls.length }
  | refused (k x n rest) : s.conns[k]? = some x → x.handler = .waiting →
      readRequest x.toServer = (.error (.tooLarge n), rest) →
      RemoteTransition cs texts s (.handle k)
        (s.setConn k { x with handler := .closed, broken := true })
  | answered (k x req rest resp) : s.conns[k]? = some x → x.handler = .waiting →
      readRequest x.toServer = (.ok req, rest) → handleRequest req = .respond resp →
      RemoteTransition cs texts s (.handle k)
        (s.setConn k (RemoteConn.write { x with toServer := rest } resp .waiting))
  | methodCalled (k x req rest m S) : s.conns[k]? = some x → x.handler = .waiting →
      readRequest x.toServer = (.ok req, rest) → handleRequest req = .call m →
      s.service.step cs (.invoke m) = some S →
      RemoteTransition cs texts s (.handle k)
        { s.setConn k { x with
            toServer := rest
            handler := .calling s.service.callers.length } with
          service := S }
  | streamStarted (k x req rest offset) : s.conns[k]? = some x → x.handler = .waiting →
      readRequest x.toServer = (.ok req, rest) → handleRequest req = .stream offset →
      RemoteTransition cs texts s (.handle k)
        (s.setConn k { x with toServer := rest, handler := .streaming offset })
  | readCalled (k x offset S) : s.conns[k]? = some x → x.handler = .streaming offset →
      s.service.step cs (.invoke (.readAt offset)) = some S →
      RemoteTransition cs texts s (.readNext k)
        { s.setConn k { x with handler := .reading offset s.service.callers.length } with
          service := S }
  | replied (k x c a resp S) : s.conns[k]? = some x → x.handler = .calling c →
      s.service.leaving c = some a → responseTo texts a = some resp →
      s.service.step cs (.respond c) = some S →
      RemoteTransition cs texts s (.reply k)
        { s.setConn k (x.write resp .waiting) with service := S }
  | framed (k x offset c r S) : s.conns[k]? = some x → x.handler = .reading offset c →
      s.service.leaving c = some (.readAt r) → s.service.step cs (.respond c) = some S →
      RemoteTransition cs texts s (.reply k)
        { s.setConn k (x.write (frameTo texts offset r).1
            ((frameTo texts offset r).2.elim .waiting .streaming)) with
          service := S }
  | received (k failed x r u read rest) : s.conns[k]? = some x → x.read = some (read, rest) →
      x.client = .awaiting r u →
      RemoteTransition cs texts s (.receive k failed)
        { s.setConn k { x with client := .idle, toClient := rest } with
          history := s.history ++ [.respond r (.client (u.result read))] }
  | streamReceived (k failed x r next read rest) : s.conns[k]? = some x →
      x.read = some (read, rest) → x.client = .streaming r next →
      RemoteTransition cs texts s (.receive k failed)
        { s.setConn k { x with
            client := (streamReadRound failed next read).client r
            toClient := rest } with
          streamed := s.streamed ++ streamedBy r next read }
  | broke (k x) : s.conns[k]? = some x →
      RemoteTransition cs texts s (.breaks k) (s.setConn k { x with broken := true })
  | failed (k x) : s.conns[k]? = some x → x.broken = true →
      RemoteTransition cs texts s (.fail k) (s.setConn k { x with client := .idle })
  | hungUp (k x) : s.conns[k]? = some x → x.broken = true → x.handler.busy = false →
      RemoteTransition cs texts s (.hangup k) (s.setConn k { x with handler := .closed })
  | entered (m S) : s.service.step cs (.invoke m) = some S →
      RemoteTransition cs texts s (.enter m) { s with
        service := S
        calls := s.calls ++ [some s.service.callers.length]
        history := s.history ++ [.invoke s.calls.length (.process m)] }
  | left (r c a S) : s.calls[r]? = some (some c) → s.service.leaving c = some a →
      s.service.step cs (.respond c) = some S →
      RemoteTransition cs texts s (.leave r) { s with
        service := S
        calls := s.calls.set r none
        history := s.history ++ [.respond r (.process a)] }
  | worked (e S) : e.isInner = true → s.service.step cs e = some S →
      RemoteTransition cs texts s (.work e) { s with service := S }

variable {cs : Checksum} {texts : ErrorTexts} {s s' : Remote}

theorem transition_of_handle {k : Nat} (h : s.step cs texts (.handle k) = some s') :
    RemoteTransition cs texts s (.handle k) s' := by
  simp only [Remote.step, Option.bind_eq_bind, Option.bind_eq_some_iff, Option.guard_eq_some'] at h
  obtain ⟨x, hx, -, hwaiting, h⟩ := h
  split at h
  · rename_i req rest hread
    unfold Remote.handle at h
    -- the three things `handleConn` does with a request
    split at h
    · rename_i resp hreq
      obtain rfl := Option.some.inj h
      exact .answered k x req rest resp hx hwaiting hread hreq
    · rename_i m hreq
      simp only [Option.bind_eq_bind, Option.bind_eq_some_iff] at h
      obtain ⟨S, hS, h⟩ := h
      obtain rfl := Option.some.inj h
      exact .methodCalled k x req rest m S hx hwaiting hread hreq hS
    · rename_i offset hreq
      obtain rfl := Option.some.inj h
      exact .streamStarted k x req rest offset hx hwaiting hread hreq
  · rename_i n rest hread
    obtain rfl := Option.some.inj h
    exact .refused k x n rest hx hwaiting hread
  · cases h

theorem transition_of_reply {k : Nat} (h : s.step cs texts (.reply k) = some s') :
    RemoteTransition cs texts s (.reply k) s' := by
  simp only [Remote.step, Option.bind_eq_bind, Option.bind_eq_some_iff] at h
  obtain ⟨x, hx, h⟩ := h
  -- a handler of `dispatch` writes its response, one of a stream its next frame
  split at h
  · rename_i c hpc
    simp only [Option.bind_eq_some_iff] at h
    obtain ⟨a, ha, resp, hresp, S, hS, h⟩ := h
    obtain rfl := Option.some.inj h
    exact .replied k x c a resp S hx hpc ha hresp hS
  · rename_i offset c hpc
    split at h
    · rename_i r hr
      simp only [Option.bind_eq_some_iff] at h
      obtain ⟨S, hS, h⟩ := h
      obtain rfl := Option.some.inj h
      exact .framed k x offset c r S hx hpc hr hS
    · cases h
  · cases h

theorem transition_of_receive {k : Nat} {failed : Bool}
    (h : s.step cs texts (.receive k failed) = some s') :
    RemoteTransition cs texts s (.receive k failed) s' := by
  simp only [Remote.step, Option.bind_eq_bind, Option.bind_eq_some_iff] at h
  obtain ⟨x, hx, ⟨read, rest⟩, hread, h⟩ := h
  -- a round trip returns, a stream goes on or ends
  split at h
  · rename_i r u hclient
    obtain rfl := Option.some.inj h
    exact .received k failed x r u read rest hx hread hclient
  · rename_i r next hclient
    obtain rfl := Option.some.inj h
    exact .streamReceived k failed x r next read rest hx hread hclient
  · cases h

/-- **Inversion of `Remote.step`.** -/
theorem step_remoteTransition {e : RemoteEvent} (h : s.step cs texts e = some s') :
    RemoteTransition cs texts s e s' := by
  cases e with
  | accept =>
    obtain rfl := Option.some.inj h
    exact .accepted
  | call k c =>
    simp only [Remote.step, Option.bind_eq_bind, Option.bind_eq_some_iff,
      Option.guard_eq_some'] at h
    obtain ⟨x, hx, -, ⟨hidle, hbroken⟩, h⟩ := h
    obtain rfl := Option.some.inj h
    exact .called k c x hx hidle hbroken
  | handle k => exact transition_of_handle h
  | readNext k =>
    simp only [Remote.step, Option.bind_eq_bind, Option.bind_eq_some_iff] at h
    obtain ⟨x, hx, h⟩ := h
    split at h
    · rename_i offset hpc
      simp only [Option.bind_eq_some_iff] at h
      obtain ⟨S, hS, h⟩ := h
      obtain rfl := Option.some.inj h
      exact .readCalled k x offset S hx hpc hS
    · cases h
  | reply k => exact transition_of_reply h
  | receive k failed => exact transition_of_receive h
  | breaks k =>
    simp only [Remote.step, Option.bind_eq_bind, Option.bind_eq_some_iff] at h
    obtain ⟨x, hx, h⟩ := h
    obtain rfl := Option.some.inj h
    exact .broke k x hx
  | fail k =>
    simp only [Remote.step, Option.bind_eq_bind, Option.bind_eq_some_iff,
      Option.guard_eq_some'] at h
    obtain ⟨x, hx, -, hbroken, h⟩ := h
    obtain rfl := Option.some.inj h
    exact .failed k x hx hbroken
  | hangup k =>
    simp only [Remote.step, Option.bind_eq_bind, Option.bind_eq_some_iff,
      Option.guard_eq_some'] at h
    obtain ⟨x, hx, -, ⟨hbroken, hbusy⟩, h⟩ := h
    obtain rfl := Option.some.inj h
    exact .hungUp k x hx hbroken hbusy
  | enter m =>
    simp only [Remote.step, Option.bind_eq_bind, Option.bind_eq_some_iff] at h
    obtain ⟨S, hS, h⟩ := h
    obtain rfl := Option.some.inj h
    exact .entered m S hS
  | leave r =>
    simp only [Remote.step, Option.bind_eq_bind, Option.bind_eq_some_iff,
      Option.join_eq_some_iff] at h
    obtain ⟨c, hc, a, ha, S, hS, h⟩ := h
    obtain rfl := Option.some.inj h
    exact .left r c a S hc ha hS
  | work e =>
    simp only [Remote.step, Option.bind_eq_bind, Option.bind_eq_some_iff,
      Option.guard_eq_some'] at h
    obtain ⟨-, hinner, S, hS, h⟩ := h
    obtain rfl := Option.some.inj h
    exact .worked e S hinner hS

end EventLog.Network
