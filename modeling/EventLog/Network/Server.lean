import EventLog.Network.Protocol
import EventLog.Segment.Manager

/-!
# The server

A request is answered with one frame.  A stream is answered with one frame for every record
from a start offset on, and a last frame that says why the stream ended.

A handler checks its request, calls one method of the manager and makes a frame of what that
returns.  Other goroutines run while it waits for the manager, so the two halves are apart:
`dispatch` and the handlers go up to the call, `responseTo` and `frameOf` go on from there.

The log may change while it is streamed, so the loop reads the manager anew in every
round: `ms i` is the manager at the `i`-th read.  `conn i` says whether the connection
takes the `i`-th frame, and `text` is `err.Error()`.
-/

namespace EventLog.Network

open EventLog.Lib
open EventLog.Wal
open EventLog.Segments

/-! ## Handlers -/

/-- `err.Error()` of what a handler gets from the manager. -/
structure ErrorTexts where
  append : AppendError → String
  readAt : ReadAtError → String
  /-- The text of a read from a closed file. -/
  fileClosed : String

/-- `handleProduce` up to its call of the manager: the method it calls, or the response it
    gives without a call. -/
def handleProduce (data : Bytes) : Except Response Method :=
  if data.length = 0 then .error (errorResponse "empty payload")
  else .ok (.append data)

def handleRead (payload : Bytes) : Except Response Method :=
  if payload.length ≠ 8 then .error (errorResponse "read requires 8-byte offset")
  else .ok (.readAt (beNat payload))

def handleNextOffset : Except Response Method := .ok .nextOffset

def handleEarliestOffset : Except Response Method := .ok .earliestOffset

/-- `dispatch` up to the call of the manager. -/
def dispatch (req : Request) : Except Response Method :=
  if req.op = OpProduce then handleProduce req.payload
  else if req.op = OpRead then handleRead req.payload
  else if req.op = OpNextOffset then handleNextOffset
  else if req.op = OpEarliestOffset then handleEarliestOffset
  else .error (errorResponse ("unknown opcode: " ++ toString req.op.toNat))

/-- What the handlers make of what the method returned. -/
def responseTo (texts : ErrorTexts) : Answer → Option Response
  | .append (.ok offset) => some ⟨StatusOK, beBytes 8 offset⟩
  | .append (.error e) => some (errorResponse (texts.append e))
  | .readAt (.answered (.ok data)) => some ⟨StatusOK, data⟩
  | .readAt (.answered (.error e)) => some (errorResponse (texts.readAt e))
  | .readAt .fileClosed => some (errorResponse texts.fileClosed)
  | .offset o => some ⟨StatusOK, beBytes 8 o⟩
  -- no handler calls `RunRetention`
  | .done => none

/-- What a method returns when nothing else runs; `appended` is what `Append` returns. -/
def answerOf (cs : Checksum) (m : Manager) (appended : Except AppendError Nat) : Method → Answer
  | .append _ => .append appended
  | .readAt offset => .readAt (.answered (m.readAt cs offset))
  | .nextOffset => .offset m.nextOffset
  | .earliestOffset => .offset m.earliestOffset
  | .runRetention => .done

/-- What `handleConn` does with a request, up to a call of the manager. -/
inductive Handling where
  /-- It writes a response and reads the next request. -/
  | respond (resp : Response)
  /-- A handler of `dispatch` calls a method of the manager. -/
  | call (m : Method)
  /-- It enters the loop of `handleStreamRead`. -/
  | stream (offset : Nat)

/-- The round of `handleConn` after `ReadRequest`. -/
def handleRequest (req : Request) : Handling :=
  if req.op = OpStreamRead then
    -- the check of `handleStreamRead`
    if req.payload.length ≠ 8 then .respond (errorResponse "stream-read requires 8-byte offset")
    else .stream (beNat req.payload)
  else
    match dispatch req with
    | .error resp => .respond resp
    | .ok m => .call m

/-! ## The stream -/

/-- The loop of `handleStreamRead` at its `i`-th read: the frames the connection takes. -/
def streamLoop (cs : Checksum) (text : ReadAtError → String) (ms : Nat → Manager)
    (conn : Nat → Bool) : (fuel i offset : Nat) → List Response
  | 0, _, _ => []
  | fuel + 1, i, offset =>
    match (ms i).readAt cs offset with
    | .error e =>
      -- `io.EOF` means caught up to the head; everything else is a real read error
      let last := if e.isEOF then ⟨StatusStreamEnd, []⟩ else errorResponse (text e)
      if conn i then [last] else []
    | .ok data =>
      -- a write that fails ends the stream without a last frame
      if conn i then ⟨StatusOK, data⟩ :: streamLoop cs text ms conn fuel (i + 1) (offset + 1)
      else []

/-- A round of the loop after `ReadAt`: the frame it writes, and the offset of the next round
    unless the stream has ended. -/
def frameOf (text : ReadAtError → String) (offset : Nat) :
    Except ReadAtError Bytes → Response × Option Nat
  | .error e => (if e.isEOF then ⟨StatusStreamEnd, []⟩ else errorResponse (text e), none)
  | .ok data => (⟨StatusOK, data⟩, some (offset + 1))

/-- One round of the loop when nothing else runs. -/
def streamRound (cs : Checksum) (text : ReadAtError → String) (m : Manager) (offset : Nat) :
    Response × Option Nat :=
  frameOf text offset (m.readAt cs offset)

/-- The loop is made of rounds. -/
theorem streamLoop_succ (cs : Checksum) (text : ReadAtError → String) (ms : Nat → Manager)
    (conn : Nat → Bool) (fuel i offset : Nat) :
    streamLoop cs text ms conn (fuel + 1) i offset =
      if conn i then
        (streamRound cs text (ms i) offset).1 ::
          match (streamRound cs text (ms i) offset).2 with
          | some offset => streamLoop cs text ms conn fuel (i + 1) offset
          | none => []
      else [] := by
  rw [streamLoop, streamRound]
  cases (ms i).readAt cs offset <;> rfl

/-- `handleStreamRead`: the frames of one request; `fuel` bounds the number of reads. -/
def handleStreamRead (cs : Checksum) (text : ReadAtError → String) (ms : Nat → Manager)
    (conn : Nat → Bool) (fuel : Nat) (payload : Bytes) : List Response :=
  if payload.length ≠ 8 then
    if conn 0 then [errorResponse "stream-read requires 8-byte offset"] else []
  else streamLoop cs text ms conn fuel 0 (beNat payload)

/-! ## Frames -/

/-- Every error text fits a frame. -/
def ErrorTexts.Fit (texts : ErrorTexts) : Prop :=
  (∀ e, (errorResponse (texts.append e)).payload.length ≤ MaxPayloadSize) ∧
    ∀ e, (errorResponse (texts.readAt e)).payload.length ≤ MaxPayloadSize

/-- Every record fits a frame. -/
theorem readAt_fits {cs : Checksum} {m : Manager} {o : Nat} {d : Bytes}
    (h : m.readAt cs o = .ok d) : d.length ≤ MaxPayloadSize := by
  rw [Manager.readAt] at h
  split at h
  · -- a segment returns a record that passed the length check of the walk
    rw [Segment.readAt] at h
    split_ifs at h
    split at h
    · cases h
    · obtain rfl := Except.ok.inj h
      rename_i hread
      exact readAt_length_le hread
  · split_ifs at h

/-- So does every frame of a stream, if the texts do. -/
theorem frameOf_fits {text : ReadAtError → String}
    (htext : ∀ e, (errorResponse (text e)).payload.length ≤ MaxPayloadSize) (offset : Nat)
    {r : Except ReadAtError Bytes} (hrecord : ∀ data, r = .ok data → data.length ≤ MaxPayloadSize) :
    (frameOf text offset r).1.payload.length ≤ MaxPayloadSize := by
  cases r with
  | error e =>
    simp only [frameOf]
    split_ifs
    · exact Nat.zero_le _
    · exact htext e
  | ok data => exact hrecord data rfl

/-- A stream goes on after a frame with `StatusOK`, which holds a record, and ends with any
    other. -/
theorem frameOf_cases (text : ReadAtError → String) (offset : Nat) (r : Except ReadAtError Bytes) :
    (∃ data, r = .ok data ∧ frameOf text offset r = (⟨StatusOK, data⟩, some (offset + 1))) ∨
      ∃ e last, r = .error e ∧ last.status ≠ StatusOK ∧ frameOf text offset r = (last, none) := by
  cases r with
  | error e =>
    refine .inr ⟨e, _, rfl, ?_, rfl⟩
    split_ifs
    · exact (by decide : StatusStreamEnd ≠ StatusOK)
    · exact (by decide : StatusError ≠ StatusOK)
  | ok data => exact .inl ⟨data, rfl, rfl⟩

theorem streamRound_fits (cs : Checksum) {text : ReadAtError → String}
    (htext : ∀ e, (errorResponse (text e)).payload.length ≤ MaxPayloadSize) (m : Manager)
    (offset : Nat) : (streamRound cs text m offset).1.payload.length ≤ MaxPayloadSize :=
  frameOf_fits htext offset fun _ hread => readAt_fits hread

theorem streamRound_cases (cs : Checksum) (text : ReadAtError → String) (m : Manager)
    (offset : Nat) :
    (∃ data, m.readAt cs offset = .ok data ∧
        streamRound cs text m offset = (⟨StatusOK, data⟩, some (offset + 1))) ∨
      ∃ e last, m.readAt cs offset = .error e ∧ last.status ≠ StatusOK ∧
        streamRound cs text m offset = (last, none) :=
  frameOf_cases text offset (m.readAt cs offset)

/-- The response to an answer fits a frame if the record in it does. -/
theorem responseTo_fits {texts : ErrorTexts} (htexts : texts.Fit) {a : Answer} {resp : Response}
    (hclosed : a ≠ .readAt .fileClosed)
    (hrecord : ∀ data, a = .readAt (.answered (.ok data)) → data.length ≤ MaxPayloadSize)
    (h : responseTo texts a = some resp) : resp.payload.length ≤ MaxPayloadSize := by
  unfold responseTo at h
  -- offsets take eight bytes, and the texts fit by assumption
  split at h
  · obtain rfl := Option.some.inj h
    exact (by decide : 8 ≤ MaxPayloadSize)
  · obtain rfl := Option.some.inj h
    exact htexts.1 _
  · obtain rfl := Option.some.inj h
    exact hrecord _ rfl
  · obtain rfl := Option.some.inj h
    exact htexts.2 _
  · exact absurd rfl hclosed
  · obtain rfl := Option.some.inj h
    exact (by decide : 8 ≤ MaxPayloadSize)
  · cases h

/-- **Run lemma of the stream**: if the first `n` reads succeed, frame `n` is what the next
    read makes of it. -/
theorem streamLoop_getElem? (cs : Checksum) (text : ReadAtError → String) (ms : Nat → Manager)
    (conn : Nat → Bool) (fuel i offset n : Nat) (hfuel : n < fuel)
    (hconn : ∀ k, k ≤ n → conn (i + k) = true)
    (hread : ∀ k, k < n → ∃ d, (ms (i + k)).readAt cs (offset + k) = .ok d) :
    (streamLoop cs text ms conn fuel i offset)[n]? =
      match (ms (i + n)).readAt cs (offset + n) with
      | .error e =>
        some (if e.isEOF then ⟨StatusStreamEnd, []⟩ else errorResponse (text e))
      | .ok data => some ⟨StatusOK, data⟩ := by
  induction n generalizing fuel i offset with
  | zero =>
    obtain ⟨fuel, rfl⟩ : ∃ f, fuel = f + 1 := ⟨fuel - 1, by omega⟩
    have hconn0 := hconn 0 (Nat.le_refl 0)
    rw [Nat.add_zero] at hconn0
    rw [streamLoop, Nat.add_zero, Nat.add_zero]
    cases (ms i).readAt cs offset with
    | error e => simp [hconn0]
    | ok data => simp [hconn0]
  | succ n ih =>
    obtain ⟨fuel, rfl⟩ : ∃ f, fuel = f + 1 := ⟨fuel - 1, by omega⟩
    have hconn0 := hconn 0 (Nat.zero_le _)
    obtain ⟨d, hd⟩ := hread 0 (Nat.succ_pos n)
    rw [Nat.add_zero] at hconn0
    rw [Nat.add_zero, Nat.add_zero] at hd
    -- the rest of the stream starts one read and one offset later
    have hshift : ∀ a k : Nat, a + 1 + k = a + (k + 1) := fun a k => by omega
    have ih := ih fuel (i + 1) (offset + 1) (by omega)
      (fun k hk => by rw [hshift]; exact hconn (k + 1) (by omega))
      (fun k hk => by rw [hshift, hshift]; exact hread (k + 1) (by omega))
    rw [hshift, hshift] at ih
    rw [streamLoop, hd]
    simp only [hconn0, if_true, List.getElem?_cons_succ]
    exact ih

end EventLog.Network
