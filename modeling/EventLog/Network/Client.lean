import EventLog.Network.Protocol

/-!
# The client

`Produce`, `Read`, `NextOffset` and `EarliestOffset` are one round trip each: a request is
written and one response is read.  `StreamRead` writes one request and reads responses
until one of them ends the stream or the callback returns an error.  Neither side sends
offsets with the records of a stream; the client counts them itself.
-/

namespace EventLog.Network

open EventLog.Lib

/-! ## Calls -/

/-- A call that is one round trip. -/
inductive Unary where
  | produce (data : Bytes)
  | read (offset : Nat)
  | nextOffset
  | earliestOffset
  deriving DecidableEq, Repr

inductive Call where
  | unary (u : Unary)
  | streamRead (startOffset : Nat)
  deriving DecidableEq, Repr

def Unary.request : Unary → Request
  | .produce data => ⟨OpProduce, data⟩
  | .read offset => ⟨OpRead, beBytes 8 offset⟩
  | .nextOffset => ⟨OpNextOffset, []⟩
  | .earliestOffset => ⟨OpEarliestOffset, []⟩

/-- The request a call writes. -/
def Call.request : Call → Request
  | .unary u => u.request
  | .streamRead startOffset => ⟨OpStreamRead, beBytes 8 startOffset⟩

/-! ## Results -/

/-- Why a call fails. -/
inductive ClientError where
  /-- The error of `ReadResponse`. -/
  | read (e : FrameError)
  /-- "server error: %s" -/
  | server (msg : Bytes)
  /-- "%s: unexpected response length %d" -/
  | unexpectedLength (call : String) (length : Nat)
  /-- The error of the callback. -/
  | callback
  /-- "stream: unknown status %d" -/
  | unknownStatus (status : UInt8)
  deriving DecidableEq, Repr

/-- What a call returns. -/
inductive Result where
  | offset (r : Except ClientError Nat)
  | record (r : Except ClientError Bytes)
  | stream (next : Nat) (err : Option ClientError)
  deriving DecidableEq

/-- `roundTrip` after its request was written; `read` is what `ReadResponse` returned. -/
def roundTrip (read : Except FrameError Response) : Except ClientError Response :=
  match read with
  | .error e => .error (.read e)
  | .ok resp => if resp.status ≠ StatusOK then .error (.server resp.payload) else .ok resp

/-- A response that carries an offset. -/
def offsetOf (call : String) (resp : Except ClientError Response) : Except ClientError Nat :=
  match resp with
  | .error e => .error e
  | .ok resp =>
    if resp.payload.length ≠ 8 then .error (.unexpectedLength call resp.payload.length)
    else .ok (beNat resp.payload)

/-- What `Produce`, `Read`, `NextOffset` and `EarliestOffset` make of the response. -/
def Unary.result (u : Unary) (read : Except FrameError Response) : Result :=
  match u with
  | .produce _ => .offset (offsetOf "produce" (roundTrip read))
  | .read _ =>
    match roundTrip read with
    | .error e => .record (.error e)
    | .ok resp => .record (.ok resp.payload)
  | .nextOffset => .offset (offsetOf "next-offset" (roundTrip read))
  | .earliestOffset => .offset (offsetOf "earliest-offset" (roundTrip read))

/-! ## Streams -/

/-- Where `StreamRead` stands. -/
inductive StreamPc where
  | reading (next : Nat)
  | returned (next : Nat) (err : Option ClientError)
  deriving DecidableEq, Repr

def StreamPc.next : StreamPc → Nat
  | .reading next => next
  | .returned next _ => next

/-- One round of the loop of `StreamRead`; `failed` says whether the callback, if it is
    called, returns an error. -/
def streamReadRound (failed : Bool) (next : Nat) (read : Except FrameError Response) : StreamPc :=
  match read with
  | .error e => .returned next (some (.read e))
  | .ok resp =>
    if resp.status = StatusStreamEnd then .returned next none
    else if resp.status = StatusError then .returned next (some (.server resp.payload))
    else if resp.status = StatusOK then
      if failed then .returned next (some .callback) else .reading (next + 1)
    else .returned next (some (.unknownStatus resp.status))

/-- **Outcomes of a round**: a record the callback takes, a record it refuses, or the end of
    the stream. -/
theorem streamReadRound_cases (failed : Bool) (next : Nat) (read : Except FrameError Response) :
    (∃ resp, read = .ok resp ∧ resp.status = StatusOK ∧ failed = false ∧
        streamReadRound failed next read = .reading (next + 1)) ∨
      (∃ resp, read = .ok resp ∧ resp.status = StatusOK ∧ failed = true ∧
        streamReadRound failed next read = .returned next (some .callback)) ∨
      (∀ resp, read = .ok resp → resp.status ≠ StatusOK) ∧
        ∃ err, err ≠ some .callback ∧ streamReadRound failed next read = .returned next err := by
  cases read with
  | error e =>
    exact .inr (.inr ⟨(fun resp h => by cases h), _, by simp, rfl⟩)
  | ok resp =>
    by_cases hok : resp.status = StatusOK
    · -- a record: only the callback decides how the round ends
      have hend : ¬StatusOK = StatusStreamEnd := by decide
      have herror : ¬StatusOK = StatusError := by decide
      rw [streamReadRound, hok, if_neg hend, if_neg herror, if_pos rfl]
      cases failed with
      | false => exact .inl ⟨resp, rfl, hok, rfl, rfl⟩
      | true => exact .inr (.inl ⟨resp, rfl, hok, rfl, rfl⟩)
    · refine .inr (.inr ⟨fun resp' h => Except.ok.inj h ▸ hok, ?_⟩)
      unfold streamReadRound
      simp only [hok, if_false]
      -- whatever the other status is, the round returns without asking the callback
      split_ifs
      · exact ⟨_, by simp, rfl⟩
      · exact ⟨_, by simp, rfl⟩
      · exact ⟨_, by simp, rfl⟩

/-- The loop of `StreamRead` on the bytes that have arrived, of which no more follow if
    `closed`: the calls of the callback, and where the loop stands.  Every round reads a
    frame, so the bytes are exhausted in as many rounds. -/
def streamReadLoop (fn : Nat → Bytes → Bool) (closed : Bool) :
    (fuel next : Nat) → Bytes → List (Nat × Bytes) × StreamPc
  | 0, next, _ => ([], .reading next)
  | fuel + 1, next, bs =>
    match readResponse bs with
    | (.error e, _) =>
      -- on an open connection a short read waits
      if e.isShort && !closed then ([], .reading next)
      else ([], streamReadRound false next (.error e))
    | (.ok resp, rest) =>
      let calls := if resp.status = StatusOK then [(next, resp.payload)] else []
      match streamReadRound (fn next resp.payload) next (.ok resp) with
      | .returned next err => (calls, .returned next err)
      | .reading next =>
        (calls ++ (streamReadLoop fn closed fuel next rest).1,
          (streamReadLoop fn closed fuel next rest).2)

/-- `StreamRead` after its request was written, on the bytes that have arrived. -/
def streamRead (fn : Nat → Bytes → Bool) (closed : Bool) (startOffset : Nat) (bs : Bytes) :
    List (Nat × Bytes) × StreamPc :=
  streamReadLoop fn closed (bs.length + 1) startOffset bs

/-- A failed `ReadResponse` ends the call, or it waits. -/
theorem streamReadLoop_of_error {fn : Nat → Bytes → Bool} {closed : Bool} {fuel next : Nat}
    {bs rest : Bytes} {e : FrameError} (h : readResponse bs = (.error e, rest)) :
    streamReadLoop fn closed (fuel + 1) next bs =
      if e.isShort && !closed then ([], .reading next)
      else ([], .returned next (some (.read e))) := by
  rw [streamReadLoop, h]
  rfl

/-- A frame that is not a record ends the call. -/
theorem streamReadLoop_of_end {fn : Nat → Bytes → Bool} {closed : Bool} {fuel next : Nat}
    {bs rest : Bytes} {resp : Response} (h : readResponse bs = (.ok resp, rest))
    (hend : resp.status ≠ StatusOK) :
    ∃ err, streamReadRound false next (.ok resp) = .returned next err ∧
      streamReadLoop fn closed (fuel + 1) next bs = ([], .returned next err) := by
  -- the callback is not asked
  have hround : ∀ failed, streamReadRound failed next (.ok resp) =
      streamReadRound false next (.ok resp) := fun failed => by
    simp only [streamReadRound, hend, if_false]
  rcases streamReadRound_cases false next (.ok resp) with
    ⟨resp', hresp, hok, -⟩ | ⟨resp', hresp, hok, -⟩ | ⟨-, err, -, herr⟩
  · exact absurd (Except.ok.inj hresp ▸ hok) hend
  · exact absurd (Except.ok.inj hresp ▸ hok) hend
  · refine ⟨err, herr, ?_⟩
    rw [streamReadLoop, h]
    simp only [hround, herr, hend, if_false]

/-- A record is handed to the callback. -/
theorem streamReadLoop_of_record {fn : Nat → Bytes → Bool} {closed : Bool} {fuel next : Nat}
    {bs rest : Bytes} {data : Bytes} (h : readResponse bs = (.ok ⟨StatusOK, data⟩, rest))
    (hfn : fn next data = false) :
    streamReadLoop fn closed (fuel + 1) next bs =
      ((next, data) :: (streamReadLoop fn closed fuel (next + 1) rest).1,
        (streamReadLoop fn closed fuel (next + 1) rest).2) := by
  rw [streamReadLoop, h]
  simp only [hfn]
  rfl

/-- On a closed connection the call returns. -/
theorem streamReadLoop_closed (fn : Nat → Bytes → Bool) {fuel next : Nat} {bs : Bytes}
    (hfuel : bs.length < fuel) :
    ∃ next' err, (streamReadLoop fn true fuel next bs).2 = .returned next' err := by
  induction fuel generalizing next bs with
  | zero => exact absurd hfuel (Nat.not_lt_zero _)
  | succ fuel ih =>
    cases hread : readResponse bs with
    | mk read rest =>
    cases read with
    | error e =>
      rw [streamReadLoop_of_error hread, Bool.not_true, Bool.and_false]
      exact ⟨next, _, rfl⟩
    | ok resp =>
      -- a frame was read, so fewer bytes than rounds are left
      obtain ⟨more, rfl, hrest⟩ := readResponse_eq_ok hread
      rw [streamReadLoop, hread]
      simp only
      split
      · exact ⟨_, _, rfl⟩
      · exact ih (by rw [List.length_cons] at hfuel; omega)

end EventLog.Network
