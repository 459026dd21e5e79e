import EventLog.Lib.Frame

/-!
# The wire protocol

Requests and responses are length-prefixed frames, tagged with an opcode or a status.
`WriteRequest` does not look at the length of its payload; `ReadRequest` refuses one above
`MaxPayloadSize`, and so does `ReadResponse`.
-/

namespace EventLog.Network

open EventLog.Lib

/-! ## Frames -/

def OpProduce : UInt8 := 1

def OpRead : UInt8 := 2

def OpNextOffset : UInt8 := 3

def OpEarliestOffset : UInt8 := 4

def OpStreamRead : UInt8 := 5

def StatusOK : UInt8 := 0

def StatusError : UInt8 := 1

/-- Terminal frame of a stream: the caller is caught up to the head. -/
def StatusStreamEnd : UInt8 := 2

/-- 64 MB -/
def MaxPayloadSize : Nat := 64 * 1024 * 1024

structure Request where
  op : UInt8
  payload : Bytes
  deriving DecidableEq, Repr

structure Response where
  status : UInt8
  payload : Bytes
  deriving DecidableEq, Repr

def errorResponse (msg : String) : Response := ⟨StatusError, msg.toUTF8.toList⟩

def writeRequest (req : Request) : Bytes := writeFrame req.op req.payload

def readRequest (bs : Bytes) : Except FrameError Request × Bytes :=
  match readFrame MaxPayloadSize bs with
  | (.error e, rest) => (.error e, rest)
  | (.ok (op, payload), rest) => (.ok ⟨op, payload⟩, rest)

def writeResponse (resp : Response) : Bytes := writeFrame resp.status resp.payload

def readResponse (bs : Bytes) : Except FrameError Response × Bytes :=
  match readFrame MaxPayloadSize bs with
  | (.error e, rest) => (.error e, rest)
  | (.ok (status, payload), rest) => (.ok ⟨status, payload⟩, rest)

/-! ## Reading back -/

theorem maxPayloadSize_lt : MaxPayloadSize < 256 ^ frameLengthSize := by decide

theorem readRequest_writeRequest {req : Request} (rest : Bytes)
    (h : req.payload.length ≤ MaxPayloadSize) :
    readRequest (writeRequest req ++ rest) = (.ok req, rest) := by
  rw [readRequest, writeRequest, readFrame_writeFrame _ _ h maxPayloadSize_lt]

/-- A request whose length field is above the limit is refused. -/
theorem readRequest_refused {req : Request} (rest : Bytes)
    (h : MaxPayloadSize < req.payload.length % 256 ^ frameLengthSize) :
    ∃ n rest', readRequest (writeRequest req ++ rest) = (.error (.tooLarge n), rest') := by
  have hrefused := readFrame_refused req.op rest h
  rw [readRequest, writeRequest]
  generalize readFrame MaxPayloadSize (writeFrame req.op req.payload ++ rest) = p at hrefused
  obtain ⟨r, rest'⟩ := p
  obtain rfl : r = _ := hrefused
  exact ⟨_, rest', rfl⟩

theorem readResponse_writeResponse {resp : Response} (rest : Bytes)
    (h : resp.payload.length ≤ MaxPayloadSize) :
    readResponse (writeResponse resp ++ rest) = (.ok resp, rest) := by
  rw [readResponse, writeResponse, readFrame_writeFrame _ _ h maxPayloadSize_lt]

theorem writeResponse_length_pos (resp : Response) : 0 < (writeResponse resp).length :=
  List.length_pos_iff.mpr (writeFrame_ne_nil _ _)

/-- A response of any length is read with its status, or its length is refused. -/
theorem readResponse_append (resp : Response) (rest : Bytes) :
    ∃ rest', (∃ n, readResponse (writeResponse resp ++ rest) = (.error (.tooLarge n), rest')) ∨
      ∃ payload, readResponse (writeResponse resp ++ rest) =
        (.ok ⟨resp.status, payload⟩, rest') := by
  rw [readResponse, writeResponse, readFrame_append]
  split_ifs
  · exact ⟨_, .inl ⟨_, rfl⟩⟩
  · exact ⟨_, .inr ⟨_, rfl⟩⟩

/-- What has arrived of a response and of what follows it: the response is there, or its end
    is still missing. -/
theorem readResponse_of_isPrefix {resp : Response} {bs more : Bytes}
    (hpre : bs <+: writeResponse resp ++ more) (h : resp.payload.length ≤ MaxPayloadSize) :
    (∃ rest, rest <+: more ∧ bs = writeResponse resp ++ rest ∧
        readResponse bs = (.ok resp, rest)) ∨
      ∃ e, readResponse bs = (.error e, []) ∧ e.isShort = true := by
  by_cases hwhole : writeResponse resp <+: bs
  · obtain ⟨rest, rfl⟩ := hwhole
    exact .inl ⟨rest, (List.prefix_append_right_inj _).mp hpre, rfl,
      readResponse_writeResponse rest h⟩
  · have hpart : bs <+: writeResponse resp :=
      (List.prefix_or_prefix_of_prefix hpre (List.prefix_append _ _)).resolve_right hwhole
    obtain ⟨e, he, hshort⟩ := readFrame_cut h maxPayloadSize_lt hpart
      fun heq => hwhole (heq ▸ List.prefix_rfl)
    exact .inr ⟨e, by rw [readResponse, he], hshort⟩

/-- A response that is read has the status its bytes start with, and takes some of them. -/
theorem readResponse_eq_ok {bs rest : Bytes} {resp : Response}
    (h : readResponse bs = (.ok resp, rest)) :
    ∃ more, bs = resp.status :: more ∧ rest.length ≤ more.length := by
  rw [readResponse] at h
  split at h
  · cases h
  · rename_i hframe
    obtain ⟨hok, rfl⟩ := Prod.mk.inj h
    obtain rfl := Except.ok.inj hok
    exact readFrame_eq_ok hframe

end EventLog.Network
