import EventLog.Network.Protocol

/-!
# The wire format as a codec

Requests and responses are the same frames under two names, so what is said of one is said
of the other.  For payloads within `MaxPayloadSize` the format is exact in both directions.

The writer narrows the length of a payload to 32 bits and only the reader checks it.  A
payload of more than `MaxPayloadSize` bytes is therefore refused only as long as its length
is above the limit modulo `2 ^ 32`: otherwise the reader takes the front of the payload for
the whole of it, and the rest for further requests.
-/

namespace EventLog.Network

open EventLog.Lib

/-! ## Both directions -/

/-- The format is exact: sequences are read back in order, a value that is read took exactly
    its own bytes, and a truncated frame or a length above the limit gives no value. -/
structure ExactWire {α : Type} (write : α → Bytes) (read : Bytes → Except FrameError α × Bytes)
    (payload : α → Bytes) : Prop where
  inOrder : ∀ (as : List α) (rest : Bytes), (∀ a ∈ as, (payload a).length ≤ MaxPayloadSize) →
    readMany read as.length (as.flatMap write ++ rest) = (.ok as, rest)
  consumed : ∀ bs a rest, read bs = (.ok a, rest) →
    (payload a).length ≤ MaxPayloadSize ∧ bs = write a ++ rest
  truncated : ∀ a bs, (payload a).length ≤ MaxPayloadSize → bs <+: write a → bs ≠ write a →
    ∃ e rest, read bs = (.error e, rest)
  overLimit : ∀ (tag : UInt8) (len more : Bytes), len.length = frameLengthSize →
    MaxPayloadSize < beNat len → ∃ e rest, read (tag :: (len ++ more)) = (.error e, rest)

/-- What is written and read as frames is exact. -/
theorem exactWire_of_frames {α : Type} {read : Bytes → Except FrameError α × Bytes}
    (frame : α → UInt8 × Bytes)
    (hok : ∀ bs a rest, read bs = (.ok a, rest) ↔
      readFrame MaxPayloadSize bs = (.ok (frame a), rest))
    (herror : ∀ bs e rest, readFrame MaxPayloadSize bs = (.error e, rest) →
      read bs = (.error e, rest)) :
    ExactWire (fun a => writeFrame (frame a).1 (frame a).2) read fun a => (frame a).2 := by
  have hcodec := (frame_exactCodec maxPayloadSize_lt).map frame hok
  exact
    { inOrder := hcodec.readMany_flatMap
      consumed := hcodec.consumed
      truncated := fun a bs ha hpre hne => hcodec.truncated ha hpre hne
      overLimit := fun tag len more hwidth hlen =>
        ⟨_, _, herror _ _ _ (readFrame_tooLarge more hwidth hlen)⟩ }

theorem readRequest_eq_ok_iff (bs : Bytes) (req : Request) (rest : Bytes) :
    readRequest bs = (.ok req, rest) ↔
      readFrame MaxPayloadSize bs = (.ok (req.op, req.payload), rest) := by
  rw [readRequest]
  split
  · simp_all
  · rename_i op payload rest' hframe
    rw [hframe]
    cases req
    simp

theorem readResponse_eq_ok_iff (bs : Bytes) (resp : Response) (rest : Bytes) :
    readResponse bs = (.ok resp, rest) ↔
      readFrame MaxPayloadSize bs = (.ok (resp.status, resp.payload), rest) := by
  rw [readResponse]
  split
  · simp_all
  · rename_i status payload rest' hframe
    rw [hframe]
    cases resp
    simp

/-- **The wire format is an exact codec**, for requests and for responses. -/
theorem wire_exact :
    ExactWire writeRequest readRequest Request.payload ∧
      ExactWire writeResponse readResponse Response.payload :=
  ⟨exactWire_of_frames (fun req : Request => (req.op, req.payload)) readRequest_eq_ok_iff
      fun bs e rest h => by rw [readRequest, h],
    exactWire_of_frames (fun resp : Response => (resp.status, resp.payload)) readResponse_eq_ok_iff
      fun bs e rest h => by rw [readResponse, h]⟩

/-! ## Payloads above the limit -/

/-- What `ReadRequest` returns in the loop of `handleConn` on a connection that carries
    these bytes; the loop ends with the first error. -/
def serverRequests (bs : Bytes) : List Request := readAll readRequest (bs.length + 1) bs

/-- The server reads the length modulo `2 ^ 32`. -/
theorem readRequest_append (req : Request) (more : Bytes) :
    readRequest (writeRequest req ++ more) =
      if MaxPayloadSize < req.payload.length % 2 ^ 32 then
        (.error (.tooLarge (req.payload.length % 2 ^ 32)), req.payload ++ more)
      else
        (.ok ⟨req.op, (req.payload ++ more).take (req.payload.length % 2 ^ 32)⟩,
          (req.payload ++ more).drop (req.payload.length % 2 ^ 32)) := by
  have hwidth : 256 ^ frameLengthSize = 2 ^ 32 := rfl
  rw [readRequest, writeRequest, readFrame_append, hwidth]
  split_ifs <;> rfl

/-- **Which requests are refused**: exactly those whose length is above the limit modulo
    `2 ^ 32`, however long the payload is.  Then the server gets no request from the bytes. -/
theorem oversized_refused_iff (req : Request) (more : Bytes) :
    ((∃ e rest, readRequest (writeRequest req ++ more) = (.error e, rest)) ∧
        serverRequests (writeRequest req ++ more) = []) ↔
      MaxPayloadSize < req.payload.length % 2 ^ 32 := by
  rw [serverRequests, readAll, readRequest_append]
  split_ifs with h
  · exact iff_of_true ⟨⟨_, _, rfl⟩, rfl⟩ h
  · refine iff_of_false ?_ h
    rintro ⟨⟨e, rest, herror⟩, -⟩
    cases herror

theorem writeRequest_zeros : writeRequest ⟨0, []⟩ = List.replicate 5 0 := by decide

/-- Zeros are requests with opcode 0 and no payload. -/
theorem readRequest_zeros {n : Nat} (hn : 5 ≤ n) :
    readRequest (List.replicate n 0) = (.ok ⟨0, []⟩, List.replicate (n - 5) 0) := by
  obtain ⟨m, rfl⟩ := Nat.exists_eq_add_of_le hn
  rw [Nat.add_sub_cancel_left, ← List.replicate_append_replicate, ← writeRequest_zeros]
  exact readRequest_writeRequest _ (Nat.zero_le _)

/-- `Produce` with `2 ^ 32` zeros: the server takes it for a `Produce` with an empty payload,
    which it refuses, and then takes the zeros for requests. -/
theorem oversized_misread :
    readRequest (writeRequest ⟨OpProduce, List.replicate (2 ^ 32) 0⟩) =
        (.ok ⟨OpProduce, []⟩, List.replicate (2 ^ 32) 0) ∧
      (serverRequests (writeRequest ⟨OpProduce, List.replicate (2 ^ 32) 0⟩)).take 2 =
        [⟨OpProduce, []⟩, ⟨0, []⟩] := by
  have hread := readRequest_append ⟨OpProduce, List.replicate (2 ^ 32) 0⟩ []
  simp only [List.length_replicate, List.append_nil, Nat.mod_self, List.take_zero,
    List.drop_zero] at hread
  -- the length field of 2 ^ 32 bytes is zero
  rw [if_neg (Nat.not_lt_zero _)] at hread
  refine ⟨hread, ?_⟩
  have hlen : (writeRequest ⟨OpProduce, List.replicate (2 ^ 32) 0⟩).length =
      2 ^ 32 + 4 + 1 := by
    rw [writeRequest, writeFrame, List.length_cons, List.length_append, beBytes_length,
      List.length_replicate, Nat.add_comm frameLengthSize]
    rfl
  -- the payload is parsed as requests of its own, of which each zero byte is an opcode
  have hzeros : readRequest (List.replicate (2 ^ 32) 0) = _ :=
    readRequest_zeros (by decide : 5 ≤ 2 ^ 32)
  rw [serverRequests, hlen, readAll_of_ok _ hread, readAll_of_ok _ hzeros, List.take_succ_cons,
    List.take_succ_cons, List.take_zero]

end EventLog.Network
