import EventLog.Network.Client
import EventLog.Network.Server
import EventLog.Segment.Live

/-!
# Catching up with a log in service

`StreamRead` against `handleStreamRead`, while producers append, segments roll and
retention deletes.  The client and the server count offsets separately, and no offset is
ever sent with a record.

`Streamed` says what a consumer sees of a stream, with one read of the manager for each
call of the callback.  Whatever part of the server's frames has arrived, the client is at a
point of such a stream; what was appended where then follows from the invariant of the log.
-/

namespace EventLog.Network

open EventLog.Lib
open EventLog.Wal
open EventLog.Segments

variable {cs : Checksum} {text : ReadAtError → String} {ms : Nat → Manager} {conn : Nat → Bool}

/-! ## What a consumer sees -/

/-- A stream from an offset on, as its consumer sees it: the calls of the callback and
    where `StreamRead` stands.  `ms i` is the manager at the next read. -/
inductive Streamed (cs : Checksum) (ms : Nat → Manager) :
    (i offset : Nat) → List (Nat × Bytes) → StreamPc → Prop where
  | waiting (i offset : Nat) : Streamed cs ms i offset [] (.reading offset)
  | failed (i offset : Nat) (err : ClientError) :
      Streamed cs ms i offset [] (.returned offset (some err))
  /-- The read found the end of the log. -/
  | caughtUp {i offset : Nat} {e : ReadAtError} : (ms i).readAt cs offset = .error e →
      e.isEOF = true → Streamed cs ms i offset [] (.returned offset none)
  | record {i offset : Nat} {data : Bytes} {calls : List (Nat × Bytes)} {pc : StreamPc} :
      (ms i).readAt cs offset = .ok data → Streamed cs ms (i + 1) (offset + 1) calls pc →
      Streamed cs ms i offset ((offset, data) :: calls) pc

namespace Streamed

variable {i offset : Nat} {calls : List (Nat × Bytes)} {pc : StreamPc}

/-- The calls count the offsets up, each with what its read returned. -/
theorem call (h : Streamed cs ms i offset calls pc) {k o : Nat} {d : Bytes}
    (hk : calls[k]? = some (o, d)) : o = offset + k ∧ (ms (i + k)).readAt cs o = .ok d := by
  -- on the stream: a record is the first call, or one of the rest, one read and one offset later
  induction h generalizing k with
  | waiting i offset => cases hk
  | failed i offset err => cases hk
  | caughtUp hread heof => cases hk
  | record hread hrest ih =>
    cases k with
    | zero =>
      obtain ⟨rfl, rfl⟩ := Prod.mk.inj (Option.some.inj hk)
      exact ⟨rfl, hread⟩
    | succ k =>
      obtain ⟨rfl, hread'⟩ := ih (List.getElem?_cons_succ ▸ hk)
      exact ⟨by omega, by rwa [Nat.add_assoc, Nat.add_comm 1 k] at hread'⟩

/-- `next` is the first offset that was not delivered. -/
theorem next (h : Streamed cs ms i offset calls pc) : pc.next = offset + calls.length := by
  induction h with
  | waiting i offset => rfl
  | failed i offset err => rfl
  | caughtUp hread heof => rfl
  | record hread hrest ih =>
    rw [ih, List.length_cons]
    omega

/-- Without an error, the last read found the end of the log. -/
theorem eof (h : Streamed cs ms i offset calls pc) {next : Nat} (hpc : pc = .returned next none) :
    ∃ e, (ms (i + calls.length)).readAt cs next = .error e ∧ e.isEOF = true := by
  induction h with
  | waiting i offset => cases hpc
  | failed i offset err => cases hpc
  | caughtUp hread heof =>
    obtain ⟨rfl, -⟩ := StreamPc.returned.inj hpc
    exact ⟨_, hread, heof⟩
  -- the rest of the stream ends at the same read, counted from one read on
  | record hread hrest ih =>
    obtain ⟨e, he, heof⟩ := ih hpc
    refine ⟨e, ?_, heof⟩
    rwa [Nat.add_assoc, Nat.add_comm 1] at he

end Streamed

/-! ## The client on the server's frames -/

/-- A read that fails is no record. -/
theorem streamed_of_error {closed : Bool} {fuel i offset : Nat} {bs rest : Bytes}
    {e : FrameError} (h : readResponse bs = (.error e, rest)) :
    Streamed cs ms i offset (streamReadLoop (fun _ _ => false) closed (fuel + 1) offset bs).1
      (streamReadLoop (fun _ _ => false) closed (fuel + 1) offset bs).2 := by
  rw [streamReadLoop_of_error h]
  split_ifs
  · exact .waiting i offset
  · exact .failed i offset _

/-- Whatever arrives of a frame with `StatusError`, it makes the call fail. -/
theorem streamed_of_errorResponse {closed : Bool} {fuel i offset : Nat} {bs more : Bytes}
    {msg : String} (hbs : bs <+: writeResponse (errorResponse msg) ++ more) :
    Streamed cs ms i offset (streamReadLoop (fun _ _ => false) closed (fuel + 1) offset bs).1
      (streamReadLoop (fun _ _ => false) closed (fuel + 1) offset bs).2 := by
  cases hread : readResponse bs with
  | mk read rest =>
  cases read with
  | error e => exact streamed_of_error hread
  | ok resp =>
    -- the first byte is the status, also if the text is too long for a frame
    obtain ⟨tail, rfl, -⟩ := readResponse_eq_ok hread
    have hstatus : resp.status = StatusError := (List.cons_prefix_cons.mp hbs).1
    have herror : resp.status ≠ StatusOK := by
      rw [hstatus]
      decide
    have hend : ¬StatusError = StatusStreamEnd := by decide
    obtain ⟨err, hround, hloop⟩ := streamReadLoop_of_end hread herror
    rw [streamReadRound, hstatus, if_neg hend, if_pos rfl] at hround
    obtain ⟨-, rfl⟩ := StreamPc.returned.inj hround
    rw [hloop]
    exact .failed i offset _

/-- Whatever arrives of the last frame of a stream. -/
theorem streamed_of_last {closed : Bool} {fuel i offset : Nat} {bs : Bytes} {e : ReadAtError}
    (hread : (ms i).readAt cs offset = .error e)
    (hbs : bs <+: writeResponse (streamRound cs text (ms i) offset).1 ++ []) :
    Streamed cs ms i offset (streamReadLoop (fun _ _ => false) closed (fuel + 1) offset bs).1
      (streamReadLoop (fun _ _ => false) closed (fuel + 1) offset bs).2 := by
  simp only [streamRound, hread, frameOf] at hbs
  cases heof : e.isEOF with
  | false =>
    rw [heof, if_neg Bool.false_ne_true] at hbs
    exact streamed_of_errorResponse hbs
  | true =>
    rw [heof, if_pos rfl] at hbs
    -- the last frame arrived as a whole, or the client is in the middle of it
    rcases readResponse_of_isPrefix hbs (Nat.zero_le _) with ⟨rest, -, -, hresp⟩ | ⟨e', hresp, -⟩
    · have hend : StatusStreamEnd ≠ StatusOK := by decide
      obtain ⟨err, hround, hloop⟩ := streamReadLoop_of_end hresp hend
      rw [streamReadRound, if_pos rfl] at hround
      obtain ⟨-, rfl⟩ := StreamPc.returned.inj hround
      rw [hloop]
      exact .caughtUp hread heof
    · exact streamed_of_error hresp

/-- **Run lemma**: on any part of the frames of the server, the client is at a point of the
    stream. -/
theorem streamed_of_isPrefix (closed : Bool) (fuel fuel' i offset : Nat) {bs : Bytes}
    (hbs : bs <+: (streamLoop cs text ms conn fuel i offset).flatMap writeResponse)
    (hfuel : bs.length < fuel') :
    Streamed cs ms i offset (streamReadLoop (fun _ _ => false) closed fuel' offset bs).1
      (streamReadLoop (fun _ _ => false) closed fuel' offset bs).2 := by
  -- on the reads of the server; the client may be anywhere in the bytes of a round
  induction fuel generalizing fuel' i offset bs with
  | zero =>
    obtain rfl := List.prefix_nil.mp hbs
    obtain ⟨fuel', rfl⟩ := Nat.exists_eq_add_one.mpr hfuel
    exact streamed_of_error (e := .eof) rfl
  | succ fuel ih =>
    obtain ⟨fuel', rfl⟩ := Nat.exists_eq_add_one.mpr (Nat.zero_lt_of_lt hfuel)
    rw [streamLoop_succ] at hbs
    by_cases hconn : conn i = true
    -- nothing of this frame was sent, so nothing arrived
    case neg =>
      rw [if_neg hconn] at hbs
      obtain rfl := List.prefix_nil.mp hbs
      exact streamed_of_error (e := .eof) rfl
    rw [if_pos hconn, List.flatMap_cons] at hbs
    rcases streamRound_cases cs text (ms i) offset with
      ⟨data, hread, hround⟩ | ⟨e, last, hread, -, hround⟩
    · rw [hround] at hbs
      rcases readResponse_of_isPrefix hbs (readAt_fits hread) with
        ⟨rest, hrest, rfl, hresp⟩ | ⟨e, hresp, -⟩
      · rw [streamReadLoop_of_record hresp rfl]
        -- the frame is not empty, so one round of fuel pays for it
        have hpos := writeResponse_length_pos ⟨StatusOK, data⟩
        simp only [List.length_append] at hfuel
        exact .record hread (ih fuel' (i + 1) (offset + 1) hrest (by omega))
      · exact streamed_of_error hresp
    · have hend : (streamRound cs text (ms i) offset).2 = none := by rw [hround]
      rw [hend] at hbs
      exact streamed_of_last hread hbs

/-! ## The call returns -/

/-- A read that fails gives the stream a last frame. -/
theorem exists_last_of_readAt_error {fuel i offset k : Nat} {e : ReadAtError}
    (hconn : ∀ i, conn i = true) (hk : k < fuel)
    (hread : (ms (i + k)).readAt cs (offset + k) = .error e) :
    ∃ last ∈ streamLoop cs text ms conn fuel i offset, last.status ≠ StatusOK := by
  induction fuel generalizing i offset k with
  | zero => exact absurd hk (Nat.not_lt_zero k)
  | succ fuel ih =>
    rw [streamLoop_succ, if_pos (hconn i)]
    rcases streamRound_cases cs text (ms i) offset with
      ⟨data, hok, hround⟩ | ⟨_, last, -, hlast, hround⟩
    · rw [hround]
      -- the failing read is not this one, so it is one of the rest
      cases k with
      | zero => cases hok.symm.trans hread
      | succ k =>
        have hshift : ∀ a : Nat, a + 1 + k = a + (k + 1) := fun a => by omega
        rw [← hshift, ← hshift] at hread
        obtain ⟨last, hmem, hlast⟩ := ih (Nat.lt_of_succ_lt_succ hk) hread
        exact ⟨last, List.mem_cons_of_mem _ hmem, hlast⟩
    · rw [hround]
      exact ⟨last, List.mem_cons_self, hlast⟩

/-- The records of a stream fit their frames. -/
theorem streamLoop_fits {fuel i offset : Nat} {resp : Response}
    (hmem : resp ∈ streamLoop cs text ms conn fuel i offset) (hok : resp.status = StatusOK) :
    resp.payload.length ≤ MaxPayloadSize := by
  induction fuel generalizing i offset with
  | zero => cases hmem
  | succ fuel ih =>
    -- every frame with `StatusOK` holds a record that was read
    rw [streamLoop_succ] at hmem
    split_ifs at hmem
    · rcases streamRound_cases cs text (ms i) offset with
        ⟨data, hread, hround⟩ | ⟨_, last, -, hlast, hround⟩
      · rw [hround] at hmem
        rcases List.mem_cons.mp hmem with rfl | hmem
        · exact readAt_fits hread
        · exact ih hmem
      · rw [hround] at hmem
        obtain rfl := List.mem_singleton.mp hmem
        exact absurd hok hlast
    · cases hmem

/-- Once a frame that is not a record has arrived, the call returns. -/
theorem streamReadLoop_returns (closed : Bool) {frames : List Response} (fuel next : Nat)
    (hfits : ∀ resp ∈ frames, resp.status = StatusOK → resp.payload.length ≤ MaxPayloadSize)
    (hlast : ∃ last ∈ frames, last.status ≠ StatusOK)
    (hfuel : (frames.flatMap writeResponse).length < fuel) :
    ∃ next' err, (streamReadLoop (fun _ _ => false) closed fuel next
      (frames.flatMap writeResponse)).2 = .returned next' err := by
  induction frames generalizing fuel next with
  | nil =>
    obtain ⟨last, hmem, -⟩ := hlast
    cases hmem
  | cons resp frames ih =>
    obtain ⟨fuel, rfl⟩ := Nat.exists_eq_add_one.mpr (Nat.zero_lt_of_lt hfuel)
    rw [List.flatMap_cons] at hfuel ⊢
    by_cases hok : resp.status = StatusOK
    · obtain ⟨status, data⟩ := resp
      obtain rfl : status = StatusOK := hok
      have hread := readResponse_writeResponse (frames.flatMap writeResponse)
        (hfits ⟨StatusOK, data⟩ List.mem_cons_self rfl)
      rw [streamReadLoop_of_record hread rfl]
      -- the last frame is one of the others
      obtain ⟨last, hmem, hstatus⟩ := hlast
      have hpos := writeResponse_length_pos ⟨StatusOK, data⟩
      rw [List.length_append] at hfuel
      refine ih fuel (next + 1) (fun resp hresp => hfits resp (List.mem_cons_of_mem _ hresp))
        ⟨last, ?_, hstatus⟩ (by omega)
      rcases List.mem_cons.mp hmem with rfl | hmem
      · exact absurd rfl hstatus
      · exact hmem
    · -- a frame that is not a record ends the call, whether its length is accepted or not
      obtain ⟨rest, ⟨n, hread⟩ | ⟨payload, hread⟩⟩ :=
        readResponse_append resp (frames.flatMap writeResponse)
      · rw [streamReadLoop_of_error hread]
        exact ⟨next, _, rfl⟩
      · obtain ⟨err, -, hloop⟩ := streamReadLoop_of_end hread hok
        rw [hloop]
        exact ⟨next, err, rfl⟩

/-! ## Streams of a log in service -/

/-- The log at each read of a stream, from a new directory on. -/
theorem liveInv_of_leads {cfg : Config} {mtime : Int} {L : Nat → LiveLog}
    (hstart : (L 0).Reached cs cfg mtime) (hlive : ∀ i, (L i).Leads cs (L (i + 1)))
    (i : Nat) : LiveInv cs (L i) := by
  induction i with
  | zero => exact LiveInv.reached hstart
  | succ i ih => exact ih.leads (hlive i)

theorem appended_mono {L : Nat → LiveLog} (hlive : ∀ i, (L i).Leads cs (L (i + 1))) {i j : Nat}
    (hij : i ≤ j) : (L i).appended ⊆ (L j).appended := by
  induction hij with
  | refl => exact List.Subset.refl _
  | step _ ih => exact List.Subset.trans ih (hlive _).appended

/-- **Streaming delivers the log exactly once, in order.**  `L i` is the log at the `i`-th
    read of the server, and `bs` is what has arrived at the client.  The callback was called
    with ascending offsets from the start offset on, each with the one payload that was
    appended there, and the client stands at the first offset not delivered.  It returns
    without an error only if the last read was at `NextOffset` or behind it.  It does return
    if the connection closes, and if a read failed and all frames arrive. -/
theorem streamRead_exactly_once (cs : Checksum) (text : ReadAtError → String) (cfg : Config)
    (mtime : Int) (L : Nat → LiveLog) (hstart : (L 0).Reached cs cfg mtime)
    (hlive : ∀ i, (L i).Leads cs (L (i + 1))) (startOffset : Nat) (hoffset : startOffset < 2 ^ 64)
    (conn : Nat → Bool) (fuel : Nat) (closed : Bool) (bs frames : Bytes)
    (hframes : frames = (handleStreamRead cs text (fun i => (L i).manager) conn fuel
      (Call.streamRead startOffset).request.payload).flatMap writeResponse)
    (harrived : bs <+: frames) :
    ∃ calls pc, streamRead (fun _ _ => false) closed startOffset bs = (calls, pc) ∧
      (∀ k o d, calls[k]? = some (o, d) → o = startOffset + k ∧ (o, d) ∈ (L k).appended ∧
        ∀ i d', (o, d') ∈ (L i).appended → d' = d) ∧
      pc.next = startOffset + calls.length ∧
      (∀ next, pc = .returned next none → (L calls.length).manager.nextOffset ≤ next) ∧
      (closed = true → ∃ next err, pc = .returned next err) ∧
      ∀ k e, k < fuel → (L k).manager.readAt cs (startOffset + k) = .error e →
        (∀ i, conn i = true) → bs = frames → ∃ next err, pc = .returned next err := by
  have hinv := liveInv_of_leads hstart hlive
  have hpayload : beNat (Call.streamRead startOffset).request.payload = startOffset :=
    beNat_beBytes (by simpa using hoffset)
  have hwidth : ¬(Call.streamRead startOffset).request.payload.length ≠ 8 :=
    not_not.mpr (beBytes_length 8 startOffset)
  -- the request carries the start offset in eight bytes
  rw [handleStreamRead, if_neg hwidth, hpayload] at hframes
  subst hframes
  have hstreamed := streamed_of_isPrefix closed fuel (bs.length + 1) 0 startOffset harrived
    (Nat.lt_succ_self _)
  refine ⟨(streamReadLoop (fun _ _ => false) closed (bs.length + 1) startOffset bs).1,
    (streamReadLoop (fun _ _ => false) closed (bs.length + 1) startOffset bs).2, rfl,
    fun k o d hk => ?_, hstreamed.next, fun next hnext => ?_, fun hclosed => ?_,
    fun k e hk hread hconn hall => ?_⟩
  · obtain ⟨rfl, hread⟩ := hstreamed.call hk
    rw [Nat.zero_add] at hread
    have happended := (hinv k).of_readAt hread
    refine ⟨rfl, happended, fun i d' hd' => ?_⟩
    -- at the later of the two moments both payloads have the offset
    exact (hinv (max i k)).unique (appended_mono hlive (le_max_left i k) hd')
      (appended_mono hlive (le_max_right i k) happended)
  · obtain ⟨e, hread, heof⟩ := hstreamed.eof hnext
    rw [Nat.zero_add] at hread
    exact (hinv _).of_readAt_eof hread heof
  · -- on a closed connection nothing keeps the loop waiting
    subst hclosed
    exact streamReadLoop_closed _ (Nat.lt_succ_self _)
  · subst hall
    refine streamReadLoop_returns closed _ startOffset (fun resp hresp => streamLoop_fits hresp)
      (exists_last_of_readAt_error (e := e) hconn hk ?_) (Nat.lt_succ_self _)
    rwa [Nat.zero_add]

/-- A log with segments of one record. -/
def smallSegments (es : List LiveEvent) : LiveLog :=
  let m : Manager := ⟨Config.settings ⟨1, 0, 0⟩, [], Segment.fresh 0 0⟩
  (run (LiveLog.step byteSum) ⟨m, []⟩ es).getD ⟨m, []⟩

/-- A second record is appended after the first read. -/
def appendMeanwhile : Nat → LiveLog
  | 0 => smallSegments [.append [7] .ok 0 0]
  | _ + 1 => smallSegments [.append [7] .ok 0 0, .append [8] .ok 0 0]

theorem appendMeanwhile_leads : (appendMeanwhile 0).Reached byteSum ⟨1, 0, 0⟩ 0 ∧
    ∀ i, (appendMeanwhile i).Leads byteSum (appendMeanwhile (i + 1)) := by
  have happend : ∀ data, ∀ e ∈ [LiveEvent.append data .ok 0 0], e.Atomic ∧ e.InService :=
    fun data e he => by
      obtain rfl := List.mem_singleton.mp he
      exact ⟨trivial, trivial⟩
  refine ⟨⟨_, _, rfl, fun e he => (happend [7] e he).1, rfl⟩, fun i => ?_⟩
  cases i with
  | zero => exact ⟨_, happend [8], rfl⟩
  | succ i => exact ⟨[], (fun e he => by cases he), rfl⟩

/-- The stream delivers both records and ends at `NextOffset`. -/
theorem streamRead_exactly_once_appendMeanwhile : ∃ frames,
    frames = (handleStreamRead byteSum (fun _ => "") (fun i => (appendMeanwhile i).manager)
      (fun _ => true) 3 (Call.streamRead 0).request.payload).flatMap writeResponse ∧
      streamRead (fun _ _ => false) false 0 frames = ([(0, [7]), (1, [8])], .returned 2 none) ∧
      (appendMeanwhile 2).manager.nextOffset ≤ 2 := by
  have heq : streamRead (fun _ _ => false) false 0
      ((handleStreamRead byteSum (fun _ => "") (fun i => (appendMeanwhile i).manager)
        (fun _ => true) 3 (Call.streamRead 0).request.payload).flatMap writeResponse) =
      ([(0, [7]), (1, [8])], .returned 2 none) := by
    decide +kernel
  -- the stream meets the second record, which was appended while it ran
  refine ⟨_, rfl, heq, ?_⟩
  obtain ⟨calls, pc, hresult, -, -, hcaught, -⟩ := streamRead_exactly_once byteSum (fun _ => "")
    ⟨1, 0, 0⟩ 0 appendMeanwhile appendMeanwhile_leads.1 appendMeanwhile_leads.2 0 (by decide)
    (fun _ => true) 3 false _ _ rfl List.prefix_rfl
  obtain ⟨rfl, rfl⟩ := Prod.mk.inj (heq.symm.trans hresult)
  exact hcaught 2 rfl

end EventLog.Network
