import EventLog.Lib.Relay
import EventLog.Network.Remote

/-!
# The log as its remote clients see it

A call of a client is carried out by a handler, which makes a call of the manager for it.
The manager is linearizable, and the call of the handler lies within that of the client; so
the clients of all connections, and the process itself, see one log (`Relays`).

What has to be shown is that a response reaches the call it belongs to.  Nothing on the wire
says so.  It holds because a connection carries one call at a time: `Progress` lists where a
call can be, with the bytes that are then under way in either direction.

A call that fails with the error of its connection is not answered.  It may have taken effect,
or still do so.
-/

namespace EventLog.Network

open EventLog.Lib
open EventLog.Wal
open EventLog.Segments

/-! ## What one call does -/

/-- What one call does to the log, and what it returns. -/
inductive ServesRemote (texts : ErrorTexts) :
    GrowingLog Bytes → RemoteOp → GrowingLog Bytes → RemoteReply → Prop where
  | produced (k data l l' offset) : data ≠ [] →
      Segments.Serves l (.append data) l' (.append (.ok offset)) →
      ServesRemote texts l (.client k (.produce data)) l'
        (.client (.offset (.ok (offset % UInt64.size))))
  | unproduced (k data l l' e) : data ≠ [] →
      Segments.Serves l (.append data) l' (.append (.error e)) →
      ServesRemote texts l (.client k (.produce data)) l'
        (.client (.offset (.error (.server (errorResponse (texts.append e)).payload))))
  | empty (k l) : ServesRemote texts l (.client k (.produce [])) l
      (.client (.offset (.error (.server (errorResponse "empty payload").payload))))
  | read (k offset l data) : l.readAt offset = .ok data →
      ServesRemote texts l (.client k (.read offset)) l (.client (.record (.ok data)))
  | unread (k offset l e) : l.readAt offset = .error e →
      ServesRemote texts l (.client k (.read offset)) l
        (.client (.record (.error (.server (errorResponse (texts.readAt e)).payload))))
  | nextOffset (k l) : ServesRemote texts l (.client k .nextOffset) l
      (.client (.offset (.ok (l.payloads.length % UInt64.size))))
  | earliestOffset (k l) : ServesRemote texts l (.client k .earliestOffset) l
      (.client (.offset (.ok (l.earliest % UInt64.size))))
  | process (m l l' a) : Segments.Serves l m l' a →
      ServesRemote texts l (.process m) l' (.process a)

variable {cs : Checksum} {texts : ErrorTexts} {l l' : GrowingLog Bytes} {u : Unary}
  {m : Method} {a : Answer} {resp : Response} {k : Nat}

/-- Offsets are `uint64`, and the length of a payload is read as it was written or refused. -/
def Call.Valid : Call → Prop
  | .unary (.read offset) => offset < UInt64.size
  | .unary u => (Call.unary u).Fits
  | .streamRead startOffset => startOffset < UInt64.size

instance : DecidablePred Call.Valid
  | .unary (.produce _) => inferInstanceAs (Decidable (Call.Fits _))
  | .unary (.read _) => inferInstanceAs (Decidable (_ < _))
  | .unary .nextOffset => inferInstanceAs (Decidable (Call.Fits _))
  | .unary .earliestOffset => inferInstanceAs (Decidable (Call.Fits _))
  | .streamRead _ => inferInstanceAs (Decidable (_ < _))

theorem pow_eq_size : 256 ^ 8 = UInt64.size := by decide

theorem beNat_beBytes_offset {offset : Nat} (h : offset < UInt64.size) :
    beNat (beBytes 8 offset) = offset :=
  beNat_beBytes (h.trans_eq pow_eq_size.symm)

theorem beBytes_fits (offset : Nat) : (beBytes 8 offset).length ≤ MaxPayloadSize := by
  rw [beBytes_length]
  decide

theorem Call.Valid.fits {c : Call} (h : c.Valid) : c.Fits := by
  cases c with
  | unary u =>
    cases u with
    | read offset => exact .inl (beBytes_fits offset)
    | produce | nextOffset | earliestOffset => exact h
  | streamRead startOffset => exact .inl (beBytes_fits startOffset)

/-! ## Responses -/

theorem roundTrip_errorResponse (msg : String) :
    roundTrip (.ok (errorResponse msg)) = .error (.server (errorResponse msg).payload) := by
  have hne : (errorResponse msg).status ≠ StatusOK := (by decide : StatusError ≠ StatusOK)
  rw [roundTrip, if_pos hne]

theorem roundTrip_ok (payload : Bytes) :
    roundTrip (.ok ⟨StatusOK, payload⟩) = .ok ⟨StatusOK, payload⟩ := by
  rw [roundTrip, if_neg (by simp)]

theorem offsetOf_beBytes (call : String) (offset : Nat) :
    offsetOf call (.ok ⟨StatusOK, beBytes 8 offset⟩) = .ok (offset % UInt64.size) := by
  rw [offsetOf, if_neg (by simp [beBytes_length]), beNat_beBytes_mod, pow_eq_size]

/-- Which method is called for which call. -/
theorem handleRequest_valid (hvalid : (Call.unary u).Valid) :
    (u = .produce [] ∧ handleRequest u.request = .respond (errorResponse "empty payload")) ∨
      (∃ data, data ≠ [] ∧ u = .produce data ∧ handleRequest u.request = .call (.append data)) ∨
      (∃ offset, u = .read offset ∧ handleRequest u.request = .call (.readAt offset)) ∨
      (u = .nextOffset ∧ handleRequest u.request = .call .nextOffset) ∨
      (u = .earliestOffset ∧ handleRequest u.request = .call .earliestOffset) := by
  refine (handleRequest_unary u).imp_right (Or.imp_right (Or.imp_left ?_))
  rintro ⟨offset, rfl, hreq⟩
  rw [beNat_beBytes_offset hvalid] at hreq
  exact ⟨offset, rfl, hreq⟩

/-- **The response a handler gives is what the call returns.** -/
theorem serves_response (hvalid : (Call.unary u).Valid) (hm : handleRequest u.request = .call m)
    (hs : Segments.Serves l m l' a) (hresp : responseTo texts a = some resp) :
    ServesRemote texts l (.client k u) l' (.client (u.result (.ok resp))) := by
  -- by the request of the call; the method it leads to decides what the answer can be
  rcases handleRequest_valid hvalid with ⟨-, hm'⟩ | ⟨data, hdata, rfl, hm'⟩ | ⟨offset, rfl, hm'⟩ |
    ⟨rfl, hm'⟩ | ⟨rfl, hm'⟩
  · -- an empty payload leads to no call
    cases hm.symm.trans hm'
  · obtain rfl := Handling.call.inj (hm.symm.trans hm')
    -- an append answers with an offset or with an error
    have hcases : (∃ o, a = .append (.ok o)) ∨ ∃ e, a = .append (.error e) := by
      cases hs with
      | appended => exact .inl ⟨_, rfl⟩
      | unsynced | refused | unwritten => exact .inr ⟨_, rfl⟩
    rcases hcases with ⟨o, rfl⟩ | ⟨e, rfl⟩
    · obtain rfl := Option.some.inj hresp
      rw [Unary.result, roundTrip_ok, offsetOf_beBytes]
      exact .produced k data l l' o hdata hs
    · obtain rfl := Option.some.inj hresp
      rw [Unary.result, roundTrip_errorResponse]
      exact .unproduced k data l l' e hdata hs
  · obtain rfl := Handling.call.inj (hm.symm.trans hm')
    -- a read leaves the log as it is
    cases hs
    cases hread : l.readAt offset with
    | ok data =>
      rw [hread] at hresp
      obtain rfl := Option.some.inj hresp
      rw [Unary.result, roundTrip_ok]
      exact .read k offset l data hread
    | error e =>
      rw [hread] at hresp
      obtain rfl := Option.some.inj hresp
      rw [Unary.result, roundTrip_errorResponse]
      exact .unread k offset l e hread
  · obtain rfl := Handling.call.inj (hm.symm.trans hm')
    cases hs
    obtain rfl := Option.some.inj hresp
    rw [Unary.result, roundTrip_ok, offsetOf_beBytes]
    exact .nextOffset k l
  · obtain rfl := Handling.call.inj (hm.symm.trans hm')
    cases hs
    obtain rfl := Option.some.inj hresp
    rw [Unary.result, roundTrip_ok, offsetOf_beBytes]
    exact .earliestOffset k l

/-- What a handler settles itself leaves the log alone. -/
theorem settles_response (hvalid : (Call.unary u).Valid)
    (hm : handleRequest u.request = .respond resp) :
    ServesRemote texts l (.client k u) l (.client (u.result (.ok resp))) ∧
      resp.payload.length ≤ MaxPayloadSize := by
  rcases handleRequest_valid hvalid with ⟨rfl, hm'⟩ | ⟨_, -, -, hm'⟩ | ⟨_, -, hm'⟩ | ⟨-, hm'⟩ |
    ⟨-, hm'⟩
  · obtain rfl := Handling.respond.inj (hm.symm.trans hm')
    refine ⟨?_, by decide +kernel⟩
    rw [Unary.result, roundTrip_errorResponse]
    exact .empty k l
  all_goals cases hm.symm.trans hm'

/-- Every record that can be read fits a frame. -/
def Fitting (l : GrowingLog Bytes) : Prop :=
  ∀ offset data, l.readAt offset = .ok data → data.length ≤ MaxPayloadSize

/-- The response to an answer fits a frame. -/
theorem response_fits (htexts : texts.Fit) (hfit : Fitting l)
    (hs : Segments.Serves l m l' a) (hresp : responseTo texts a = some resp) :
    resp.payload.length ≤ MaxPayloadSize := by
  refine responseTo_fits htexts (fun hclosed => ?_) (fun data hdata => ?_) hresp
  · rw [hclosed] at hs
    cases hs
  · cases hs with
    | read offset => exact hfit offset data (ReadResult.answered.inj (Answer.readAt.inj hdata))
    | appended | unsynced | refused | unwritten | nextOffset | earliestOffset | retained =>
      cases hdata

/-- What a handler calls is answered with a response. -/
theorem exists_response (hvalid : (Call.unary u).Valid) (hm : handleRequest u.request = .call m)
    (hs : Segments.Serves l m l' a) : ∃ resp, responseTo texts a = some resp := by
  cases hs with
  | read offset => cases l.readAt offset <;> exact ⟨_, rfl⟩
  | retained =>
    rcases handleRequest_valid hvalid with ⟨-, hm'⟩ | ⟨_, -, -, hm'⟩ | ⟨_, -, hm'⟩ | ⟨-, hm'⟩ |
      ⟨-, hm'⟩ <;> cases hm.symm.trans hm'
  | appended | unsynced | refused | unwritten | nextOffset | earliestOffset => exact ⟨_, rfl⟩

/-- The method does what the call of the client asks for. -/
theorem covers_method (hvalid : (Call.unary u).Valid) (hm : handleRequest u.request = .call m) :
    Covers Segments.Serves (ServesRemote texts) m (.client k u) := by
  intro before after r hs
  obtain ⟨resp, hresp⟩ := exists_response hvalid hm hs
  exact ⟨_, serves_response hvalid hm hs hresp⟩

/-- A call of the process is a call of the manager. -/
theorem covers_process : Covers Segments.Serves (ServesRemote texts) m (.process m) := by
  intro before after r hs
  exact ⟨_, .process m before after r hs⟩

/-! ## The log grows -/

theorem readAt_eq_ok {offset : Nat} {data : Bytes} (h : l.readAt offset = .ok data) :
    l.payloads[offset]? = some data := by
  unfold GrowingLog.readAt at h
  split_ifs at h
  split at h
  · rename_i hget
    rw [hget, Except.ok.inj h]
  · cases h

theorem getElem?_of_le {offset : Nat} {data : Bytes} (hle : l ≤ l')
    (h : l.payloads[offset]? = some data) : l'.payloads[offset]? = some data := by
  obtain ⟨more, hmore⟩ := hle.1
  rw [← hmore, List.getElem?_append_left (List.getElem?_eq_some_iff.mp h).1, h]

theorem quiet_readAt (offset : Nat) : Quiet Segments.Serves (.readAt offset) := by
  intro before after r hs
  cases hs
  rfl

/-- What is read after an append is the new record, or could be read before. -/
theorem Fitting.append (hfit : Fitting l) {data : Bytes} (hdata : data.length ≤ MaxRecordSize) :
    Fitting (l.append data) := by
  intro offset d hread
  unfold GrowingLog.readAt GrowingLog.append at hread
  split_ifs at hread with hearliest
  -- the payload is an old one or the new last one
  by_cases hlt : offset < l.payloads.length
  · refine hfit offset d ?_
    rw [List.getElem?_append_left hlt] at hread
    rw [GrowingLog.readAt, if_neg hearliest]
    exact hread
  · split at hread
    · rename_i d' hget
      obtain rfl := Except.ok.inj hread
      rw [List.getElem?_append_right (by omega)] at hget
      rw [List.mem_singleton.mp (List.mem_of_getElem? hget)]
      exact hdata
    · cases hread

theorem serves_grows (hfit : Fitting l) (hs : Segments.Serves l m l' a) :
    Fitting l' ∧ l ≤ l' := by
  cases hs with
  | appended data hdata => exact ⟨hfit.append hdata, l.le_append data⟩
  | unsynced data hdata => exact ⟨hfit.append hdata, l.le_append data⟩
  | refused | unwritten | read | nextOffset | earliestOffset => exact ⟨hfit, le_refl l⟩
  -- what can still be read could be read before
  | retained earliest h hle =>
    refine ⟨fun offset data hread => hfit offset data ?_, GrowingLog.le_retain hle⟩
    unfold GrowingLog.readAt GrowingLog.retain at hread
    split_ifs at hread with hearliest
    replace hearliest : ¬offset < earliest := hearliest
    rw [GrowingLog.readAt, if_neg (by omega)]
    exact hread

/-! ## Where a call can be -/

abbrev RemoteStage := Stage Method RemoteOp RemoteReply

/-- The frames carry the records of the log from `offset` on. -/
def Records (l : GrowingLog Bytes) : Nat → List Response → Prop
  | _, [] => True
  | offset, frame :: frames =>
    (∃ data, frame = ⟨StatusOK, data⟩ ∧ data.length ≤ MaxPayloadSize ∧
      l.payloads[offset]? = some data) ∧ Records l (offset + 1) frames

theorem Records.mono {offset : Nat} {frames : List Response} (h : Records l offset frames)
    (hle : l ≤ l') : Records l' offset frames := by
  induction frames generalizing offset with
  | nil => trivial
  | cons frame frames ih =>
    obtain ⟨⟨data, hframe, hfits, hget⟩, hrest⟩ := h
    exact ⟨⟨data, hframe, hfits, getElem?_of_le hle hget⟩, ih hrest⟩

theorem Records.concat {offset : Nat} {frames : List Response} (h : Records l offset frames)
    {data : Bytes} (hfits : data.length ≤ MaxPayloadSize)
    (hget : l.payloads[offset + frames.length]? = some data) :
    Records l offset (frames ++ [⟨StatusOK, data⟩]) := by
  induction frames generalizing offset with
  | nil => exact ⟨⟨data, rfl, hfits, hget⟩, trivial⟩
  | cons frame frames ih =>
    refine ⟨h.1, ih h.2 ?_⟩
    rwa [List.length_cons, ← Nat.add_assoc, Nat.add_right_comm] at hget

/-- Where the call of connection `k` can be: the client, the bytes to the server, the handler
    and the bytes to the client. -/
inductive Progress (l : GrowingLog Bytes) (stages : List RemoteStage)
    (owners : List (Owner Method)) (k : Nat) : ClientPc → Bytes → HandlerPc → Bytes → Prop where
  | idle : Progress l stages owners k .idle [] .waiting []
  | requested (r u) : (Call.unary u).Valid → stages[r]? = some (.sent (.client k u)) →
      Progress l stages owners k (.awaiting r u) (writeRequest u.request) .waiting []
  | called (r u m c) : (Call.unary u).Valid → handleRequest u.request = .call m →
      stages[r]? = some (.relayed (.client k u) m c) →
      Progress l stages owners k (.awaiting r u) [] (.calling c) []
  | answered (r u resp) : resp.payload.length ≤ MaxPayloadSize →
      stages[r]? = some (.replied (.client k u) (.client (u.result (.ok resp)))) →
      Progress l stages owners k (.awaiting r u) [] .waiting (writeResponse resp)
  | asked (r startOffset) : (Call.streamRead startOffset).Valid →
      Progress l stages owners k (.streaming r startOffset)
        (writeRequest (Call.streamRead startOffset).request) .waiting []
  | streaming (r next frames) : Records l next frames →
      Progress l stages owners k (.streaming r next) [] (.streaming (next + frames.length))
        (frames.flatMap writeResponse)
  | reading (r next frames c) : Records l next frames →
      owners[c]? = some (.itself (.readAt (next + frames.length))) →
      Progress l stages owners k (.streaming r next) [] (.reading (next + frames.length) c)
        (frames.flatMap writeResponse)
  | streamed (r next frames last) : Records l next frames → last.status ≠ StatusOK →
      last.payload.length ≤ MaxPayloadSize →
      Progress l stages owners k (.streaming r next) [] .waiting
        ((frames ++ [last]).flatMap writeResponse)

section Inversion

variable {stages : List RemoteStage} {owners : List (Owner Method)} {client : ClientPc}
  {handler : HandlerPc} {bs bs' : Bytes}

/-- While a handler of `dispatch` waits for the manager, nothing is under way. -/
theorem Progress.of_calling {c : Nat}
    (h : Progress l stages owners k client bs (.calling c) bs') :
    bs = [] ∧ bs' = [] ∧ ∃ r u m, client = .awaiting r u ∧ (Call.unary u).Valid ∧
      handleRequest u.request = .call m ∧ stages[r]? = some (.relayed (.client k u) m c) := by
  cases h with
  | called r u m c hvalid hm hst => exact ⟨rfl, rfl, r, u, m, rfl, hvalid, hm, hst⟩

/-- While a stream goes on, records are under way, up to where the handler is. -/
theorem Progress.of_serving {offset : Nat}
    (h : Progress l stages owners k client bs (.streaming offset) bs') :
    ∃ r next frames, client = .streaming r next ∧ bs = [] ∧ offset = next + frames.length ∧
      Records l next frames ∧ bs' = frames.flatMap writeResponse := by
  cases h with
  | streaming r next frames hrecords => exact ⟨r, next, frames, rfl, rfl, rfl, hrecords, rfl⟩

theorem Progress.of_reading {offset c : Nat}
    (h : Progress l stages owners k client bs (.reading offset c) bs') :
    owners[c]? = some (.itself (.readAt offset)) ∧
      ∃ r next frames, client = .streaming r next ∧ bs = [] ∧ offset = next + frames.length ∧
        Records l next frames ∧ bs' = frames.flatMap writeResponse := by
  cases h with
  | reading r next frames c hrecords hc => exact ⟨hc, r, next, frames, rfl, rfl, rfl, hrecords, rfl⟩

/-- What a call that is one round trip can read is its response. -/
theorem Progress.of_awaiting {r : Nat}
    (h : Progress l stages owners k (.awaiting r u) bs handler bs') (hne : bs' ≠ []) :
    bs = [] ∧ handler = .waiting ∧ ∃ resp, resp.payload.length ≤ MaxPayloadSize ∧
      stages[r]? = some (.replied (.client k u) (.client (u.result (.ok resp)))) ∧
      bs' = writeResponse resp ++ [] := by
  cases h with
  | requested | called => exact absurd rfl hne
  | answered _ _ resp hfits hst =>
    exact ⟨rfl, rfl, resp, hfits, hst, (List.append_nil _).symm⟩

/-- What a stream can read first is a record, or the frame that ends it. -/
theorem Progress.of_streaming {r next : Nat}
    (h : Progress l stages owners k (.streaming r next) bs handler bs') (hne : bs' ≠ []) :
    (∃ data more, data.length ≤ MaxPayloadSize ∧ l.payloads[next]? = some data ∧
        bs' = writeResponse ⟨StatusOK, data⟩ ++ more ∧
        Progress l stages owners k (.streaming r (next + 1)) bs handler more) ∨
      ∃ last, last.status ≠ StatusOK ∧ last.payload.length ≤ MaxPayloadSize ∧
        bs' = writeResponse last ++ [] ∧ bs = [] ∧ handler = .waiting := by
  have hcount : ∀ frames : List Response, next + (frames.length + 1) = next + 1 + frames.length :=
    fun frames => by omega
  cases h with
  | asked => exact absurd rfl hne
  -- frames are under way while the handler is between two reads
  | streaming _ _ frames hrecords =>
    cases frames with
    | nil => exact absurd rfl hne
    | cons frame frames =>
      obtain ⟨⟨data, rfl, hfits, hget⟩, hrest⟩ := hrecords
      refine .inl ⟨data, _, hfits, hget, List.flatMap_cons, ?_⟩
      rw [List.length_cons, hcount]
      exact .streaming r (next + 1) frames hrest
  -- or in a read
  | reading _ _ frames c hrecords hc =>
    cases frames with
    | nil => exact absurd rfl hne
    | cons frame frames =>
      obtain ⟨⟨data, rfl, hfits, hget⟩, hrest⟩ := hrecords
      refine .inl ⟨data, _, hfits, hget, List.flatMap_cons, ?_⟩
      rw [List.length_cons, hcount] at hc ⊢
      exact .reading r (next + 1) frames c hrest hc
  -- or done: the last frame ends the call
  | streamed _ _ frames last hrecords hlast hfits =>
    cases frames with
    | nil => exact .inr ⟨last, hlast, hfits, rfl, rfl, rfl⟩
    | cons frame frames =>
      obtain ⟨⟨data, rfl, hfits', hget⟩, hrest⟩ := hrecords
      exact .inl ⟨data, _, hfits', hget, List.flatMap_cons,
        .streamed r (next + 1) frames last hrest hlast hfits⟩

/-- What a waiting handler can read is the request of the call under way. -/
theorem Progress.of_waiting (h : Progress l stages owners k client bs .waiting bs')
    (hne : bs ≠ []) :
    bs' = [] ∧
      ((∃ r u, client = .awaiting r u ∧ (Call.unary u).Valid ∧ bs = writeRequest u.request ∧
          stages[r]? = some (.sent (.client k u))) ∨
        ∃ r startOffset, client = .streaming r startOffset ∧
          (Call.streamRead startOffset).Valid ∧
          bs = writeRequest (Call.streamRead startOffset).request) := by
  cases h with
  | idle | answered | streamed => exact absurd rfl hne
  | requested r u hvalid hst => exact ⟨rfl, .inl ⟨r, u, rfl, hvalid, rfl, hst⟩⟩
  | asked r startOffset hvalid => exact ⟨rfl, .inr ⟨r, startOffset, rfl, hvalid, rfl⟩⟩

theorem Progress.of_idle (h : Progress l stages owners k .idle bs handler bs') :
    bs = [] ∧ handler = .waiting ∧ bs' = [] := by
  cases h
  exact ⟨rfl, rfl, rfl⟩

end Inversion

/-- Connection `k` is where its call can be.  On a broken one the client may have given up,
    and the handler may be gone. -/
inductive RemoteConn.At (l : GrowingLog Bytes) (stages : List RemoteStage)
    (owners : List (Owner Method)) (k : Nat) (x : RemoteConn) : Prop where
  | on (client handler) : Progress l stages owners k client x.toServer handler x.toClient →
      (x.client = client ∨ x.broken = true ∧ x.client = .idle) →
      (x.handler = handler ∨ x.broken = true ∧ x.handler = .closed) → x.At l stages owners k
  /-- The handler could not write its response. -/
  | lost : x.broken = true → x.handler = .closed → x.toClient = [] → x.At l stages owners k

/-- What has to stay of the calls of connection `k`. -/
structure Keeps (k : Nat) (l l' : GrowingLog Bytes) (stages stages' : List RemoteStage)
    (owners owners' : List (Owner Method)) : Prop where
  log : l ≤ l'
  stages : ∀ (r : Nat) (st : RemoteStage) (u : Unary), stages[r]? = some st →
    st.op? = some (.client k u) → stages'[r]? = some st
  owners : ∀ (c : Nat) (m : Method), owners[c]? = some (.itself m) →
    owners'[c]? = some (.itself m)

section Keeps

variable {stages stages' : List RemoteStage} {owners owners' : List (Owner Method)}

theorem Progress.keeps {client : ClientPc} {handler : HandlerPc} {bs bs' : Bytes}
    (h : Progress l stages owners k client bs handler bs')
    (hkeeps : Keeps k l l' stages stages' owners owners') :
    Progress l' stages' owners' k client bs handler bs' := by
  cases h with
  | idle => exact .idle
  | requested r u hvalid hst => exact .requested r u hvalid (hkeeps.stages r _ u hst rfl)
  | called r u m c hvalid hm hst => exact .called r u m c hvalid hm (hkeeps.stages r _ u hst rfl)
  | answered r u resp hfits hst => exact .answered r u resp hfits (hkeeps.stages r _ u hst rfl)
  | asked r startOffset hvalid => exact .asked r startOffset hvalid
  -- the records under way stay those of the log, which only grows
  | streaming r next frames hrecords =>
    exact .streaming r next frames (hrecords.mono hkeeps.log)
  | reading r next frames c hrecords hc =>
    exact .reading r next frames c (hrecords.mono hkeeps.log) (hkeeps.owners c _ hc)
  | streamed r next frames last hrecords hlast hfits =>
    exact .streamed r next frames last (hrecords.mono hkeeps.log) hlast hfits

theorem RemoteConn.At.keeps {x : RemoteConn} (h : x.At l stages owners k)
    (hkeeps : Keeps k l l' stages stages' owners owners') : x.At l' stages' owners' k := by
  cases h with
  | on client handler hprogress hclient hhandler =>
    exact .on client handler (hprogress.keeps hkeeps) hclient hhandler
  | lost hbroken hhandler hbytes => exact .lost hbroken hhandler hbytes

/-- The stage of a call that is not one of connection `k` may change. -/
theorem Keeps.set (hle : l ≤ l') {r : Nat} {st st' : RemoteStage} (hr : stages[r]? = some st)
    (hst : ∀ u, st.op? ≠ some (.client k u)) :
    Keeps k l l' stages (stages.set r st') owners owners := by
  refine ⟨hle, fun r' st₁ u hr' hop => ?_, fun c m hc => hc⟩
  rw [List.getElem?_set_ne fun heq => ?_]
  · exact hr'
  · rw [← heq, hr] at hr'
    exact hst u (Option.some.inj hr' ▸ hop)

theorem Keeps.appendStage (hle : l ≤ l') (st : RemoteStage) :
    Keeps k l l' stages (stages ++ [st]) owners owners := by
  refine ⟨hle, fun r st₁ u hr hop => ?_, fun c m hc => hc⟩
  exact getElem?_append_of_some hr

theorem Keeps.appendOwner (h : Keeps k l l' stages stages' owners owners') (o : Owner Method) :
    Keeps k l l' stages stages' owners (owners' ++ [o]) := by
  refine ⟨h.log, h.stages, fun c m hc => ?_⟩
  exact getElem?_append_of_some (h.owners c m hc)

theorem Keeps.ofLe (hle : l ≤ l') : Keeps k l l' stages stages owners owners :=
  ⟨hle, fun _ _ _ hr _ => hr, fun _ _ hc => hc⟩

end Keeps

/-! ## The simulation -/

/-- The atomic objects of the manager and of the clients in the state of the system. -/
structure Tracked (cs : Checksum) (texts : ErrorTexts) (s : Remote)
    (t : AtomicState (GrowingLog Bytes) Method) (a : AtomicState (GrowingLog Bytes) RemoteOp)
    (stages : List RemoteStage) (owners : List (Owner Method)) : Prop where
  service : Tracks cs s.service t
  grows : t.Grows Fitting
  relays : Relays Segments.Serves (ServesRemote texts) t a stages owners
  callers : owners.length = s.service.callers.length
  calls : stages.length = s.calls.length
  process : ∀ r c : Nat, s.calls[r]? = some (some c) →
    ∃ m, stages[r]? = some (.relayed (.process m) m c)
  conns : ∀ (k : Nat) (x : RemoteConn), s.conns[k]? = some x → x.At t.state stages owners k
  streamed : ∀ r offset data, (r, offset, data) ∈ s.streamed →
    t.state.payloads[offset]? = some data

/-- A step of the system is one of the object the clients see. -/
def Follows (cs : Checksum) (texts : ErrorTexts) (s s' : Remote)
    (a : AtomicState (GrowingLog Bytes) RemoteOp) : Prop :=
  ∃ es t' a' stages' owners', AtomicStep (ServesRemote texts) a es a' ∧
    s'.history = s.history ++ es ∧ Tracked cs texts s' t' a' stages' owners'

section Step

variable {s s' : Remote} {t t' : AtomicState (GrowingLog Bytes) Method}
  {a a' : AtomicState (GrowingLog Bytes) RemoteOp} {stages stages' : List RemoteStage}
  {owners owners' : List (Owner Method)} {x x' : RemoteConn}

theorem grows_step {es : List (CallEvent Method Answer)} (h : t.Grows Fitting)
    (hstep : AtomicStep Segments.Serves t es t') : t'.Grows Fitting :=
  h.step (fun _ _ _ _ => serves_grows) hstep

/-- Connection `k` moves on, and the others stay where they are. -/
theorem Tracked.conns_set (h : Tracked cs texts s t a stages owners)
    (hx : s.conns[k]? = some x) (hx' : x'.At t'.state stages' owners' k)
    (hkeeps : ∀ k', k' ≠ k → Keeps k' t.state t'.state stages stages' owners owners') :
    ∀ (k' : Nat) (y : RemoteConn), (s.conns.set k x')[k']? = some y →
      y.At t'.state stages' owners' k' := by
  intro k' y hy
  -- the connection that moved, or one that does not notice
  by_cases hk : k' = k
  · subst hk
    rw [List.getElem?_set_self (List.getElem?_eq_some_iff.mp hx).1] at hy
    exact Option.some.inj hy ▸ hx'
  · rw [List.getElem?_set_ne (Ne.symm hk)] at hy
    exact (h.conns k' y hy).keeps (hkeeps k' hk)

/-- A connection moves on, and nothing else happens. -/
theorem Tracked.setConn (h : Tracked cs texts s t a stages owners)
    (hx : s.conns[k]? = some x) (hx' : x'.At t.state stages owners k) :
    Follows cs texts s (s.setConn k x') a :=
  ⟨[], t, a, stages, owners, .idle, (List.append_nil _).symm, h.service, h.grows, h.relays,
    h.callers, h.calls, h.process, h.conns_set hx hx' fun _ _ => .ofLe (le_refl _), h.streamed⟩

/-- The stage of a call of a client changes; the calls of the process stay. -/
theorem Tracked.process_set (h : Tracked cs texts s t a stages owners) {r : Nat}
    {st st' : RemoteStage} {u : Unary} (hr : stages[r]? = some st)
    (hop : st.op? = some (.client k u)) :
    ∀ r' c : Nat, s.calls[r']? = some (some c) →
      ∃ m, (stages.set r st')[r']? = some (.relayed (.process m) m c) := by
  intro r' c hr'
  obtain ⟨m, hm⟩ := h.process r' c hr'
  refine ⟨m, ?_⟩
  rw [List.getElem?_set_ne fun heq => ?_]
  · exact hm
  · -- the call of a client is not one of the process
    rw [← heq, hr] at hm
    obtain rfl := Option.some.inj hm
    cases hop

theorem op?_ne {st : RemoteStage} {u : Unary} (hop : st.op? = some (.client k u)) {k' : Nat}
    (hk : k' ≠ k) : ∀ u', st.op? ≠ some (.client k' u') := by
  intro u' heq
  have hinj := Option.some.inj (hop.symm.trans heq)
  exact hk (RemoteOp.client.inj hinj).1.symm

/-- The stage of the call of connection `k` changes, and the manager may move on. -/
theorem Tracked.restage (h : Tracked cs texts s t a stages owners) (hx : s.conns[k]? = some x)
    {r : Nat} {st st' : RemoteStage} {u : Unary} (hr : stages[r]? = some st)
    (hop : st.op? = some (.client k u)) {es : List (CallEvent RemoteOp RemoteReply)}
    (hatom : AtomicStep (ServesRemote texts) a es a') (hhistory : s'.history = s.history ++ es)
    (hconns : s'.conns = s.conns.set k x') (hcalls : s'.calls = s.calls)
    (hstreamed : s'.streamed = s.streamed) (hservice : Tracks cs s'.service t')
    (hgrows : t'.Grows Fitting) (hle : t.state ≤ t'.state)
    (hrelays : Relays Segments.Serves (ServesRemote texts) t' a' (stages.set r st') owners')
    (howners : owners'.length = s'.service.callers.length)
    (hkeep : owners' = owners ∨ ∃ o, owners' = owners ++ [o])
    (hx' : x'.At t'.state (stages.set r st') owners' k) : Follows cs texts s s' a := by
  refine ⟨es, t', a', _, owners', hatom, hhistory, hservice, hgrows, hrelays, howners, ?_, ?_, ?_,
    ?_⟩
  · rw [List.length_set, hcalls]
    exact h.calls
  · rw [hcalls]
    exact h.process_set hr hop
  · -- the stage names the connection it belongs to, so no other connection depends on it
    rw [hconns]
    refine h.conns_set hx hx' fun k' hk => ?_
    have hset : Keeps k' t.state t'.state stages (stages.set r st') owners owners :=
      .set hle hr (op?_ne hop hk)
    rcases hkeep with rfl | ⟨o, rfl⟩
    · exact hset
    · exact hset.appendOwner o
  · rw [hstreamed]
    exact fun r' offset data hmem => getElem?_of_le hle (h.streamed r' offset data hmem)

/-! ### Handlers -/

/-- A handler that has not returned is where the call is. -/
theorem RemoteConn.At.of_handler (h : x.At l stages owners k) (hopen : x.handler ≠ .closed) :
    ∃ client, Progress l stages owners k client x.toServer x.handler x.toClient ∧
      (x.client = client ∨ x.broken = true ∧ x.client = .idle) := by
  cases h with
  | on client handler hprogress hclient hhandler =>
    rcases hhandler with rfl | ⟨-, hclosed⟩
    · exact ⟨client, hprogress, hclient⟩
    · exact absurd hclosed hopen
  | lost _ hclosed _ => exact absurd hclosed hopen

/-- A response is written, or the connection is broken and the handler returns. -/
theorem RemoteConn.At.write {client : ClientPc} {next : HandlerPc} (handler : HandlerPc)
    (hclient : x.client = client ∨ x.broken = true ∧ x.client = .idle)
    (hnext : Progress l stages owners k client x.toServer next (x.toClient ++ writeResponse resp))
    (hlost : x.toClient = [] ∨ Progress l stages owners k client x.toServer handler x.toClient) :
    (x.write resp next).At l stages owners k := by
  unfold RemoteConn.write
  split_ifs with hbroken
  · rcases hlost with hnil | hprogress
    · exact .lost hbroken rfl hnil
    · exact .on client handler hprogress hclient (.inr ⟨hbroken, rfl⟩)
  · exact .on client next hnext hclient (.inl rfl)

/-- A request is read whole, or its length is refused. -/
theorem readRequest_of_fits {c : Call} (hfits : c.Fits) {r : Except FrameError Request}
    {rest : Bytes} (hread : readRequest (writeRequest c.request) = (r, rest)) :
    r = .ok c.request ∧ rest = [] ∨ ∃ n, r = .error (.tooLarge n) := by
  rcases hfits with hfits | hrefused
  · have hok := readRequest_writeRequest [] hfits
    rw [List.append_nil, hread] at hok
    exact .inl (Prod.mk.inj hok)
  · obtain ⟨n, rest', herror⟩ := readRequest_refused [] hrefused
    rw [List.append_nil, hread] at herror
    exact .inr ⟨n, (Prod.mk.inj herror).1⟩

/-- What a waiting handler meets: nothing yet, or the request of the call under way. -/
theorem RemoteConn.At.of_request (h : x.At l stages owners k) (hwaiting : x.handler = .waiting)
    {req : Request} {rest : Bytes} (hread : readRequest x.toServer = (.ok req, rest)) :
    rest = [] ∧ x.toClient = [] ∧
      ((∃ r u, (Call.unary u).Valid ∧ req = u.request ∧
          stages[r]? = some (.sent (.client k u)) ∧
          (x.client = .awaiting r u ∨ x.broken = true ∧ x.client = .idle)) ∨
        ∃ r startOffset, (Call.streamRead startOffset).Valid ∧
          req = (Call.streamRead startOffset).request ∧
          (x.client = .streaming r startOffset ∨ x.broken = true ∧ x.client = .idle)) := by
  obtain ⟨client, hprogress, hclient⟩ := h.of_handler (by simp [hwaiting])
  rw [hwaiting] at hprogress
  have hnil : x.toServer ≠ [] := fun hnil => by
    rw [hnil] at hread
    cases hread
  -- the request arrives as it was written
  have hrequest : ∀ {c : Call}, c.Valid → x.toServer = writeRequest c.request →
      req = c.request ∧ rest = [] := fun {c} hvalid hbytes => by
    rw [hbytes] at hread
    rcases readRequest_of_fits hvalid.fits hread with ⟨hok, hrest⟩ | ⟨n, herror⟩
    · exact ⟨Except.ok.inj hok, hrest⟩
    · cases herror
  obtain ⟨hclientNil, ⟨r, u, rfl, hvalid, hbytes, hst⟩ | ⟨r, startOffset, rfl, hvalid, hbytes⟩⟩ :=
    hprogress.of_waiting hnil
  · obtain ⟨hreq, hrest⟩ := hrequest hvalid hbytes
    exact ⟨hrest, hclientNil, .inl ⟨r, u, hvalid, hreq, hst, hclient⟩⟩
  · obtain ⟨hreq, hrest⟩ := hrequest hvalid hbytes
    exact ⟨hrest, hclientNil, .inr ⟨r, startOffset, hvalid, hreq, hclient⟩⟩

theorem Tracked.handle (h : Tracked cs texts s t a stages owners)
    (ht : RemoteTransition cs texts s (.handle k) s') : Follows cs texts s s' a := by
  cases ht with
  -- the handler is gone and the connection with it; the client finds out later
  | refused _ x n rest hx hwaiting hread =>
    refine h.setConn hx ?_
    obtain ⟨client, hprogress, hclient⟩ := (h.conns k x hx).of_handler (by simp [hwaiting])
    refine .on client x.handler hprogress (hclient.imp_right fun hidle => ⟨rfl, hidle.2⟩)
      (.inr ⟨rfl, rfl⟩)
  | answered _ x req rest resp hx hwaiting hread hm =>
    obtain ⟨rfl, hnil, ⟨r, u, hvalid, rfl, hst, hclient⟩ | ⟨r, o, -, rfl, -⟩⟩ :=
      (h.conns k x hx).of_request hwaiting hread
    · -- the handler answers by itself, which counts as the moment the call takes effect
      obtain ⟨hlegal, hfits⟩ := settles_response hvalid hm
      obtain ⟨a', hatom, hrelays⟩ := h.relays.settle hst hlegal
      refine h.restage hx hst rfl hatom (List.append_nil _).symm rfl rfl rfl h.service h.grows
        (le_refl _) hrelays h.callers (.inl rfl) ?_
      have hlt := (List.getElem?_eq_some_iff.mp hst).1
      refine .write .waiting hclient ?_ (.inl hnil)
      simp only [hnil, List.nil_append]
      exact .answered r u resp hfits (List.getElem?_set_self hlt)
    · rw [handleRequest_streamRead] at hm
      cases hm
  | methodCalled _ x req rest m S hx hwaiting hread hm hS =>
    obtain ⟨rfl, hnil, ⟨r, u, hvalid, rfl, hst, hclient⟩ | ⟨r, o, -, rfl, -⟩⟩ :=
      (h.conns k x hx).of_request hwaiting hread
    · -- the call of the manager is made for the client's call
      obtain ⟨hservice, hfresh, hlength⟩ := h.service.invoke hS
      rw [← h.callers] at hservice hfresh hlength
      have hrelays := h.relays.relay hst (covers_method hvalid hm)
      have hlt := (List.getElem?_eq_some_iff.mp hst).1
      refine h.restage hx hst rfl .idle (List.append_nil _).symm rfl rfl rfl hservice
        (grows_step h.grows (.invoke m hfresh)) (le_refl _) hrelays
        ((List.length_append ..).trans hlength.symm) (.inr ⟨_, rfl⟩) ?_
      refine .on (.awaiting r u) _ ?_ hclient (.inl rfl)
      simp only [hnil, ← h.callers]
      exact .called r u m owners.length hvalid hm (List.getElem?_set_self hlt)
    · rw [handleRequest_streamRead] at hm
      cases hm
  | streamStarted _ x req rest offset hx hwaiting hread hm =>
    obtain ⟨rfl, hnil, ⟨r, u, hvalid, rfl, -⟩ | ⟨r, o, hvalid, rfl, hclient⟩⟩ :=
      (h.conns k x hx).of_request hwaiting hread
    · -- a round trip does not start a stream
      rcases handleRequest_valid hvalid with ⟨-, hm'⟩ | ⟨_, -, -, hm'⟩ | ⟨_, -, hm'⟩ | ⟨-, hm'⟩ |
        ⟨-, hm'⟩ <;> cases hm.symm.trans hm'
    · rw [handleRequest_streamRead, beNat_beBytes_offset hvalid] at hm
      obtain rfl := Handling.stream.inj hm
      refine h.setConn hx (.on (.streaming r o) (.streaming o) ?_ hclient (.inl rfl))
      simp only [hnil]
      exact .streaming r o [] trivial

/-- `handleStreamRead` reads the next record. -/
theorem Tracked.readNext (h : Tracked cs texts s t a stages owners)
    (ht : RemoteTransition cs texts s (.readNext k) s') : Follows cs texts s s' a := by
  cases ht with
  | readCalled _ x offset S hx hpc hS =>
    obtain ⟨hservice, hfresh, hlength⟩ := h.service.invoke hS
    rw [← h.callers] at hservice hfresh hlength
    -- the read of a stream is nobody's call: it only looks
    have hrelays := h.relays.look (quiet_readAt offset)
    have hkeeps : ∀ k', Keeps k' t.state t.state stages stages owners
        (owners ++ [.itself (.readAt offset)]) :=
      fun k' => (Keeps.ofLe (le_refl _)).appendOwner _
    refine ⟨[], _, a, stages, _, .idle, (List.append_nil _).symm, hservice,
      grows_step h.grows (.invoke _ hfresh), hrelays, (List.length_append ..).trans hlength.symm,
      h.calls, h.process, h.conns_set hx ?_ fun k' _ => hkeeps k', h.streamed⟩
    obtain ⟨client, hprogress, hclient⟩ := (h.conns k x hx).of_handler (by simp [hpc])
    rw [hpc] at hprogress
    obtain ⟨r, next, frames, rfl, hserver, rfl, hrecords, hbytes⟩ := hprogress.of_serving
    refine .on (.streaming r next) _ ?_ hclient (.inl rfl)
    rw [hserver, hbytes, ← h.callers]
    exact .reading r next frames owners.length hrecords List.getElem?_concat_length

/-- A frame of a stream: a record of the log, which may have grown since, or the end. -/
theorem frameTo_cases {now : GrowingLog Bytes} (htexts : texts.Fit) (offset : Nat)
    (hfit : Fitting l) (hle : l ≤ now) {r : ReadResult}
    (hs : Segments.Serves l (.readAt offset) l' (.readAt r)) :
    (∃ data, data.length ≤ MaxPayloadSize ∧ now.payloads[offset]? = some data ∧
        frameTo texts offset r = (⟨StatusOK, data⟩, some (offset + 1))) ∨
      ∃ last, last.status ≠ StatusOK ∧ last.payload.length ≤ MaxPayloadSize ∧
        frameTo texts offset r = (last, none) := by
  cases hs
  have hfits := frameOf_fits htexts.2 offset (hfit offset)
  rcases frameOf_cases texts.readAt offset (l.readAt offset) with
    ⟨data, hread, hframe⟩ | ⟨e, last, -, hlast, hframe⟩
  · -- the log at the moment of the read is a part of the log now
    exact .inl ⟨data, hfit offset data hread, getElem?_of_le hle (readAt_eq_ok hread), hframe⟩
  · rw [hframe] at hfits
    exact .inr ⟨last, hlast, hfits, hframe⟩

/-- A round of a stream: one more record is under way, or the last frame. -/
theorem RemoteConn.At.frame {r next : Nat} {frames : List Response}
    {round : Response × Option Nat}
    (hclient : x.client = .streaming r next ∨ x.broken = true ∧ x.client = .idle)
    (hserver : x.toServer = []) (hbytes : x.toClient = frames.flatMap writeResponse)
    (hrecords : Records l next frames)
    (hround : (∃ data, data.length ≤ MaxPayloadSize ∧
        l.payloads[next + frames.length]? = some data ∧
        round = (⟨StatusOK, data⟩, some (next + frames.length + 1))) ∨
      ∃ last, last.status ≠ StatusOK ∧ last.payload.length ≤ MaxPayloadSize ∧
        round = (last, none)) :
    (x.write round.1 (round.2.elim .waiting .streaming)).At l stages owners k := by
  -- if the connection is broken, what was under way stays
  have hold : Progress l stages owners k (.streaming r next) x.toServer
      (.streaming (next + frames.length)) x.toClient := by
    rw [hserver, hbytes]
    exact .streaming r next frames hrecords
  -- a record goes behind the frames under way, or the last frame does
  rcases hround with ⟨data, hfits, hget, rfl⟩ | ⟨last, hlast, hfits, rfl⟩
  · refine .write _ hclient ?_ (.inr hold)
    have hmore : Progress l stages owners k (.streaming r next) [] _ _ :=
      .streaming r next _ (hrecords.concat hfits hget)
    rw [List.length_append, List.flatMap_append, List.length_singleton,
      List.flatMap_singleton] at hmore
    rw [hserver, hbytes]
    exact hmore
  · refine .write _ hclient ?_ (.inr hold)
    rw [hserver, hbytes, ← List.flatMap_singleton writeResponse, ← List.flatMap_append]
    exact .streamed r next frames last hrecords hlast hfits

theorem le_of_respond {c : Nat} {ans : Answer}
    (h : AtomicStep Segments.Serves t [.respond c ans] t') : t.state ≤ t'.state := by
  cases h
  exact le_refl _

/-- A method returns, and its answer is written. -/
theorem Tracked.reply (h : Tracked cs texts s t a stages owners)
    (htexts : texts.Fit) (ht : RemoteTransition cs texts s (.reply k) s') :
    Follows cs texts s s' a := by
  cases ht with
  | replied _ x c ans resp S hx hpc hans hresp hS =>
    obtain ⟨t', hatom, hservice, hlength⟩ := h.service.respond hans hS
    obtain ⟨client, hprogress, hclient⟩ := (h.conns k x hx).of_handler (by simp [hpc])
    rw [hpc] at hprogress
    -- nothing else is on the connection while the manager is called
    obtain ⟨hserver, hnil, r, u, m, rfl, hvalid, hm, hst⟩ := hprogress.of_calling
    have hrelays := h.relays.reply hst hatom fun before after hlegal =>
      serves_response hvalid hm hlegal hresp
    have hlt := (List.getElem?_eq_some_iff.mp hst).1
    have hfits : resp.payload.length ≤ MaxPayloadSize := by
      -- the answer was settled when the call took effect, and the log has only grown since
      cases hatom with
      | respond _ hphase hlegal =>
        exact response_fits htexts (h.grows.before _ _ _ _ hphase).1 hlegal hresp
    refine h.restage hx hst rfl .idle (List.append_nil _).symm rfl rfl rfl hservice
      (grows_step h.grows hatom) (le_of_respond hatom) hrelays (h.callers.trans hlength.symm)
      (.inl rfl) ?_
    refine .write .waiting hclient ?_ (.inl hnil)
    rw [hserver, hnil, List.nil_append]
    exact .answered r u resp hfits (List.getElem?_set_self hlt)
  | framed _ x offset c r S hx hpc hans hS =>
    obtain ⟨t', hatom, hservice, hlength⟩ := h.service.respond hans hS
    obtain ⟨client, hprogress, hclient⟩ := (h.conns k x hx).of_handler (by simp [hpc])
    rw [hpc] at hprogress
    obtain ⟨hc, id, next, frames, rfl, hserver, rfl, hrecords, hbytes⟩ := hprogress.of_reading
    -- the record was read from the log as it was when the read took effect
    obtain ⟨hrelays, before, after, hphase, hlegal⟩ := h.relays.seen hc hatom
    obtain ⟨hfit, hbelow⟩ := h.grows.before _ _ _ _ hphase
    have hle := le_of_respond hatom
    refine ⟨[], t', a, stages, owners, .idle, (List.append_nil _).symm, hservice,
      grows_step h.grows hatom, hrelays, h.callers.trans hlength.symm, h.calls, h.process,
      h.conns_set hx ?_ fun k' _ => .ofLe hle,
      fun id' offset data hmem => getElem?_of_le hle (h.streamed id' offset data hmem)⟩
    exact .frame hclient hserver hbytes (hrecords.mono hle)
      (frameTo_cases htexts _ hfit (le_trans hbelow hle) hlegal)

/-! ### Clients -/

theorem RemoteConn.read_nil (hnil : x.toClient = []) : x.read = none := by
  rw [RemoteConn.read, hnil]
  rfl

/-- A client that gets something to read is where the call is. -/
theorem RemoteConn.At.of_client (h : x.At l stages owners k) (hcall : x.client ≠ .idle)
    {p : Except FrameError Response × Bytes} (hread : x.read = some p) :
    x.toClient ≠ [] ∧
      ∃ handler, Progress l stages owners k x.client x.toServer handler x.toClient ∧
        (x.handler = handler ∨ x.broken = true ∧ x.handler = .closed) := by
  have hne : x.toClient ≠ [] := by
    intro hnil
    rw [RemoteConn.read_nil hnil] at hread
    cases hread
  cases h with
  | on client handler hprogress hclient hhandler =>
    -- a client that is not idle has seen nothing break
    rcases hclient with rfl | ⟨-, hidle⟩
    · exact ⟨hne, handler, hprogress, hhandler⟩
    · exact absurd hidle hcall
  | lost _ _ hnil => exact absurd hnil hne

theorem RemoteConn.read_response {more rest : Bytes} {read : Except FrameError Response}
    (hbytes : x.toClient = writeResponse resp ++ more)
    (hfits : resp.payload.length ≤ MaxPayloadSize) (hread : x.read = some (read, rest)) :
    read = .ok resp ∧ rest = more := by
  rw [RemoteConn.read, hbytes, readResponse_writeResponse more hfits] at hread
  obtain ⟨rfl, rfl⟩ := Prod.mk.inj (Option.some.inj hread)
  exact ⟨rfl, rfl⟩

/-- An idle client on a connection that works. -/
theorem RemoteConn.At.of_idle (h : x.At l stages owners k) (hidle : x.client = .idle)
    (hbroken : x.broken = false) : x.toServer = [] ∧ x.handler = .waiting ∧ x.toClient = [] := by
  cases h with
  | on client handler hprogress hclient hhandler =>
    simp only [hbroken, Bool.false_eq_true, false_and, or_false] at hclient hhandler
    obtain rfl := hidle.symm.trans hclient
    obtain ⟨hserver, rfl, hnil⟩ := hprogress.of_idle
    exact ⟨hserver, hhandler, hnil⟩
  | lost hlost => cases hbroken.symm.trans hlost

/-- One more number is in use. -/
theorem Tracked.process_append (h : Tracked cs texts s t a stages owners) {o : Option Nat}
    {st : RemoteStage} (hnew : ∀ c, o = some c → ∃ m, st = .relayed (.process m) m c) :
    ∀ r c : Nat, (s.calls ++ [o])[r]? = some (some c) →
      ∃ m, (stages ++ [st])[r]? = some (.relayed (.process m) m c) := by
  intro r c hr
  rcases getElem?_concat_cases hr with hr | ⟨rfl, ho⟩
  · obtain ⟨m, hm⟩ := h.process r c hr
    exact ⟨m, getElem?_append_of_some hm⟩
  · obtain ⟨m, rfl⟩ := hnew c ho.symm
    refine ⟨m, ?_⟩
    rw [← h.calls]
    exact List.getElem?_concat_length

/-- A call is made. -/
theorem Tracked.call (h : Tracked cs texts s t a stages owners) {c : Call} (hvalid : c.Valid)
    (ht : RemoteTransition cs texts s (.call k c) s') : Follows cs texts s s' a := by
  cases ht with
  | called _ _ x hx hidle hbroken =>
    obtain ⟨hserver, hhandler, hclient⟩ := (h.conns k x hx).of_idle hidle hbroken
    have hlength : ∀ st : RemoteStage, (stages ++ [st]).length = (s.calls ++ [none]).length :=
      fun st => by simp [h.calls]
    cases c with
    | unary u =>
      -- the call starts here, and its request is all that is under way
      obtain ⟨hatom, hrelays⟩ := h.relays.send (.client k u)
      refine ⟨_, t, _, _, owners, hatom, ?_, h.service, h.grows, hrelays, h.callers, hlength _,
        h.process_append (fun _ hc => by cases hc),
        h.conns_set hx ?_ fun k' _ => .appendStage (le_refl _) _, h.streamed⟩
      · rw [h.calls]
        rfl
      · refine .on (.awaiting stages.length u) .waiting ?_ (.inl ?_) (.inl hhandler)
        · simp only [hserver, hclient, List.nil_append]
          exact .requested _ u hvalid List.getElem?_concat_length
        · rw [h.calls]
          rfl
    | streamRead startOffset =>
      -- streams do not count as calls
      refine ⟨[], t, a, _, owners, .idle, rfl, h.service, h.grows, h.relays.skip, h.callers,
        hlength _, h.process_append (fun _ hc => by cases hc),
        h.conns_set hx ?_ fun k' _ => .appendStage (le_refl _) _, h.streamed⟩
      refine .on (.streaming s.calls.length startOffset) .waiting ?_ (.inl rfl) (.inl hhandler)
      simp only [hserver, hclient, List.nil_append]
      exact .asked _ startOffset hvalid

theorem streamReadRound_last {last : Response} (hlast : last.status ≠ StatusOK) (r next : Nat) :
    (streamReadRound false next (.ok last)).client r = .idle := by
  rcases streamReadRound_cases false next (.ok last) with
    ⟨resp, hresp, hok, -⟩ | ⟨resp, hresp, hok, -⟩ | ⟨-, err, -, hround⟩
  · exact absurd (Except.ok.inj hresp ▸ hok) hlast
  · exact absurd (Except.ok.inj hresp ▸ hok) hlast
  · rw [hround]
    rfl

/-- A response arrives. -/
theorem Tracked.receive (h : Tracked cs texts s t a stages owners)
    (ht : RemoteTransition cs texts s (.receive k false) s') : Follows cs texts s s' a := by
  cases ht with
  | received _ _ x r u read rest hx hread hclient =>
    obtain ⟨hne, handler, hprogress, hhandler⟩ :=
      (h.conns k x hx).of_client (by simp [hclient]) hread
    rw [hclient] at hprogress
    -- the frame that arrives is the answer to this call
    obtain ⟨hserver, rfl, resp, hfits, hst, hbytes⟩ := hprogress.of_awaiting hne
    obtain ⟨rfl, rfl⟩ := RemoteConn.read_response hbytes hfits hread
    obtain ⟨hatom, hrelays⟩ := h.relays.deliver hst
    refine h.restage hx hst rfl hatom rfl rfl rfl rfl h.service h.grows (le_refl _) hrelays
      h.callers (.inl rfl) (.on .idle .waiting ?_ (.inl rfl) hhandler)
    rw [hserver]
    exact .idle
  | streamReceived _ _ x r next read rest hx hread hclient =>
    obtain ⟨hne, handler, hprogress, hhandler⟩ :=
      (h.conns k x hx).of_client (by simp [hclient]) hread
    rw [hclient] at hprogress
    -- the next record, or the end of the stream
    rcases hprogress.of_streaming hne with ⟨data, more, hfits, hget, hbytes, hmore⟩ |
      ⟨last, hlast, hfits, hbytes, hserver, rfl⟩
    · obtain ⟨rfl, rfl⟩ := RemoteConn.read_response hbytes hfits hread
      refine ⟨[], t, a, stages, owners, .idle, (List.append_nil _).symm, h.service, h.grows,
        h.relays, h.callers, h.calls, h.process, h.conns_set hx ?_ fun _ _ => .ofLe (le_refl _),
        fun r' offset d hmem => ?_⟩
      · exact .on (.streaming r (next + 1)) handler hmore (.inl rfl) hhandler
      · rcases List.mem_append.mp hmem with hmem | hmem
        · exact h.streamed r' offset d hmem
        · obtain ⟨rfl, rfl, rfl⟩ : r' = r ∧ offset = next ∧ d = data := by
            simpa [streamedBy] using hmem
          exact hget
    · -- the last frame hands nothing to the callback
      obtain ⟨rfl, rfl⟩ := RemoteConn.read_response hbytes hfits hread
      have hnone : streamedBy r next (.ok last) = [] := if_neg hlast
      rw [hnone, List.append_nil, streamReadRound_last hlast]
      refine h.setConn hx (.on .idle .waiting ?_ (.inl rfl) hhandler)
      rw [hserver]
      exact .idle

/-! ### The process -/

/-- The process calls a method. -/
theorem Tracked.enter (h : Tracked cs texts s t a stages owners) {m : Method}
    (ht : RemoteTransition cs texts s (.enter m) s') : Follows cs texts s s' a := by
  cases ht with
  | entered _ S hS =>
    obtain ⟨hservice, hfresh, hlength⟩ := h.service.invoke hS
    rw [← h.callers] at hservice hfresh hlength
    -- the process is its own proxy: its call starts and is relayed in one step
    obtain ⟨hatom, hrelays⟩ := h.relays.send (.process m)
    have hrelays := hrelays.relay List.getElem?_concat_length covers_process
    rw [List.set_append_right _ _ (Nat.le_refl _), Nat.sub_self, List.set_cons_zero] at hrelays
    refine ⟨_, _, _, _, _, hatom, ?_, hservice, grows_step h.grows (.invoke m hfresh), hrelays,
      (List.length_append ..).trans hlength.symm, ?_, h.process_append ?_, fun k x hx => ?_,
      h.streamed⟩
    · rw [h.calls]
    · simp [h.calls]
    · rintro c hc
      rw [h.callers]
      exact ⟨m, by rw [Option.some.inj hc]⟩
    · have hkeeps : Keeps k t.state t.state stages
          (stages ++ [.relayed (.process m) m owners.length]) owners owners :=
        .appendStage (le_refl _) _
      exact (h.conns k x hx).keeps (hkeeps.appendOwner _)

/-- A method the process has called returns. -/
theorem Tracked.leave (h : Tracked cs texts s t a stages owners) {r : Nat}
    (ht : RemoteTransition cs texts s (.leave r) s') : Follows cs texts s s' a := by
  cases ht with
  | left _ c ans S hr hans hS =>
    obtain ⟨t', hatom, hservice, hlength⟩ := h.service.respond hans hS
    -- the stage says which method the process called
    obtain ⟨m, hst⟩ := h.process r c hr
    have hlt := (List.getElem?_eq_some_iff.mp hst).1
    have hle := le_of_respond hatom
    obtain ⟨hanswer, hrelays⟩ := (h.relays.reply hst hatom fun before after hlegal =>
      .process m before after ans hlegal).deliver (List.getElem?_set_self hlt)
    rw [List.set_set] at hrelays
    refine ⟨_, t', _, _, owners, hanswer, rfl, hservice, grows_step h.grows hatom, hrelays,
      h.callers.trans hlength.symm, by simp [h.calls], fun r' c' hr' => ?_, fun k x hx => ?_,
      fun r' offset data hmem => getElem?_of_le hle (h.streamed r' offset data hmem)⟩
    · -- the call that returned is no longer under way
      have hne : r ≠ r' := fun heq => by
        rw [← heq, List.getElem?_set_self (h.calls ▸ hlt)] at hr'
        cases hr'
      rw [List.getElem?_set_ne hne] at hr' ⊢
      exact h.process r' c' hr'
    · exact (h.conns k x hx).keeps (.set hle hst fun u heq => by cases heq)

/-- Work inside the manager. -/
theorem Tracked.work (h : Tracked cs texts s t a stages owners) {e : ServiceEvent}
    (he : e.Atomic) (ht : RemoteTransition cs texts s (.work e) s') : Follows cs texts s s' a := by
  cases ht with
  | worked _ S hinner hS =>
    obtain ⟨t', hatom, hservice, hlength⟩ := h.service.inner hinner he hS
    obtain ⟨a', hatom', hrelays⟩ := h.relays.work hatom
    -- a step inside the manager lets at most one call take effect
    have hle : t.state ≤ t'.state := by
      cases hatom with
      | idle => exact le_refl _
      | apply after r _ hlegal => exact (serves_grows h.grows.now hlegal).2
    exact ⟨[], t', a', stages, owners, hatom', (List.append_nil _).symm, hservice,
      grows_step h.grows hatom, hrelays, h.callers.trans hlength.symm, h.calls, h.process,
      fun k x hx => (h.conns k x hx).keeps (.ofLe hle),
      fun r offset data hmem => getElem?_of_le hle (h.streamed r offset data hmem)⟩

/-! ### All steps -/

/-- What the clients and the file system do: calls are valid, no callback ends a stream early,
    and no file write leaves a part of what was to be written. -/
def RemoteEvent.Orderly : RemoteEvent → Prop
  | .call _ c => c.Valid
  | .receive _ failed => failed = false
  | .work e => e.Atomic
  | _ => True

/-- **Step lemma**: the clients see an atomic object. -/
theorem Tracked.step (h : Tracked cs texts s t a stages owners)
    (htexts : texts.Fit) {e : RemoteEvent} (he : e.Orderly)
    (ht : RemoteTransition cs texts s e s') : Follows cs texts s s' a := by
  -- one case for each event; what breaks a connection only cuts off what was under way on it
  cases e with
  | accept =>
    cases ht
    refine ⟨[], t, a, stages, owners, .idle, (List.append_nil _).symm, h.service, h.grows,
      h.relays, h.callers, h.calls, h.process, fun k x hx => ?_, h.streamed⟩
    rcases getElem?_concat_cases hx with hx | ⟨rfl, rfl⟩
    · exact h.conns k x hx
    · exact .on .idle .waiting .idle (.inl rfl) (.inl rfl)
  | call k c => exact h.call he ht
  | handle k => exact h.handle ht
  | readNext k => exact h.readNext ht
  | reply k => exact h.reply htexts ht
  | receive k failed =>
    obtain rfl : failed = false := he
    exact h.receive ht
  | breaks k =>
    cases ht with
    | broke _ x hx =>
      refine h.setConn hx ?_
      -- what was under way may still arrive
      cases h.conns k x hx with
      | on client handler hprogress hclient hhandler =>
        exact .on client handler hprogress (hclient.imp_right fun hidle => ⟨rfl, hidle.2⟩)
          (hhandler.imp_right fun hclosed => ⟨rfl, hclosed.2⟩)
      | lost _ hhandler hnil => exact .lost rfl hhandler hnil
  | fail k =>
    cases ht with
    | failed _ x hx hbroken =>
      refine h.setConn hx ?_
      cases h.conns k x hx with
      | on client handler hprogress hclient hhandler =>
        exact .on client handler hprogress (.inr ⟨hbroken, rfl⟩) hhandler
      | lost _ hhandler hnil => exact .lost hbroken hhandler hnil
  | hangup k =>
    cases ht with
    | hungUp _ x hx hbroken _ =>
      refine h.setConn hx ?_
      cases h.conns k x hx with
      | on client handler hprogress hclient hhandler =>
        exact .on client handler hprogress hclient (.inr ⟨hbroken, rfl⟩)
      | lost _ hhandler hnil => exact .lost hbroken rfl hnil
  | enter m => exact h.enter ht
  | leave r => exact h.leave ht
  | work e => exact h.work he ht

end Step

/-! ## Linearizability -/

theorem Tracked.opened {m : Manager} (h : Represents cs m l) :
    Tracked cs texts (Remote.opened m) ⟨l, fun _ => .fresh⟩ ⟨l, fun _ => .fresh⟩ [] [] where
  service := .opened h
  grows :=
    { now := fun offset data hread => readAt_fits (m := m) ((h.readAt offset).trans hread)
      before := fun _ _ _ _ hphase => by cases hphase }
  relays := .init l
  callers := rfl
  calls := rfl
  process r c hr := by simp [Remote.opened] at hr
  conns k x hx := by simp [Remote.opened] at hx
  streamed r offset data hmem := by simp [Remote.opened] at hmem

instance : Nonempty RemoteReply := ⟨.process .done⟩

/-- **The remote log is linearizable.**  Any number of clients on connections that may break,
    the handlers that serve them, and calls of the process itself, from any state that a log
    has reached and in any interleaving: one sequential order of the calls explains all
    answers that arrived, and leads to the log that the manager then holds; a call that was
    never answered has one place in it or none.  Every record that a stream delivered under an
    offset is the record of that log at the offset. -/
theorem remote_linearizable (cs : Checksum) (texts : ErrorTexts)
    (htexts : texts.Fit) (cfg : Config) (mtime : Int) (L : LiveLog)
    (hreached : L.Reached cs cfg mtime) (es : List RemoteEvent)
    (horderly : ∀ e ∈ es, RemoteEvent.Orderly e) {s : Remote}
    (hrun : run (Remote.step cs texts) (Remote.opened L.manager) es = some s) :
    ∃ l l' order, (∀ o d, (o, d) ∈ L.appended ↔ l.payloads[o]? = some d) ∧
      Linearizes (ServesRemote texts) l s.history order l' ∧
      (∀ o, s.service.shared.manager.readAt cs o = l'.readAt o) ∧
      ∀ r offset data, (r, offset, data) ∈ s.streamed → l'.payloads[offset]? = some data := by
  obtain ⟨l, hrep, happended⟩ := LiveInv.reached hreached
  obtain ⟨t, a, stages, owners, ha, htracked⟩ : ∃ t a stages owners,
      AtomicRun (ServesRemote texts) l s.history a ∧
        Tracked cs texts s t a stages owners := by
    refine run_invariant (I := fun s : Remote => ∃ t a stages owners,
      AtomicRun (ServesRemote texts) l s.history a ∧ Tracked cs texts s t a stages owners) ?_
      ⟨_, _, [], [], .init, .opened hrep⟩ (along_of_forall horderly) hrun
    -- every step of the server is a step of the one log or none, in what the clients can see
    rintro s₁ e s₂ ⟨t, a, stages, owners, ha, htracked⟩ he hstep
    obtain ⟨evs, t', a', stages', owners', hatom, hhist, htracked'⟩ :=
      htracked.step htexts he (step_remoteTransition hstep)
    exact ⟨t', a', stages', owners', hhist ▸ ha.step hatom, htracked'⟩
  obtain ⟨order, horder⟩ := ha.linearizes
  have hstate := htracked.relays.state
  refine ⟨l, a.state, order, happended, horder, fun o => ?_, fun r offset data hmem => ?_⟩
  · rw [hstate]
    exact htracked.service.represents.readAt o
  · rw [hstate]
    exact htracked.streamed r offset data hmem

/-- A client is cut off while its `Produce` is carried out; another one reads the record and
    then streams the log. -/
def cutOffProduce : List RemoteEvent :=
  [.accept, .accept, .call 0 (.unary (.produce [7])), .call 1 (.unary (.read 0)), .handle 0,
    .handle 1, .breaks 0, .work (.reserve 0 .ok 0 0), .fail 0, .work (.route 1),
    .work (.work (.read 0)), .work (.work (.releaseRead 0)), .work (.finish 1), .reply 1,
    .receive 1 false, .call 1 (.streamRead 0), .handle 1, .readNext 1, .work (.route 2),
    .work (.work (.read 1)), .work (.work (.releaseRead 1)), .work (.finish 2), .reply 1,
    .receive 1 false]

/-- The `Produce` is not answered, and its record is read and streamed. -/
theorem remote_linearizable_cutOffProduce : ∃ L s,
    LiveLog.Reached byteSum ⟨1, 0, 0⟩ 0 L ∧
      run (Remote.step byteSum noTexts) (Remote.opened L.manager) cutOffProduce = some s ∧
      s.history = [.invoke 0 (.client 0 (.produce [7])), .invoke 1 (.client 1 (.read 0)),
        .respond 1 (.client (.record (.ok [7])))] ∧
      s.streamed = [(2, 0, [7])] ∧
      ∃ l l' order, Linearizes (ServesRemote noTexts) l s.history order l' ∧
        l'.payloads[0]? = some [7] := by
  have hreached : LiveLog.Reached byteSum ⟨1, 0, 0⟩ 0
      ⟨⟨Config.settings ⟨1, 0, 0⟩, [], Segment.fresh 0 0⟩, []⟩ :=
    ⟨_, [], rfl, by simp, rfl⟩
  have hseen : (run (Remote.step byteSum noTexts)
      (Remote.opened ⟨Config.settings ⟨1, 0, 0⟩, [], Segment.fresh 0 0⟩) cutOffProduce).map
        (fun s => (s.history, s.streamed)) =
      some ([.invoke 0 (.client 0 (.produce [7])), .invoke 1 (.client 1 (.read 0)),
        .respond 1 (.client (.record (.ok [7])))], [(2, 0, [7])]) := by
    decide +kernel
  -- the record was appended though the client never heard of it
  obtain ⟨s, hrun, hs⟩ := Option.map_eq_some_iff.mp hseen
  obtain ⟨hhistory, hstreamed⟩ := Prod.mk.inj hs
  have hempty : (errorResponse "").payload.length ≤ MaxPayloadSize := by decide +kernel
  have horderly : ∀ e ∈ cutOffProduce, RemoteEvent.Orderly e := by
    simp [cutOffProduce, RemoteEvent.Orderly, Call.Valid, ServiceEvent.Atomic,
      SharedEvent.Atomic, WriteOutcome.Atomic]
    decide
  obtain ⟨l, l', order, -, horder, -, hrecords⟩ := remote_linearizable byteSum noTexts
    ⟨fun _ => hempty, fun _ => hempty⟩ ⟨1, 0, 0⟩ 0 _ hreached cutOffProduce horderly hrun
  refine ⟨_, s, hreached, hrun, hhistory, hstreamed, l, l', order, horder, hrecords 2 0 [7] ?_⟩
  rw [hstreamed]
  exact List.mem_singleton_self _

end EventLog.Network
