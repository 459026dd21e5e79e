import EventLog.Network.Connection

/-!
# Calls and their answers

Which frames a call reads.  While no callback has ended a stream, the connection is in one
of a few phases, in each of which every frame that is under way is one of the call under
way.  A callback that ends a stream leaves at least one frame of it behind, read or not yet
written, unless the connection closes first: the next call that reads a frame reads that
one.
-/

namespace EventLog.Network

open EventLog.Lib
open EventLog.Wal
open EventLog.Segments

variable {cs : Checksum} {texts : ErrorTexts} {s s' : Conn} {unread : List (Nat × Response)}

/-! ## Reading frames -/

/-- The bytes of frames. -/
def bytesOf (frames : List (Nat × Response)) : Bytes :=
  frames.flatMap fun p => writeResponse p.2

theorem bytesOf_cons (p : Nat × Response) (frames : List (Nat × Response)) :
    bytesOf (p :: frames) = writeResponse p.2 ++ bytesOf frames := rfl

theorem bytesOf_append (frames frames' : List (Nat × Response)) :
    bytesOf (frames ++ frames') = bytesOf frames ++ bytesOf frames' := List.flatMap_append

theorem bytesOf_eq_nil {frames : List (Nat × Response)} (h : bytesOf frames = []) :
    frames = [] := by
  cases frames with
  | nil => rfl
  | cons p frames => exact absurd (List.append_eq_nil_iff.mp h).1 (writeFrame_ne_nil _ _)

/-- With nothing to read, `ReadResponse` returns only when the connection is closed. -/
theorem read_nil {read : Except FrameError Response} {rest : Bytes} (hbytes : s.toClient = [])
    (h : s.read = some (read, rest)) : s.server = .closed ∧ read = .error .eof ∧ rest = [] := by
  have hread : readResponse s.toClient = (.error .eof, []) := by
    rw [hbytes]
    rfl
  simp only [Conn.read, hread] at h
  split_ifs at h with hwait
  obtain ⟨rfl, rfl⟩ := Prod.mk.inj (Option.some.inj h)
  exact ⟨by_contra fun hopen => hwait ⟨rfl, hopen⟩, rfl, rfl⟩

/-- Otherwise it returns the first frame. -/
theorem read_cons {p : Nat × Response} {frames : List (Nat × Response)}
    {read : Except FrameError Response} {rest : Bytes}
    (hbytes : s.toClient = bytesOf (p :: frames)) (hfits : p.2.payload.length ≤ MaxPayloadSize)
    (h : s.read = some (read, rest)) : read = .ok p.2 ∧ rest = bytesOf frames := by
  simp only [Conn.read, hbytes, bytesOf_cons, readResponse_writeResponse _ hfits] at h
  obtain ⟨rfl, rfl⟩ := Prod.mk.inj (Option.some.inj h)
  exact ⟨rfl, rfl⟩

/-! ## Phases -/

/-- The length field of the request is its length, or it is refused. -/
def Call.Fits (c : Call) : Prop :=
  c.request.payload.length ≤ MaxPayloadSize ∨
    MaxPayloadSize < c.request.payload.length % 256 ^ frameLengthSize

instance (c : Call) : Decidable c.Fits := inferInstanceAs (Decidable (_ ∨ _))

/-- A frame that carries a record to call `id`. -/
def IsRecord (id : Nat) (p : Nat × Response) : Prop :=
  p.1 = id ∧ p.2.status = StatusOK ∧ p.2.payload.length ≤ MaxPayloadSize

/-- Where the connection stands, and the frames the client has not read. -/
inductive Phase (s : Conn) : List (Nat × Response) → Prop where
  | idle : s.aborted = false → s.client = .idle → s.toServer = [] → s.server = .waiting →
      Phase s []
  /-- The request of call `id` is on its way. -/
  | pending (id c) : s.aborted = false → s.client = Call.pc id c →
      s.toServer = (writeRequest c.request).map (fun b => (id, b)) → c.Fits →
      s.server = .waiting → Phase s []
  /-- The one response to a round trip is on its way. -/
  | answered (id u resp) : s.aborted = false → s.client = .awaiting id u → s.toServer = [] →
      (s.server = .waiting ∨ s.server = .closed) → resp.payload.length ≤ MaxPayloadSize →
      Phase s [(id, resp)]
  | streaming (id next offset records) : s.aborted = false → s.client = .streaming id next →
      s.toServer = [] → s.server = .streaming id offset → (∀ p ∈ records, IsRecord id p) →
      Phase s records
  /-- The last frame of the stream is written. -/
  | ended (id next records last) : s.aborted = false → s.client = .streaming id next →
      s.toServer = [] → (s.server = .waiting ∨ s.server = .closed) →
      (∀ p ∈ records, IsRecord id p) → last.status ≠ StatusOK →
      last.payload.length ≤ MaxPayloadSize → Phase s (records ++ [(id, last)])
  /-- The server is gone; what is left are records of the stream under way. -/
  | closed (records) : s.aborted = false → s.server = .closed →
      (∀ p ∈ records, (∃ next, s.client = .streaming p.1 next) ∧ IsRecord p.1 p) →
      Phase s records
  /-- A callback ended the stream of call `id`, and its frames are next. -/
  | leftover (id resp frames) : s.aborted = true → id < s.calls →
      (∀ id' ∈ s.client.call, id < id') → resp.payload.length ≤ MaxPayloadSize →
      Phase s ((id, resp) :: frames)
  | owed (id offset) : s.aborted = true → id < s.calls → (∀ id' ∈ s.client.call, id < id') →
      s.server = .streaming id offset → Phase s []
  /-- A callback ended a stream, and then the connection closed. -/
  | lost : s.aborted = true → s.server = .closed → Phase s []

/-- Everything the client read were answers to its calls. -/
structure ConnInv (s : Conn) (unread : List (Nat × Response)) : Prop where
  written : s.written = s.consumed ++ unread
  toClient : s.toClient = bytesOf unread
  current : ∀ id ∈ s.client.call, id < s.calls
  phase : Phase s unread

/-- An idle client has no call under way. -/
theorem forall_mem_idle {P : Nat → Prop} : ∀ id ∈ ClientPc.idle.call, P id := fun _ h =>
  absurd h (Option.not_mem_none _)

theorem ConnInv.init : ConnInv Conn.init [] :=
  ⟨rfl, rfl, forall_mem_idle, .idle rfl rfl rfl rfl⟩

/-! ## Steps of the client -/

theorem Call.call_pc (c : Call) (id : Nat) : (c.pc id).call = some id := by
  cases c <;> rfl

/-- A request is written. -/
theorem ConnInv.call (h : ConnInv s unread) {c : Call} (hfits : c.Fits)
    (hstep : s.step cs texts (.call c) = some s') : ConnInv s' unread := by
  simp only [Conn.step] at hstep
  split_ifs at hstep with hidle
  obtain rfl := Option.some.inj hstep
  -- the new call is behind all that were made
  have hnew : ∀ id ∈ (c.pc s.calls).call, id = s.calls := fun id hid => by
    rw [Call.call_pc, Option.mem_some] at hid
    exact hid.symm
  refine ⟨h.written, h.toClient, fun id hid => (hnew id hid).trans_lt (Nat.lt_succ_self _), ?_⟩
  cases h.phase with
  | idle ha _ hreq hserver => exact .pending s.calls c ha rfl (by rw [hreq]; rfl) hfits hserver
  -- in these phases a call is under way, and the client would not be idle
  | pending id c' ha hclient =>
    rw [hidle] at hclient
    cases c' <;> cases hclient
  | answered id u resp ha hclient => cases hidle.symm.trans hclient
  | streaming id next offset _ ha hclient => cases hidle.symm.trans hclient
  | ended id next records last ha hclient => cases hidle.symm.trans hclient
  | closed _ ha hserver hrecords =>
    refine .closed _ ha hserver fun p hp => ?_
    obtain ⟨⟨next, hclient⟩, -⟩ := hrecords p hp
    cases hidle.symm.trans hclient
  -- what an aborted stream left belongs to a call before this one
  | leftover id resp frames ha hid hcall hresp =>
    exact .leftover id resp frames ha (hid.trans (Nat.lt_succ_self _))
      (fun id' hid' => by rwa [hnew id' hid']) hresp
  | owed id offset ha hid hcall hserver =>
    exact .owed id offset ha (hid.trans (Nat.lt_succ_self _))
      (fun id' hid' => by rwa [hnew id' hid']) hserver
  | lost ha hserver => exact .lost ha hserver

/-! ## Steps of the server -/

/-- The server adds to the frames that are not read. -/
theorem ConnInv.serves (h : ConnInv s unread) {frames : List (Nat × Response)}
    (hs : Serves s s' frames) (hphase : Phase s' (unread ++ frames)) :
    ConnInv s' (unread ++ frames) where
  written := by rw [hs.written, hs.consumed, h.written, List.append_assoc]
  toClient := by rw [hs.toClient, h.toClient, bytesOf_append, bytesOf, bytesOf]
  current := by rw [hs.client, hs.calls]; exact h.current
  phase := hphase

/-- A round trip is answered with one frame. -/
theorem handle_unary {m : Manager} {appended : Except AppendError Nat} {id : Nat} {u : Unary}
    (htexts : texts.Fit)
    (h : s.handle cs texts m appended id (Call.unary u).request = some s') :
    ∃ resp, s' = s.write id resp ∧ resp.payload.length ≤ MaxPayloadSize := by
  rw [Conn.handle, Call.request] at h
  have hcalled : ∀ method, handleRequest u.request = .call method →
      ∃ resp, s' = s.write id resp ∧ resp.payload.length ≤ MaxPayloadSize := by
    intro method hmethod
    rw [hmethod] at h
    obtain ⟨resp, hresp, h⟩ := Option.bind_eq_some_iff.mp h
    refine ⟨resp, (Option.some.inj h).symm, responseTo_fits htexts ?_ ?_ hresp⟩
    · cases method <;> simp [answerOf]
    · -- only a read is answered with a record
      intro data hdata
      cases method with
      | readAt offset => exact readAt_fits (ReadResult.answered.inj (Answer.readAt.inj hdata))
      | append | nextOffset | earliestOffset | runRetention => cases hdata
  rcases handleRequest_unary u with ⟨-, hreq⟩ | ⟨_, -, -, hreq⟩ | ⟨_, -, hreq⟩ | ⟨-, hreq⟩ |
    ⟨-, hreq⟩
  · -- the empty payload is refused without a call of the manager
    rw [hreq] at h
    exact ⟨_, (Option.some.inj h).symm, by decide +kernel⟩
  all_goals exact hcalled _ hreq

theorem handle_streamRead (m : Manager) (appended : Except AppendError Nat) (id o : Nat) :
    s.handle cs texts m appended id (Call.streamRead o).request =
      some { s with server := .streaming id (beNat (beBytes 8 o)) } := by
  rw [Conn.handle, handleRequest_streamRead]

/-- Without a request the server waits. -/
theorem step_serve_nil {m : Manager} {appended : Except AppendError Nat} (h : s.toServer = []) :
    s.step cs texts (.serve m appended) = none := by
  simp only [Conn.step, h, List.map_nil]
  split_ifs <;> rfl

theorem map_snd_tagged (id : Nat) (bs : Bytes) : (bs.map fun b => (id, b)).map Prod.snd = bs := by
  rw [List.map_map]
  exact List.map_id _

/-- The server reads the request of call `id`. -/
theorem step_serve_request {m : Manager} {appended : Except AppendError Nat} {id : Nat}
    {c : Call} (hreq : s.toServer = (writeRequest c.request).map fun b => (id, b))
    (hwait : s.server = .waiting) (hfits : c.request.payload.length ≤ MaxPayloadSize) :
    s.step cs texts (.serve m appended) =
      { s with toServer := [] }.handle cs texts m appended id c.request := by
  have hbytes : s.toServer.map Prod.snd = writeRequest c.request := by
    rw [hreq, map_snd_tagged]
  have hread := readRequest_writeRequest [] hfits
  rw [List.append_nil] at hread
  simp only [Conn.step, hwait, if_true, hbytes, hread]
  -- the request has a first byte, which says whose request it is
  cases hcons : s.toServer with
  | nil => exact absurd (hbytes.symm.trans (by rw [hcons]; rfl)) (writeFrame_ne_nil _ _)
  | cons p bytes =>
    obtain ⟨rfl, -⟩ := List.cons_eq_cons.mp (hcons.symm.trans hreq)
    simp only [List.length_nil, Nat.sub_zero, List.drop_length]

/-- A request that is too large ends `handleConn`. -/
theorem step_serve_refused {m : Manager} {appended : Except AppendError Nat} {id : Nat}
    {c : Call} (hreq : s.toServer = (writeRequest c.request).map fun b => (id, b))
    (hwait : s.server = .waiting)
    (hlarge : MaxPayloadSize < c.request.payload.length % 256 ^ frameLengthSize) :
    s.step cs texts (.serve m appended) = some { s with server := .closed } := by
  have hbytes : s.toServer.map Prod.snd = writeRequest c.request := by
    rw [hreq, map_snd_tagged]
  obtain ⟨n, rest, hread⟩ := readRequest_refused [] hlarge
  rw [List.append_nil] at hread
  simp only [Conn.step, hwait, if_true, hbytes, hread]

theorem ConnInv.serve (h : ConnInv s unread) (htexts : texts.Fit) {m : Manager}
    {appended : Except AppendError Nat} (hstep : s.step cs texts (.serve m appended) = some s') :
    ∃ frames, ConnInv s' (unread ++ frames) := by
  obtain ⟨hwait, frames, hs⟩ := serves_of_serve hstep
  -- the server only moves if a request has arrived, which is so in one phase only
  have hnil : s.toServer ≠ [] := fun hnil => by
    rw [step_serve_nil hnil] at hstep
    cases hstep
  cases h.phase with
  | idle _ _ hreq => exact absurd hreq hnil
  | pending id c ha hclient hreq hfits =>
    rcases hfits with hfits | hlarge
    · rw [step_serve_request hreq hwait hfits] at hstep
      cases c with
      | unary u =>
        -- one frame answers the request
        obtain ⟨resp, rfl, hresp⟩ := handle_unary htexts hstep
        exact ⟨[(id, resp)], h.serves ⟨rfl, rfl, rfl, rfl, rfl, by simp [Conn.write]⟩
          (.answered id u _ ha hclient rfl (.inl hwait) hresp)⟩
      | streamRead startOffset =>
        rw [handle_streamRead] at hstep
        obtain rfl := Option.some.inj hstep
        exact ⟨[], h.serves
          ⟨rfl, rfl, rfl, rfl, (List.append_nil _).symm, (List.append_nil _).symm⟩
          (.streaming id startOffset _ [] ha hclient rfl rfl (by simp))⟩
    · rw [step_serve_refused hreq hwait hlarge] at hstep
      obtain rfl := Option.some.inj hstep
      exact ⟨[], h.serves
        ⟨rfl, rfl, rfl, rfl, (List.append_nil _).symm, (List.append_nil _).symm⟩
        (.closed [] ha rfl (by simp))⟩
  | answered _ _ _ _ _ hreq => exact absurd hreq hnil
  | streaming _ _ _ _ _ _ hreq => exact absurd hreq hnil
  | ended _ _ _ _ _ _ hreq => exact absurd hreq hnil
  | closed _ _ hserver => cases hwait.symm.trans hserver
  | leftover id resp rest ha hid hcall hresp =>
    refine ⟨frames, h.serves hs (.leftover id resp _ ?_ ?_ ?_ hresp)⟩
    · rw [hs.aborted, ha]
    · rwa [hs.calls]
    · rwa [hs.client]
  | owed _ _ _ _ _ hserver => cases hwait.symm.trans hserver
  | lost _ hserver => cases hwait.symm.trans hserver

theorem ConnInv.push (h : ConnInv s unread) (htexts : texts.Fit) {m : Manager}
    (hstep : s.step cs texts (.push m) = some s') : ∃ frames, ConnInv s' (unread ++ frames) := by
  obtain ⟨id, offset, hstreaming, hs, htoServer, hserver⟩ := serves_of_push hstep
  have hfits := streamRound_fits cs htexts.2 m offset
  have hcases := streamRound_cases cs texts.readAt m offset
  generalize streamRound cs texts.readAt m offset = round at hs hfits hserver hcases
  obtain ⟨frame, cont⟩ := round
  -- only a server in the loop of a stream takes this step
  have hopen : ¬(s.server = .waiting ∨ s.server = .closed) := by
    rw [hstreaming]
    simp
  refine ⟨[(id, frame)], h.serves hs ?_⟩
  cases h.phase with
  | idle _ _ _ hwait => exact absurd (.inl hwait) hopen
  | pending _ _ _ _ _ _ hwait => exact absurd (.inl hwait) hopen
  | answered _ _ _ _ _ _ hdone => exact absurd hdone hopen
  | streaming id' next offset' _ ha hclient hreq hserver' hrecords =>
    obtain ⟨rfl, rfl⟩ := ServerPc.streaming.inj (hstreaming.symm.trans hserver')
    -- one more record of the stream, or its last frame
    rcases hcases with ⟨data, -, heq⟩ | ⟨e, last, -, hlast, heq⟩
    · obtain ⟨rfl, rfl⟩ := Prod.mk.inj heq
      refine .streaming id next (offset + 1) _ (hs.aborted.trans ha) (hs.client.trans hclient)
        (htoServer.trans hreq) hserver fun p hp => ?_
      rcases List.mem_append.mp hp with hp | hp
      · exact hrecords p hp
      · obtain rfl := List.mem_singleton.mp hp
        exact ⟨rfl, rfl, hfits⟩
    · obtain ⟨rfl, rfl⟩ := Prod.mk.inj heq
      exact .ended id next _ frame (hs.aborted.trans ha) (hs.client.trans hclient)
        (htoServer.trans hreq) (.inl hserver) hrecords hlast hfits
  | ended _ _ _ _ _ _ _ hdone => exact absurd hdone hopen
  | closed _ _ hclosed => exact absurd (.inr hclosed) hopen
  | leftover id' resp rest ha hid hcall hresp =>
    exact .leftover id' resp _ (hs.aborted.trans ha) (by rwa [hs.calls]) (by rwa [hs.client]) hresp
  -- the stream goes on for a call that has returned: its next frame is left over
  | owed id' offset' ha hid hcall hserver' =>
    obtain ⟨rfl, rfl⟩ := ServerPc.streaming.inj (hstreaming.symm.trans hserver')
    exact .leftover id frame _ (hs.aborted.trans ha) (by rwa [hs.calls]) (by rwa [hs.client]) hfits
  | lost _ hclosed => exact absurd (.inr hclosed) hopen

theorem ConnInv.hangup (h : ConnInv s unread) : ConnInv { s with server := .closed } unread := by
  refine ⟨h.written, h.toClient, h.current, ?_⟩
  cases h.phase with
  | idle ha => exact .closed [] ha rfl (by simp)
  | pending _ _ ha => exact .closed [] ha rfl (by simp)
  | answered id u resp ha hclient hreq _ hresp =>
    exact .answered id u resp ha hclient hreq (.inr rfl) hresp
  -- the records that are under way stay the stream's
  | streaming id next offset _ ha hclient _ _ hrecords =>
    refine .closed _ ha rfl fun p hp => ?_
    obtain rfl : p.1 = id := (hrecords p hp).1
    exact ⟨⟨next, hclient⟩, hrecords p hp⟩
  | ended id next records last ha hclient hreq _ hrecords hlast hfits =>
    exact .ended id next records last ha hclient hreq (.inr rfl) hrecords hlast hfits
  | closed _ ha _ hrecords => exact .closed _ ha rfl hrecords
  | leftover id resp frames ha hid hcall hresp =>
    exact .leftover id resp frames ha hid hcall hresp
  -- the frame that was owed is never written
  | owed id offset ha => exact .lost ha rfl
  | lost ha => exact .lost ha rfl

/-! ## Responses -/

/-- After a callback ended a stream, no frame is read. -/
def NothingLeft (s : Conn) : ConnEvent → Prop
  | .receive _ => s.aborted = true → s.toClient = []
  | _ => True

instance (s : Conn) : DecidablePred (NothingLeft s)
  | .receive _ => inferInstanceAs (Decidable (_ → _))
  | .call _ | .serve .. | .push _ | .hangup => inferInstanceAs (Decidable True)

/-- With nothing to read, only a call on a closed connection returns, and it fails. -/
theorem Received.of_nil {failed : Bool} (hr : Received s failed s') (hbytes : s.toClient = []) :
    s.server = .closed ∧ ∃ results, s' = { s with client := .idle, results := results } := by
  cases hr with
  | unary id u read rest _ hread =>
    obtain ⟨hserver, rfl, rfl⟩ := read_nil hbytes hread
    exact ⟨hserver, s.results ++ [(id, u.result (.error .eof))], by simp [Conn.consume, hbytes]⟩
  -- a record takes bytes
  | record id next resp rest _ hread =>
    obtain ⟨-, hread, -⟩ := read_nil hbytes hread
    cases hread
  | aborted id next resp rest _ hread =>
    obtain ⟨-, hread, -⟩ := read_nil hbytes hread
    cases hread
  | ended id next read rest err _ hread =>
    obtain ⟨hserver, rfl, rfl⟩ := read_nil hbytes hread
    exact ⟨hserver, s.results ++ [(id, .stream next err)], by simp [Conn.consume, hbytes]⟩

/-- The call under way reads the first frame. -/
theorem ConnInv.consume {p : Nat × Response} {frames : List (Nat × Response)}
    (h : ConnInv s (p :: frames)) {pc : ClientPc} {results : List (Nat × Result)} {b : Bool}
    (hcurrent : ∀ id ∈ pc.call, id < s.calls)
    (hphase : Phase { s.consume p.1 (.ok p.2) (bytesOf frames) with
      client := pc, results := results, aborted := b } frames) :
    ConnInv { s.consume p.1 (.ok p.2) (bytesOf frames) with
      client := pc, results := results, aborted := b } frames where
  written := h.written.trans (by simp [Conn.consume])
  toClient := rfl
  current := hcurrent
  phase := hphase

/-- The first frame is a record of the stream under way.  If the callback takes it the
    stream goes on; if not, the next frame of the stream is left over. -/
theorem ConnInv.receive_record {p : Nat × Response} {frames : List (Nat × Response)}
    {id next : Nat} {failed : Bool} (h : ConnInv s (p :: frames)) (hrecord : IsRecord id p)
    (hclient : s.client = .streaming id next) (hr : Received s failed s')
    (hgoes : Phase { s.consume p.1 (.ok p.2) (bytesOf frames) with
      client := .streaming id (next + 1) } frames)
    (hlast : frames = [] → (∃ offset, s.server = .streaming id offset) ∨ s.server = .closed)
    (hnext : ∀ q ∈ frames.head?, q.1 = id ∧ q.2.payload.length ≤ MaxPayloadSize) :
    ConnInv s' frames := by
  obtain ⟨rfl, hok, hfits⟩ := hrecord
  have hid : p.1 < s.calls := h.current p.1 (by rw [hclient]; rfl)
  cases hr with
  | unary id' u read rest hclient' => cases hclient.symm.trans hclient'
  -- the callback takes the record
  | record id' next' resp rest hclient' hread =>
    obtain ⟨rfl, rfl⟩ := ClientPc.streaming.inj (hclient.symm.trans hclient')
    obtain ⟨hresp, rfl⟩ := read_cons h.toClient hfits hread
    obtain rfl := Except.ok.inj hresp
    exact h.consume (fun id hid' => Option.mem_some.mp hid' ▸ hid) hgoes
  -- it does not: what the server writes next is left over, unless it is gone
  | aborted id' next' resp rest hclient' hread =>
    obtain ⟨rfl, rfl⟩ := ClientPc.streaming.inj (hclient.symm.trans hclient')
    obtain ⟨hresp, rfl⟩ := read_cons h.toClient hfits hread
    obtain rfl := Except.ok.inj hresp
    refine h.consume forall_mem_idle ?_
    cases frames with
    | nil =>
      rcases hlast rfl with ⟨offset, hserver⟩ | hserver
      · exact .owed p.1 offset rfl hid forall_mem_idle hserver
      · exact .lost rfl hserver
    | cons q frames =>
      obtain ⟨hq, hqfits⟩ := hnext q rfl
      exact .leftover q.1 q.2 frames rfl (hq ▸ hid) forall_mem_idle hqfits
  | ended id' next' read rest err hclient' hread hend =>
    obtain ⟨hresp, -⟩ := read_cons h.toClient hfits hread
    exact absurd hok (hend p.2 hresp)

/-- The first frame ends the call under way, and it is the only one. -/
theorem ConnInv.receive_last {id : Nat} {resp : Response} {failed : Bool}
    (h : ConnInv s [(id, resp)]) (ha : s.aborted = false) (hcall : s.client.call = some id)
    (hstream : ∀ next, s.client = .streaming id next → resp.status ≠ StatusOK)
    (hreq : s.toServer = []) (hserver : s.server = .waiting ∨ s.server = .closed)
    (hfits : resp.payload.length ≤ MaxPayloadSize) (hr : Received s failed s') :
    ConnInv s' [] := by
  -- nothing is under way behind a last frame
  have hdone : ∀ results, Phase { s.consume id (.ok resp) [] with
      client := .idle, results := results } [] := fun results => by
    rcases hserver with hserver | hserver
    · exact .idle ha rfl hreq hserver
    · exact .closed [] ha hserver (by simp)
  cases hr with
  | unary id' u read rest hclient hread =>
    obtain rfl : id' = id := by simpa [hclient, ClientPc.call] using hcall
    obtain ⟨rfl, rfl⟩ := read_cons h.toClient hfits hread
    exact h.consume forall_mem_idle (hdone _)
  -- a frame that ends a call is not a record of a stream
  | record id' next resp' rest hclient hread hok =>
    obtain rfl : id' = id := by simpa [hclient, ClientPc.call] using hcall
    obtain ⟨hresp, -⟩ := read_cons h.toClient hfits hread
    obtain rfl : resp' = resp := Except.ok.inj hresp
    exact absurd hok (hstream next hclient)
  | aborted id' next resp' rest hclient hread hok =>
    obtain rfl : id' = id := by simpa [hclient, ClientPc.call] using hcall
    obtain ⟨hresp, -⟩ := read_cons h.toClient hfits hread
    obtain rfl : resp' = resp := Except.ok.inj hresp
    exact absurd hok (hstream next hclient)
  | ended id' next read rest err hclient hread =>
    obtain rfl : id' = id := by simpa [hclient, ClientPc.call] using hcall
    obtain ⟨rfl, rfl⟩ := read_cons h.toClient hfits hread
    exact h.consume forall_mem_idle (hdone _)

/-- **Step lemma of the client.** -/
theorem ConnInv.receive (h : ConnInv s unread) {failed : Bool}
    (hleft : s.aborted = true → s.toClient = []) (hr : Received s failed s') :
    ∃ unread', ConnInv s' unread' := by
  -- a call reads something, or the connection is closed
  have hnil : unread = [] → s.server = .closed ∧
      ∃ results, s' = { s with client := .idle, results := results } := fun hnil =>
    hr.of_nil (by rw [h.toClient, hnil]; rfl)
  cases h.phase with
  | idle _ _ _ hserver => cases hserver.symm.trans (hnil rfl).1
  | pending _ _ _ _ _ _ hserver => cases hserver.symm.trans (hnil rfl).1
  | answered id u resp ha hclient hreq hserver hfits =>
    refine ⟨[], h.receive_last ha (by rw [hclient]; rfl) (fun next hstream => ?_) hreq hserver
      hfits hr⟩
    cases hclient.symm.trans hstream
  -- the first frame is a record, and those behind it are of the same stream
  | streaming id next offset _ ha hclient hreq hserver hrecords =>
    cases unread with
    | nil => cases hserver.symm.trans (hnil rfl).1
    | cons p frames =>
      have hrest : ∀ q ∈ frames, IsRecord id q := fun q hq =>
        hrecords q (List.mem_cons_of_mem p hq)
      refine ⟨frames, h.receive_record (hrecords p List.mem_cons_self) hclient hr
        (.streaming id (next + 1) offset frames ha rfl hreq hserver hrest)
        (fun _ => .inl ⟨offset, hserver⟩) fun q hq => ?_⟩
      have hq := hrest q (List.mem_of_mem_head? hq)
      exact ⟨hq.1, hq.2.2⟩
  | ended id next records last ha hclient hreq hserver hrecords hlast hfits =>
    cases records with
    | nil =>
      exact ⟨[], h.receive_last ha (by rw [hclient]; rfl) (fun _ _ => hlast) hreq hserver hfits hr⟩
    | cons p records =>
      have hrest : ∀ q ∈ records, IsRecord id q := fun q hq =>
        hrecords q (List.mem_cons_of_mem p hq)
      refine ⟨records ++ [(id, last)], h.receive_record (hrecords p List.mem_cons_self) hclient hr
        (.ended id (next + 1) records last ha rfl hreq hserver hrest hlast hfits)
        (fun hnil => by simp at hnil) fun q hq => ?_⟩
      rcases List.mem_append.mp (List.mem_of_mem_head? hq) with hq | hq
      · exact ⟨(hrest q hq).1, (hrest q hq).2.2⟩
      · obtain rfl := List.mem_singleton.mp hq
        exact ⟨rfl, hfits⟩
  | closed _ ha hserver hrecords =>
    cases unread with
    | nil =>
      obtain ⟨-, results, rfl⟩ := hnil rfl
      exact ⟨[], h.written, h.toClient, forall_mem_idle, .closed [] ha hserver (by simp)⟩
    | cons p frames =>
      obtain ⟨⟨next, hclient⟩, hp⟩ := hrecords p List.mem_cons_self
      -- all of them belong to the one stream under way
      have hrest : ∀ q ∈ frames, IsRecord p.1 q := fun q hq => by
        obtain ⟨⟨next', hclient'⟩, hq⟩ := hrecords q (List.mem_cons_of_mem p hq)
        obtain ⟨heq, -⟩ := ClientPc.streaming.inj (hclient.symm.trans hclient')
        exact heq ▸ hq
      refine ⟨frames, h.receive_record hp hclient hr
        (.closed frames ha hserver fun q hq => ?_) (fun _ => .inr hserver) fun q hq => ?_⟩
      · have hq := hrest q hq
        exact ⟨⟨next + 1, by rw [hq.1]⟩, rfl, hq.2⟩
      · have hq := hrest q (List.mem_of_mem_head? hq)
        exact ⟨hq.1, hq.2.2⟩
  -- the condition: nothing of an aborted stream is read
  | leftover id resp frames ha =>
    have hbytes := hleft ha
    rw [h.toClient] at hbytes
    cases bytesOf_eq_nil hbytes
  | owed _ _ _ _ _ hserver => cases hserver.symm.trans (hnil rfl).1
  | lost ha hserver =>
    obtain ⟨-, results, rfl⟩ := hnil rfl
    exact ⟨[], h.written, h.toClient, forall_mem_idle, .lost ha hserver⟩

/-! ## Whole runs -/

theorem ConnInv.step (h : ConnInv s unread) (htexts : texts.Fit) {e : ConnEvent}
    (hfits : ∀ c, e = .call c → c.Fits) (hleft : NothingLeft s e)
    (hstep : s.step cs texts e = some s') : ∃ unread', ConnInv s' unread' := by
  cases e with
  | call c => exact ⟨unread, h.call (hfits c rfl) hstep⟩
  | serve m appended =>
    obtain ⟨frames, h'⟩ := h.serve htexts hstep
    exact ⟨_, h'⟩
  | push m =>
    obtain ⟨frames, h'⟩ := h.push htexts hstep
    exact ⟨_, h'⟩
  | receive failed => exact h.receive hleft (received_of_step hstep)
  | hangup =>
    obtain rfl := Option.some.inj hstep
    exact ⟨unread, h.hangup⟩

/-- Whatever the call under way makes of the first frame, it has read it. -/
theorem Received.consumed {failed : Bool} {p : Nat × Response} {frames : List (Nat × Response)}
    (hr : Received s failed s') (hbytes : s.toClient = bytesOf (p :: frames))
    (hfits : p.2.payload.length ≤ MaxPayloadSize) :
    ∃ id ∈ s.client.call, s'.consumed = s.consumed ++ [(id, p.2)] ∧ s'.written = s.written := by
  cases hr with
  | unary id u read rest hclient hread =>
    obtain ⟨rfl, -⟩ := read_cons hbytes hfits hread
    exact ⟨id, by rw [hclient]; rfl, rfl, rfl⟩
  | record id next resp rest hclient hread =>
    obtain ⟨hresp, -⟩ := read_cons hbytes hfits hread
    exact ⟨id, by rw [hclient]; rfl, by rw [hresp]; rfl, rfl⟩
  | aborted id next resp rest hclient hread =>
    obtain ⟨hresp, -⟩ := read_cons hbytes hfits hread
    exact ⟨id, by rw [hclient]; rfl, by rw [hresp]; rfl, rfl⟩
  | ended id next read rest err hclient hread =>
    obtain ⟨rfl, -⟩ := read_cons hbytes hfits hread
    exact ⟨id, by rw [hclient]; rfl, rfl, rfl⟩

/-- After a callback ended a stream, the next frame that is read is not the call's own. -/
theorem ConnInv.not_own (h : ConnInv s unread) {e : ConnEvent} (hleft : ¬NothingLeft s e)
    (hstep : s.step cs texts e = some s') : ¬s'.consumed <+: s'.written := by
  cases e with
  | receive failed =>
    -- the call reads although a stream was aborted, so there is a frame to read
    obtain ⟨haborted, hbytes⟩ := Classical.not_imp.mp hleft
    have hne : unread ≠ [] := fun hnil => hbytes (by rw [h.toClient, hnil]; rfl)
    have hopen : s.aborted ≠ false := by rw [haborted]; decide
    cases h.phase with
    -- while no stream was aborted the phase is another one
    | idle ha => exact absurd ha hopen
    | pending _ _ ha => exact absurd ha hopen
    | answered _ _ _ ha => exact absurd ha hopen
    | streaming _ _ _ _ ha => exact absurd ha hopen
    | ended _ _ _ _ ha => exact absurd ha hopen
    | closed _ ha => exact absurd ha hopen
    | leftover id resp frames _ _ hcall hfits =>
      obtain ⟨id', hid', hconsumed, hwritten⟩ := (received_of_step hstep).consumed h.toClient hfits
      -- the frame was written for an earlier call than the one that reads it
      have hlt := hcall id' hid'
      rw [hconsumed, hwritten, h.written, List.prefix_append_right_inj, List.cons_prefix_cons]
      rintro ⟨heq, -⟩
      obtain ⟨rfl, -⟩ := Prod.mk.inj heq
      exact Nat.lt_irrefl _ hlt
    | owed => exact absurd rfl hne
    | lost => exact absurd rfl hne
  | call | serve | push | hangup => exact absurd trivial hleft

/-- **Which answers calls get.**  On one connection whose requests are as long as their
    length fields say, or refused, every frame a call reads was written for its own request
    exactly when no frame is read after a callback ended a stream. -/
theorem own_answers_iff (cs : Checksum) (texts : ErrorTexts) (htexts : texts.Fit)
    {es : List ConnEvent} {s : Conn} (hfits : ∀ c, ConnEvent.call c ∈ es → c.Fits)
    (hrun : run (Conn.step cs texts) Conn.init es = some s) :
    (∀ es₁ s₁, es₁ <+: es → run (Conn.step cs texts) Conn.init es₁ = some s₁ →
        s₁.consumed <+: s₁.written) ↔
      Along (Conn.step cs texts) NothingLeft Conn.init es := by
  have hF : ∀ e ∈ es, ∀ c, e = .call c → c.Fits := fun e he c hc => hfits c (hc ▸ he)
  refine run_property_iff (F := fun _ e => ∀ c, e = .call c → c.Fits)
    (I := fun s => ∃ unread, ConnInv s unread) ?_ ?_ ?_ ⟨[], ConnInv.init⟩
    (along_of_forall hF) hrun
  · rintro s ⟨unread, h⟩
    exact ⟨unread, h.written.symm⟩
  · -- a step that meets the condition keeps the invariant, one that does not breaks the property
    rintro s e s' ⟨unread, h⟩ hfits hleft hstep
    exact h.step htexts hfits hleft hstep
  · rintro s e s' ⟨unread, h⟩ - hleft hstep
    exact h.not_own hleft hstep

/-- A log of the records `[7]` and `[8]`. -/
def sevenEight : Manager :=
  let m : Manager := ⟨Config.settings ⟨0, 0, 0⟩, [], ⟨0, OpenLog.empty, 0⟩⟩
  let (m, _) := m.append byteSum [7] .ok true (fun _ => .ok) 0 0
  (m.append byteSum [8] .ok true (fun _ => .ok) 0 0).1

def noTexts : ErrorTexts := ⟨fun _ => "", fun _ => "", ""⟩

/-- A stream that is read to its end, a read, and a stream that its callback ends; the server
    hangs up before it writes more of it. -/
def abortAndHangup : List ConnEvent :=
  [.call (.streamRead 1), .serve sevenEight (.ok 0), .push sevenEight, .push sevenEight,
    .receive false, .receive false, .call (.unary (.read 0)), .serve sevenEight (.ok 0),
    .receive false, .call (.streamRead 0), .serve sevenEight (.ok 0), .push sevenEight,
    .receive true, .hangup, .call (.unary (.read 0)), .receive false]

/-- The last call finds nothing to read and fails; no call gets an answer of another. -/
theorem own_answers_iff_caughtUp : ∃ s,
    run (Conn.step byteSum noTexts) Conn.init abortAndHangup = some s ∧ s.aborted = true ∧
      s.results = [(0, .stream 2 none), (1, .record (.ok [7])),
        (2, .stream 0 (some .callback)), (3, .record (.error (.read .eof)))] ∧
      s.consumed <+: s.written := by
  obtain ⟨s, hrun, haborted, hresults⟩ : ∃ s,
      run (Conn.step byteSum noTexts) Conn.init abortAndHangup = some s ∧ s.aborted = true ∧
      s.results = [(0, .stream 2 none), (1, .record (.ok [7])),
        (2, .stream 0 (some .callback)), (3, .record (.error (.read .eof)))] :=
    ⟨_, rfl, by decide, by decide⟩
  have hempty : (errorResponse "").payload.length ≤ MaxPayloadSize := by decide +kernel
  have hown := (own_answers_iff byteSum noTexts ⟨fun _ => hempty, fun _ => hempty⟩ (fun c hc => by
      simp only [abortAndHangup, List.mem_cons, ConnEvent.call.injEq, reduceCtorEq,
        List.not_mem_nil, or_false, false_or] at hc
      rcases hc with rfl | rfl | rfl | rfl <;> decide) hrun).mpr (by decide)
  exact ⟨s, hrun, haborted, hresults, hown _ s (List.prefix_refl _) hrun⟩

/-- The callback refuses the first of two records, and `Read(0)` returns the second. -/
theorem aborted_stream_answers_read : ∃ s,
    run (Conn.step byteSum noTexts) Conn.init
      [.call (.streamRead 0), .serve sevenEight (.ok 0), .push sevenEight, .receive true,
        .push sevenEight, .call (.unary (.read 0)), .receive false] = some s ∧
      sevenEight.readAt byteSum 0 = .ok [7] ∧
      s.results = [(0, .stream 0 (some .callback)), (1, .record (.ok [8]))] ∧
      ¬s.consumed <+: s.written :=
  ⟨_, rfl, by decide, by decide, by decide⟩

end EventLog.Network
