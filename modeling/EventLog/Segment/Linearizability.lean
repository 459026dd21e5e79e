import EventLog.Lib.Linearizable
import EventLog.Segment.Live
import EventLog.Segment.Readers

/-!
# The manager under concurrent callers

Any number of goroutines call `Append`, `ReadAt`, `NextOffset`, `EarliestOffset` and
`RunRetention` at once.  Every method has one critical section in which it is decided what it
does, and work outside the lock before it returns: an append commits its record, a read reads
the file of the segment it holds, a pass waits for readers and deletes files.

`Serves` is the log as one caller alone would see it.  The system simulates the atomic object
over it (`Tracks.step`): each call takes effect in its critical section, whatever else runs,
so that the answers are those of one sequential order of the calls.

An append whose fsync fails has taken effect all the same: it returns an error, and its record
stays in the log.
-/

namespace EventLog.Segments

open EventLog.Lib
open EventLog.Wal

/-! ## The log of one caller -/

/-- What one call does to the log, and what it returns. -/
inductive Serves : GrowingLog Bytes → Method → GrowingLog Bytes → Answer → Prop where
  | appended (l data) : data.length ≤ MaxRecordSize →
      Serves l (.append data) (l.append data) (.append (.ok l.payloads.length))
  /-- The record is in the log, but its fsync failed. -/
  | unsynced (l data) : data.length ≤ MaxRecordSize →
      Serves l (.append data) (l.append data) (.append (.error (.write .sync)))
  | refused (l data) : MaxRecordSize < data.length →
      Serves l (.append data) l (.append (.error (tooLarge data)))
  /-- The file system took nothing of the record. -/
  | unwritten (l data) : data.length ≤ MaxRecordSize →
      Serves l (.append data) l (.append (.error (.write (.reserve .write))))
  | read (l offset) : Serves l (.readAt offset) l (.readAt (.answered (l.readAt offset)))
  | nextOffset (l) : Serves l .nextOffset l (.offset l.payloads.length)
  | earliestOffset (l) : Serves l .earliestOffset l (.offset l.earliest)
  | retained (l earliest) (h : earliest ≤ l.payloads.length) : l.earliest ≤ earliest →
      Serves l .runRetention (l.retain earliest h) .done

/-! ## The system -/

/-- Where a caller stands. -/
inductive CallerPc where
  | entered
  /-- In phase 2 of `Append`, as a goroutine of a segment. -/
  | committing (segment goroutine offset : Nat)
  /-- In `ReadAt` with a segment. -/
  | reading (i : Nat)
  /-- In phase B of `RunRetention`. -/
  | deleting (j : Nat)
  /-- What it returns is settled. -/
  | leaving (r : Answer)
  | returned
  deriving DecidableEq

structure Caller where
  method : Method
  pc : CallerPc
  deriving DecidableEq

/-- The manager, its callers by number, and what they have seen. -/
structure Service where
  shared : Shared
  callers : List Caller
  history : List (CallEvent Method Answer)

/-- A step that is not a critical section of the manager. -/
def SharedEvent.isWork : SharedEvent → Bool
  | .route _ | .append .. | .detach _ => false
  | _ => true

inductive ServiceEvent where
  | invoke (m : Method)
  /-- Phase 1 of the `Append` of caller `c`. -/
  | reserve (c : Nat) (o : WriteOutcome) (now mtime : Int)
  /-- The `ReadAt` of caller `c` up to `RUnlock`. -/
  | route (c : Nat)
  | nextOffset (c : Nat)
  | earliestOffset (c : Nat)
  /-- Phase A of the `RunRetention` of caller `c`. -/
  | detach (c : Nat) (now : Int)
  /-- A step of a commit, a read or a pass. -/
  | work (e : SharedEvent)
  /-- What caller `c` waits for is done. -/
  | finish (c : Nat)
  | respond (c : Nat)

/-- No file write leaves a part of what was to be written. -/
def ServiceEvent.Atomic : ServiceEvent → Prop
  | .reserve _ o _ _ => o.Atomic
  | .work e => e.Atomic
  | _ => True

/-- A step inside a method, neither the call of one nor its return. -/
def ServiceEvent.isInner : ServiceEvent → Bool
  | .invoke _ | .respond _ => false
  | _ => true

/-- What `ReadAt` returns for an offset no segment owns. -/
def Manager.unrouted (m : Manager) (offset : Nat) : ReadAtError :=
  if offset < m.earliestOffset then .outOfRetention offset m.earliestOffset else .wal .eof

namespace Service

/-- The work of a caller that has left its critical section, once it is over. -/
def outcome (S : Service) : CallerPc → Option Answer
  | .committing k g offset => do
    let seg ← S.shared.segments[k]?
    let commit ← seg.log.commits[g]?
    match commit.pc with
    | .returned true => some (.append (.ok offset))
    | .returned false => some (.append (.error (.write .sync)))
    | _ => none
  | .reading i => do
    let call ← S.shared.calls[i]?
    match call.pc with
    | .returned r => some (.readAt r)
    | _ => none
  | .deleting j => do
    let pass ← S.shared.passes[j]?
    guard (pass.next = pass.stop)
    some .done
  | _ => none

/-- Caller `c` moves on. -/
def move (S : Service) (c : Nat) (x : Caller) (pc : CallerPc) : Service :=
  { S with callers := S.callers.set c { x with pc := pc } }

/-- One step; `none` when the event is not enabled. -/
def step (cs : Checksum) (S : Service) : ServiceEvent → Option Service
  | .invoke m =>
    some { S with
      callers := S.callers ++ [⟨m, .entered⟩]
      history := S.history ++ [.invoke S.callers.length m] }
  | .reserve c o now mtime => do
    let x ← S.callers[c]?
    match x.method, x.pc with
    | .append data, .entered =>
      let shared ← S.shared.step cs (.append data o now mtime)
      let pc :=
        match (S.shared.manager.reserve cs data o now mtime).2 with
        | .error e => .leaving (.append (.error e))
        -- the goroutine that was added last, in the segment that is active now
        | .ok offset => .committing (shared.detached.length + shared.manager.front.length)
            (shared.manager.active.log.commits.length - 1) offset
      some { S.move c x pc with shared := shared }
    | _, _ => none
  | .route c => do
    let x ← S.callers[c]?
    match x.method, x.pc with
    | .readAt offset, .entered =>
      let shared ← S.shared.step cs (.route offset)
      let pc :=
        match S.shared.manager.route offset with
        | none => .leaving (.readAt (.answered (.error (S.shared.manager.unrouted offset))))
        | some _ => .reading S.shared.calls.length
      some { S.move c x pc with shared := shared }
    | _, _ => none
  | .nextOffset c => do
    let x ← S.callers[c]?
    guard (x = ⟨.nextOffset, .entered⟩)
    some (S.move c x (.leaving (.offset S.shared.manager.nextOffset)))
  | .earliestOffset c => do
    let x ← S.callers[c]?
    guard (x = ⟨.earliestOffset, .entered⟩)
    some (S.move c x (.leaving (.offset S.shared.manager.earliestOffset)))
  | .detach c now => do
    let x ← S.callers[c]?
    guard (x = ⟨.runRetention, .entered⟩)
    let shared ← S.shared.step cs (.detach now)
    some { S.move c x (.deleting S.shared.passes.length) with shared := shared }
  | .work e => do
    guard e.isWork
    let shared ← S.shared.step cs e
    some { S with shared := shared }
  | .finish c => do
    let x ← S.callers[c]?
    let r ← S.outcome x.pc
    some (S.move c x (.leaving r))
  | .respond c => do
    let x ← S.callers[c]?
    match x.pc with
    | .leaving r =>
      some { S.move c x .returned with history := S.history ++ [.respond c r] }
    | _ => none

/-- What caller `c` is about to return. -/
def leaving (S : Service) (c : Nat) : Option Answer := do
  let x ← S.callers[c]?
  match x.pc with
  | .leaving r => some r
  | _ => none

/-- A manager nobody has called yet. -/
def opened (m : Manager) : Service := ⟨Shared.opened m, [], []⟩

end Service

variable {cs : Checksum} {S S' : Service} {e : ServiceEvent}

/-- Everything an event can do to the system. -/
inductive ServiceTransition (cs : Checksum) (S : Service) : ServiceEvent → Service → Prop where
  | invoked (m) : ServiceTransition cs S (.invoke m) { S with
      callers := S.callers ++ [⟨m, .entered⟩]
      history := S.history ++ [.invoke S.callers.length m] }
  | refused (c o now mtime data e shared) : S.callers[c]? = some ⟨.append data, .entered⟩ →
      S.shared.step cs (.append data o now mtime) = some shared →
      (S.shared.manager.reserve cs data o now mtime).2 = .error e →
      ServiceTransition cs S (.reserve c o now mtime)
        { S.move c ⟨.append data, .entered⟩ (.leaving (.append (.error e))) with
          shared := shared }
  | reserved (c o now mtime data offset k g shared) :
      S.callers[c]? = some ⟨.append data, .entered⟩ →
      S.shared.step cs (.append data o now mtime) = some shared →
      (S.shared.manager.reserve cs data o now mtime).2 = .ok offset →
      ServiceTransition cs S (.reserve c o now mtime)
        { S.move c ⟨.append data, .entered⟩ (.committing k g offset) with shared := shared }
  | unrouted (c offset) : S.callers[c]? = some ⟨.readAt offset, .entered⟩ →
      S.shared.manager.route offset = none →
      ServiceTransition cs S (.route c) (S.move c ⟨.readAt offset, .entered⟩
        (.leaving (.readAt (.answered (.error (S.shared.manager.unrouted offset))))))
  | routed (c offset i shared) : S.callers[c]? = some ⟨.readAt offset, .entered⟩ →
      S.shared.manager.route offset = some i → S.shared.step cs (.route offset) = some shared →
      ServiceTransition cs S (.route c)
        { S.move c ⟨.readAt offset, .entered⟩ (.reading S.shared.calls.length) with
          shared := shared }
  | nextOffset (c) : S.callers[c]? = some ⟨.nextOffset, .entered⟩ →
      ServiceTransition cs S (.nextOffset c)
        (S.move c ⟨.nextOffset, .entered⟩ (.leaving (.offset S.shared.manager.nextOffset)))
  | earliestOffset (c) : S.callers[c]? = some ⟨.earliestOffset, .entered⟩ →
      ServiceTransition cs S (.earliestOffset c) (S.move c ⟨.earliestOffset, .entered⟩
        (.leaving (.offset S.shared.manager.earliestOffset)))
  | detached (c now shared) : S.callers[c]? = some ⟨.runRetention, .entered⟩ →
      S.shared.step cs (.detach now) = some shared →
      ServiceTransition cs S (.detach c now)
        { S.move c ⟨.runRetention, .entered⟩ (.deleting S.shared.passes.length) with
          shared := shared }
  | worked (e shared) : e.isWork → S.shared.step cs e = some shared →
      ServiceTransition cs S (.work e) { S with shared := shared }
  | finished (c x r) : S.callers[c]? = some x → S.outcome x.pc = some r →
      ServiceTransition cs S (.finish c) (S.move c x (.leaving r))
  | responded (c x r) : S.callers[c]? = some x → x.pc = .leaving r →
      ServiceTransition cs S (.respond c)
        { S.move c x .returned with history := S.history ++ [.respond c r] }

/-- **Inversion of `Service.step`.** -/
theorem step_serviceTransition (h : S.step cs e = some S') : ServiceTransition cs S e S' := by
  -- each event is one critical section: its guards, the shared state after it, its caller's place
  cases e with
  | invoke m =>
    obtain rfl := Option.some.inj h
    exact .invoked m
  | reserve c o now mtime =>
    simp only [Service.step, Option.bind_eq_bind, Option.bind_eq_some_iff] at h
    obtain ⟨⟨method, pc⟩, hx, h⟩ := h
    split at h
    · rename_i data hmethod hpc
      obtain rfl : method = .append data := hmethod
      obtain rfl : pc = .entered := hpc
      simp only [Option.bind_eq_some_iff] at h
      obtain ⟨shared, hshared, h⟩ := h
      obtain rfl := Option.some.inj h
      -- the append may have been refused, and then its answer is fixed already
      cases hr : (S.shared.manager.reserve cs data o now mtime).2 with
      | error e => exact .refused c o now mtime data e shared hx hshared hr
      | ok offset => exact .reserved c o now mtime data offset _ _ shared hx hshared hr
    · cases h
  | route c =>
    simp only [Service.step, Option.bind_eq_bind, Option.bind_eq_some_iff] at h
    obtain ⟨⟨method, pc⟩, hx, h⟩ := h
    split at h
    · rename_i offset hmethod hpc
      obtain rfl : method = .readAt offset := hmethod
      obtain rfl : pc = .entered := hpc
      simp only [Option.bind_eq_some_iff] at h
      obtain ⟨shared, hshared, h⟩ := h
      obtain rfl := Option.some.inj h
      -- an offset no segment has is answered at once
      cases hroute : S.shared.manager.route offset with
      | none =>
        rw [Shared.step, hroute] at hshared
        obtain rfl := Option.some.inj hshared
        exact .unrouted c offset hx hroute
      | some i => exact .routed c offset i shared hx hroute hshared
    · cases h
  | nextOffset c =>
    simp only [Service.step, Option.bind_eq_bind, Option.bind_eq_some_iff,
      Option.guard_eq_some'] at h
    obtain ⟨x, hx, -, rfl, h⟩ := h
    obtain rfl := Option.some.inj h
    exact .nextOffset c hx
  | earliestOffset c =>
    simp only [Service.step, Option.bind_eq_bind, Option.bind_eq_some_iff,
      Option.guard_eq_some'] at h
    obtain ⟨x, hx, -, rfl, h⟩ := h
    obtain rfl := Option.some.inj h
    exact .earliestOffset c hx
  | detach c now =>
    simp only [Service.step, Option.bind_eq_bind, Option.bind_eq_some_iff,
      Option.guard_eq_some'] at h
    obtain ⟨x, hx, -, rfl, shared, hshared, h⟩ := h
    obtain rfl := Option.some.inj h
    exact .detached c now shared hx hshared
  | work e =>
    simp only [Service.step, Option.bind_eq_bind, Option.bind_eq_some_iff,
      Option.guard_eq_some'] at h
    obtain ⟨-, hwork, shared, hshared, h⟩ := h
    obtain rfl := Option.some.inj h
    exact .worked e shared hwork hshared
  | finish c =>
    simp only [Service.step, Option.bind_eq_bind, Option.bind_eq_some_iff] at h
    obtain ⟨x, hx, r, hr, h⟩ := h
    obtain rfl := Option.some.inj h
    exact .finished c x r hx hr
  | respond c =>
    simp only [Service.step, Option.bind_eq_bind, Option.bind_eq_some_iff] at h
    obtain ⟨x, hx, h⟩ := h
    split at h
    · rename_i r hpc
      obtain rfl := Option.some.inj h
      exact .responded c x r hx hpc
    · cases h

/-! ## Reads and commits while other calls run -/

section Frame

variable {T T' : Shared} {e : SharedEvent} {l : GrowingLog Bytes}

/-- No step takes a record from a segment, detached or not. -/
theorem SharedTransition.grown (h : ReadInv cs T) (he : e.Atomic)
    (ht : SharedTransition cs T e T') : Grown cs T.segments T'.segments := by
  cases ht with
  | unrouted | routed | read | released | drained => exact .of_eq rfl
  | appended data o now mtime m₁ log t hrolled hlog =>
    -- an append adds a record at the end of the active segment, or none
    have hactive : SegInv cs m₁.active := by
      cases hrolled with
      | kept => exact h.logs _ (List.mem_append_right _ (Manager.active_mem _))
      | rolled => exact .fresh cs _ mtime
    have hprefix : m₁.active.records cs <+:
        Segment.records cs { m₁.active with log := log, lastAppend := t } := by
      rcases (hactive.step t hlog he).2 with hrecs | ⟨data', o', -, hrecs⟩
      · exact hrecs ▸ List.prefix_rfl
      · exact hrecs ▸ List.prefix_append _ _
    exact (grown_of_rolled hrolled { m₁.active with log := log, lastAppend := t } rfl
      hprefix).append_left _
  -- a commit changes what is acknowledged, not what is stored
  | committed k e seg log hseg hcommit hlog =>
    have hsame := (h.logs seg (List.mem_of_getElem? hseg)).sameRecords_commit hcommit hlog he
    rw [segments_setSegment_shared hseg]
    exact Grown.set hseg hsame.base (hsame.records ▸ List.prefix_rfl)
  | detached now => exact .of_eq (segments_detach T now _)
  | closed j closeOk syncOk idx p v p' hp hpc hv =>
    have hseg := getElem?_segments_of_detached hv
    have hsame := (h.logs v.seg (List.mem_of_getElem? hseg)).close syncOk he
    rw [segments_set_detached hv]
    exact Grown.set hseg hsame.base (hsame.records ▸ List.prefix_rfl)
  | removed j ok p v hp hpc hv =>
    have hseg := getElem?_segments_of_detached hv
    rw [segments_set_detached hv]
    exact Grown.set hseg rfl List.prefix_rfl

/-- A read keeps its number, its offset and its segment. -/
theorem SharedTransition.getElem?_calls (ht : SharedTransition cs T e T') {i : Nat} {c : Call}
    (hc : T.calls[i]? = some c) : ∃ pc, T'.calls[i]? = some { c with pc := pc } := by
  have hlt := (List.getElem?_eq_some_iff.mp hc).1
  have hset : ∀ {j : Nat} {c' : Call} {pc : CallPc}, T.calls[j]? = some c' →
      ∃ pc', (T.calls.set j { c' with pc := pc })[i]? = some { c with pc := pc' } := by
    intro j c' pc hc'
    -- the call of the event, or another one
    by_cases hij : j = i
    · subst hij
      obtain rfl := Option.some.inj (hc'.symm.trans hc)
      exact ⟨pc, List.getElem?_set_self hlt⟩
    · exact ⟨c.pc, (List.getElem?_set_ne hij).trans hc⟩
  cases ht with
  | routed => exact ⟨c.pc, (List.getElem?_append_left hlt).trans hc⟩
  | read j c' seg hc' => exact hset hc'
  | released j c' r hc' => exact hset hc'
  | committed k e seg log =>
    rw [(setSegment_frame T k _).2.1]
    exact ⟨c.pc, hc⟩
  | unrouted | appended | detached | drained | closed | removed => exact ⟨c.pc, hc⟩

/-- Work outside the critical sections does not show. -/
theorem Represents.work (h : Represents cs T.manager l) (hlogs : ∀ s ∈ T.segments, SegInv cs s)
    (he : e.Atomic) (hwork : e.isWork = true) (ht : SharedTransition cs T e T') :
    Represents cs T'.manager l := by
  cases ht with
  | read | released | drained | closed | removed => exact h
  | committed k e seg log hseg hcommit hlog =>
    have hsame := (hlogs seg (List.mem_of_getElem? hseg)).sameRecords_commit hcommit hlog he
    -- the commit was in a detached segment, which is no part of the log any more
    unfold Shared.setSegment
    split
    · exact h
    · -- the segment is a live one
      rename_i hnone
      have hle : (T.detached.map Detached.seg).length ≤ k := by
        simpa using List.getElem?_eq_none_iff.mp hnone
      rw [Shared.segments, List.getElem?_append_right hle, List.length_map] at hseg
      refine h.congr ?_
      rw [segments_setSegment hseg]
      exact forall₂_set SameRecords.refl hseg hsame
  | unrouted | routed | appended | detached => cases hwork

theorem Shared.Stores.unique {k o : Nat} {d d' : Bytes} (h : T.Stores cs k o d)
    (h' : T.Stores cs k o d') : d = d' := by
  obtain ⟨s, hs, i, ho, hd⟩ := h
  obtain ⟨s', hs', i', ho', hd'⟩ := h'
  obtain rfl := Option.some.inj (hs.symm.trans hs')
  obtain rfl : i = i' := by omega
  exact Option.some.inj (hd.symm.trans hd')

end Frame

theorem segmentFor_eq_bind_route (m : Manager) (offset : Nat) :
    m.segmentFor offset = (m.route offset).bind fun i => m.segments[i]? := by
  rw [Manager.segmentFor, Manager.route]
  split_ifs with hzero
  · rfl
  · -- the segment found by the search may end before the offset
    cases hseg : m.segments[searchAbove (m.segments.map Segment.baseOffset) offset - 1]? with
    | none => rfl
    | some seg =>
      simp only
      split_ifs with hcont
      · exact hseg.symm
      · rfl

/-- A read that no segment owns. -/
theorem readAt_of_route_eq_none {m : Manager} {offset : Nat} (h : m.route offset = none) :
    m.readAt cs offset = .error (m.unrouted offset) := by
  rw [Manager.readAt, segmentFor_eq_bind_route, h, Option.bind_none, Manager.unrouted]
  split_ifs <;> rfl

/-- Why phase 1 of `Append` fails. -/
theorem reserve_answer {m m' : Manager} {data : Bytes} {o : WriteOutcome} {now mtime : Int}
    {r : Except AppendError Nat} (h : m.reserve cs data o now mtime = (m', r)) :
    (MaxRecordSize < data.length ∧ r = .error (tooLarge data)) ∨
      data.length ≤ MaxRecordSize ∧
        (r = .error (.write (.reserve .write)) ∨ ∃ offset, r = .ok offset) := by
  have hout := reserve_appendOutcome cs m data o now mtime
  rw [h] at hout
  -- the three outcomes of the writer
  have hreserve : ∀ {w log : OpenLog} {r : Except ReserveError (Nat × Nat)},
      w.reserve cs data o = (log, r) →
      (MaxRecordSize < data.length ∧ r = .error (.tooLarge data.length MaxRecordSize)) ∨
        data.length ≤ MaxRecordSize ∧ (r = .error .write ∨ ∃ p, r = .ok p) := by
    intro w log r hr
    have hout := reserve_outcome cs w.writer data o
    unfold OpenLog.reserve at hr
    generalize w.writer.reserve cs data o = p at hr hout
    obtain ⟨writer, res⟩ := p
    cases hout with
    | tooLarge hl => exact .inl ⟨hl, (Prod.mk.inj hr).2.symm⟩
    | failed k hd => exact .inr ⟨hd, .inl (Prod.mk.inj hr).2.symm⟩
    | reserved hd => exact .inr ⟨hd, .inr ⟨_, (Prod.mk.inj hr).2.symm⟩⟩
  cases hout with
  | failed m₁ log e hrolled hlog =>
    rcases hreserve hlog with ⟨hl, heq⟩ | ⟨hd, heq | ⟨p, heq⟩⟩
    · exact .inl ⟨hl, by rw [Except.error.inj heq]; rfl⟩
    · exact .inr ⟨hd, .inl (by rw [Except.error.inj heq])⟩
    · cases heq
  | reserved m₁ log localOffset seq hrolled hlog =>
    rcases hreserve hlog with ⟨-, heq⟩ | ⟨hd, -⟩
    · cases heq
    · exact .inr ⟨hd, .inr ⟨_, rfl⟩⟩

/-- Phase 1 of `Append` gives an error of the specification and leaves the log, or the record
    is the last one of the log. -/
theorem Represents.reserve_serves {m m' : Manager} {l : GrowingLog Bytes} (h : Represents cs m l)
    {data : Bytes} {o : WriteOutcome} (ho : o.Atomic) {now mtime : Int}
    {r : Except AppendError Nat} (hres : m.reserve cs data o now mtime = (m', r)) :
    (∃ e, r = .error e ∧ Represents cs m' l ∧
        Serves l (.append data) l (.append (.error e))) ∨
      r = .ok l.payloads.length ∧ Represents cs m' (l.append data) ∧
        data.length ≤ MaxRecordSize := by
  have hanswer := reserve_answer hres
  rcases h.reserve ho hres with ⟨e, rfl, hrep⟩ | ⟨rfl, hrep⟩
  · refine .inl ⟨e, rfl, hrep, ?_⟩
    rcases hanswer with ⟨hl, heq⟩ | ⟨hd, heq | ⟨_, heq⟩⟩
    · rw [heq]
      exact .refused l data hl
    · rw [heq]
      exact .unwritten l data hd
    · cases heq
  · rcases hanswer with ⟨-, heq⟩ | ⟨hd, -⟩
    · cases heq
    · exact .inr ⟨rfl, hrep, hd⟩

/-! ## The simulation -/

/-- The caller is where the atomic object has its call. -/
inductive Caller.At (cs : Checksum) (T : Shared) :
    Caller → Phase (GrowingLog Bytes) Method → Prop where
  | entered (m) : Caller.At cs T ⟨m, .entered⟩ (.pending m)
  | committing (data k g l) : data.length ≤ MaxRecordSize →
      Caller.At cs T ⟨.append data, .committing k g l.payloads.length⟩
        (.applied (.append data) l (l.append data))
  /-- The segment holds what the log had at the offset when the call was routed. -/
  | reading (i c d l) : T.calls[i]? = some c → T.Stores cs c.segment c.offset d →
      l.readAt c.offset = .ok d →
      Caller.At cs T ⟨.readAt c.offset, .reading i⟩ (.applied (.readAt c.offset) l l)
  | deleting (m j l l') : Serves l m l' .done →
      Caller.At cs T ⟨m, .deleting j⟩ (.applied m l l')
  | leaving (m r l l') : Serves l m l' r → Caller.At cs T ⟨m, .leaving r⟩ (.applied m l l')
  | returned (m) : Caller.At cs T ⟨m, .returned⟩ .returned

/-- The atomic object in the state of the system. -/
structure Tracks (cs : Checksum) (S : Service) (s : AtomicState (GrowingLog Bytes) Method) :
    Prop where
  represents : Represents cs S.shared.manager s.state
  reads : ReadInv cs S.shared
  callers : ∀ c (x : Caller), S.callers[c]? = some x → x.At cs S.shared (s.phase c)
  fresh : ∀ c, S.callers.length ≤ c → s.phase c = .fresh

variable {s : AtomicState (GrowingLog Bytes) Method}

/-- What other calls do leaves a caller where it is. -/
theorem Caller.At.step {T T' : Shared} {e : SharedEvent} {x : Caller}
    {p : Phase (GrowingLog Bytes) Method} (h : x.At cs T p) (hreads : ReadInv cs T)
    (he : e.Atomic) (ht : SharedTransition cs T e T') : x.At cs T' p := by
  cases h with
  | entered m => exact .entered m
  | committing data k g l hlen => exact .committing data k g l hlen
  -- what the segment of a read holds is still there after any step
  | reading i c d l hc hstores hread =>
    obtain ⟨pc, hc'⟩ := ht.getElem?_calls hc
    exact .reading i { c with pc := pc } d l hc' (hstores.grown (ht.grown hreads he)) hread
  | deleting m j l l' hserves => exact .deleting m j l l' hserves
  | leaving m r l l' hserves => exact .leaving m r l l' hserves
  | returned m => exact .returned m

/-- Caller `c` moves on and with it its call, and the shared state may change. -/
theorem Tracks.moved (h : Tracks cs S s) {c : Nat} {x : Caller} (hx : S.callers[c]? = some x)
    {T : Shared} {pc : CallerPc} {l : GrowingLog Bytes} {p : Phase (GrowingLog Bytes) Method}
    (hrep : Represents cs T.manager l) (hreads : ReadInv cs T)
    (hkeep : ∀ y q, Caller.At cs S.shared y q → y.At cs T q)
    (hat : Caller.At cs T { x with pc := pc } p) (hist : List (CallEvent Method Answer)) :
    Tracks cs ⟨T, S.callers.set c { x with pc := pc }, hist⟩
      { s.setPhase c p with state := l } := by
  have hlt := (List.getElem?_eq_some_iff.mp hx).1
  refine ⟨hrep, hreads, fun c' y hy => ?_, fun c' hc' => ?_⟩
  · -- the caller that moved, or another one
    by_cases hcc : c = c'
    · subst hcc
      rw [List.getElem?_set_self hlt] at hy
      obtain rfl := Option.some.inj hy
      simp only [AtomicState.setPhase, Function.update_self]
      exact hat
    · rw [List.getElem?_set_ne hcc] at hy
      simp only [AtomicState.setPhase, Function.update_of_ne (Ne.symm hcc)]
      exact hkeep y _ (h.callers c' y hy)
  · rw [List.length_set] at hc'
    simp only [AtomicState.setPhase, Function.update_of_ne (show c' ≠ c by omega)]
    exact h.fresh c' hc'

/-- A caller in its critical section: its call takes effect. -/
theorem Tracks.takesEffect (h : Tracks cs S s) {c : Nat} {m : Method}
    (hx : S.callers[c]? = some ⟨m, .entered⟩) {T : Shared} {pc : CallerPc}
    {l : GrowingLog Bytes} {r : Answer} (hrep : Represents cs T.manager l)
    (hreads : ReadInv cs T) (hkeep : ∀ y q, Caller.At cs S.shared y q → y.At cs T q)
    (hserves : Serves s.state m l r) (hat : Caller.At cs T ⟨m, pc⟩ (.applied m s.state l)) :
    ∃ es s', AtomicStep Serves s es s' ∧ S.history = S.history ++ es ∧
      Tracks cs ⟨T, S.callers.set c ⟨m, pc⟩, S.history⟩ s' := by
  -- a caller that has entered has a pending call, which takes effect now
  have hpending : s.phase c = .pending m := by
    have hat := h.callers c _ hx
    generalize s.phase c = p at hat
    cases hat
    rfl
  exact ⟨[], _, .apply l r hpending hserves, (List.append_nil _).symm,
    h.moved hx hrep hreads hkeep hat S.history⟩

/-- A call that changes nothing is answered in its critical section. -/
theorem Tracks.answered (h : Tracks cs S s) {c : Nat} {m : Method} {r : Answer}
    (hx : S.callers[c]? = some ⟨m, .entered⟩) (hserves : Serves s.state m s.state r) :
    ∃ es s', AtomicStep Serves s es s' ∧ S.history = S.history ++ es ∧
      Tracks cs ⟨S.shared, S.callers.set c ⟨m, .leaving r⟩, S.history⟩ s' :=
  h.takesEffect hx h.represents h.reads (fun _ _ hy => hy) hserves (.leaving _ _ _ _ hserves)

/-- A caller is done with its work: it returns what its effect allows. -/
theorem Tracks.outcome (h : Tracks cs S s) {c : Nat} {x : Caller} {r : Answer}
    (hx : S.callers[c]? = some x) (hr : S.outcome x.pc = some r) :
    Caller.At cs S.shared { x with pc := .leaving r } (s.phase c) := by
  have hat := h.callers c x hx
  generalize s.phase c = p at hat
  cases hat with
  -- an append takes effect when it is reserved; the sync decides only about its answer
  | committing data k g l hlen =>
    simp only [Service.outcome, Option.bind_eq_bind, Option.bind_eq_some_iff] at hr
    obtain ⟨seg, -, commit, -, hr⟩ := hr
    split at hr
    · obtain rfl := Option.some.inj hr
      exact .leaving _ _ _ _ (.appended l data hlen)
    · obtain rfl := Option.some.inj hr
      exact .leaving _ _ _ _ (.unsynced l data hlen)
    · cases hr
  | reading i call d l hcall hstores hread =>
    simp only [Service.outcome, Option.bind_eq_bind, Option.bind_eq_some_iff] at hr
    obtain ⟨call', hcall', hr⟩ := hr
    obtain rfl := Option.some.inj (hcall.symm.trans hcall')
    split at hr
    · rename_i res hpc
      obtain rfl := Option.some.inj hr
      -- the read returned the record its segment holds
      obtain ⟨d', hd', hpc'⟩ := h.reads.calls call (List.mem_of_getElem? hcall)
      rw [hpc] at hpc'
      have hres : res = .answered (.ok d') := by
        rcases hpc' with hpc' | hpc' | hpc'
        · cases hpc'
        · cases hpc'
        · exact CallPc.returned.inj hpc'
      rw [hres, ← hstores.unique hd', ← hread]
      exact .leaving _ _ _ _ (.read l call.offset)
    · cases hr
  -- a retention takes effect when the segments are detached
  | deleting m j l l' hserves =>
    simp only [Service.outcome, Option.bind_eq_bind, Option.bind_eq_some_iff,
      Option.guard_eq_some'] at hr
    obtain ⟨pass, -, -, -, hr⟩ := hr
    obtain rfl := Option.some.inj hr
    exact .leaving _ _ _ _ hserves
  | entered | leaving | returned => cases hr

/-- **Step lemma**: the system simulates the atomic object. -/
theorem Tracks.step (h : Tracks cs S s) (he : e.Atomic) (ht : ServiceTransition cs S e S') :
    ∃ es s', AtomicStep Serves s es s' ∧ S'.history = S.history ++ es ∧ Tracks cs S' s' := by
  have hkeep : ∀ {e : SharedEvent} {T : Shared}, e.Atomic → SharedTransition cs S.shared e T →
      ∀ y q, Caller.At cs S.shared y q → y.At cs T q :=
    fun he ht y q hy => hy.step h.reads he ht
  cases ht with
  | invoked m =>
    refine ⟨_, _, .invoke m (h.fresh _ le_rfl), rfl, h.represents, h.reads,
      fun c x hx => ?_, fun c hc => ?_⟩
    · -- the new call is the next one, and the others are where they were
      by_cases hc : c = S.callers.length
      · subst hc
        rw [List.getElem?_concat_length] at hx
        obtain rfl := Option.some.inj hx
        simp only [AtomicState.setPhase, Function.update_self]
        exact .entered m
      · have hlt := (List.getElem?_eq_some_iff.mp hx).1
        rw [List.length_append, List.length_singleton] at hlt
        rw [List.getElem?_append_left (by omega)] at hx
        simp only [AtomicState.setPhase, Function.update_of_ne hc]
        exact h.callers c x hx
    · rw [List.length_append, List.length_singleton] at hc
      simp only [AtomicState.setPhase,
        Function.update_of_ne (show c ≠ S.callers.length by omega)]
      exact h.fresh c (by omega)
  -- a refused append leaves the log, and may answer at any time
  | refused c o now mtime data err T hx hT hr =>
    have ht := step_sharedTransition hT
    have hwrite : SharedEvent.Atomic (.append data o now mtime) := he
    obtain rfl := Option.some.inj hT
    have hres : S.shared.manager.reserve cs data o now mtime =
        ((S.shared.manager.reserve cs data o now mtime).1, .error err) := by rw [← hr]
    rcases h.represents.reserve_serves he hres with ⟨_, herr, hrep, hserves⟩ | ⟨hok, -⟩
    · obtain rfl := Except.error.inj herr
      rw [← appendStep_fst] at hrep
      exact h.takesEffect hx hrep (h.reads.step hwrite ht) (hkeep hwrite ht) hserves
        (.leaving _ _ _ _ hserves)
    · cases hok
  -- the record is in the log from here on, before its commit
  | reserved c o now mtime data offset k g T hx hT hr =>
    have ht := step_sharedTransition hT
    have hwrite : SharedEvent.Atomic (.append data o now mtime) := he
    obtain rfl := Option.some.inj hT
    have hres : S.shared.manager.reserve cs data o now mtime =
        ((S.shared.manager.reserve cs data o now mtime).1, .ok offset) := by rw [← hr]
    rcases h.represents.reserve_serves he hres with ⟨_, herr, -⟩ | ⟨hok, hrep, hlen⟩
    · cases herr
    · obtain rfl := Except.ok.inj hok
      rw [← appendStep_fst] at hrep
      exact h.takesEffect hx hrep (h.reads.step hwrite ht) (hkeep hwrite ht)
        (.appended s.state data hlen) (.committing data k g s.state hlen)
  -- the log answers the read here, with an error
  | unrouted c offset hx hroute =>
    have hread := h.represents.readAt offset
    rw [readAt_of_route_eq_none hroute] at hread
    have hserves := Serves.read s.state offset
    rw [← hread] at hserves
    exact h.answered hx hserves
  | routed c offset i T hx hroute hT =>
    have ht := step_sharedTransition hT
    have hreads := h.reads.step (e := .route offset) trivial ht
    have hkept := hkeep (e := .route offset) trivial ht
    -- what the segment holds is what the log answers at this moment
    obtain ⟨d, hstores⟩ := h.reads.stores_of_route hroute
    have hread : s.state.readAt offset = .ok d := by
      obtain ⟨seg, hseg, k, ho, hd⟩ := hstores
      rw [Shared.segments, List.getElem?_append_right (by simp), List.length_map,
        Nat.add_sub_cancel_left] at hseg
      rw [← h.represents.readAt, ho]
      exact h.represents.inv.readAt (List.mem_of_getElem? hseg) hd
    rw [Shared.step, hroute] at hT
    obtain rfl := Option.some.inj hT
    exact h.takesEffect hx h.represents hreads hkept (.read s.state offset)
      (.reading _ ⟨offset, S.shared.detached.length + i, .acquired⟩ d _
        List.getElem?_concat_length hstores hread)
  | nextOffset c hx =>
    have hserves := Serves.nextOffset s.state
    rw [← h.represents.next] at hserves
    exact h.answered hx hserves
  | earliestOffset c hx =>
    have hserves := Serves.earliestOffset s.state
    rw [← h.represents.earliest] at hserves
    exact h.answered hx hserves
  -- the log is cut here; the deletions that follow only clean up
  | detached c now T hx hT =>
    have ht := step_sharedTransition hT
    have hreads := h.reads.step (e := .detach now) trivial ht
    have hkept := hkeep (e := .detach now) trivial ht
    obtain rfl := Option.some.inj hT
    obtain ⟨earliest, hle, hlow, hrep⟩ := h.represents.runRetention now
    have hserves := Serves.retained s.state earliest hle hlow
    exact h.takesEffect hx hrep hreads hkept hserves (.deleting _ _ _ _ hserves)
  -- work on segments inside or outside the log does not change what it answers
  | worked e T hwork hT =>
    have ht := step_sharedTransition hT
    exact ⟨[], s, .idle, (List.append_nil _).symm, h.represents.work h.reads.logs he hwork ht,
      h.reads.step he ht, fun c x hx => hkeep he ht x _ (h.callers c x hx), h.fresh⟩
  -- the outcome is known, and is an answer the specification gave
  | finished c x r hx hr =>
    refine ⟨[], s, .idle, (List.append_nil _).symm, ?_⟩
    have hmoved := h.moved hx h.represents h.reads (fun _ _ hy => hy) (h.outcome hx hr) S.history
    rwa [AtomicState.setPhase, Function.update_eq_self] at hmoved
  | responded c x r hx hpc =>
    obtain ⟨m, pc⟩ := x
    obtain rfl : pc = .leaving r := hpc
    generalize hp : s.phase c = p
    have hat := h.callers c _ hx
    rw [hp] at hat
    cases hat with
    -- the answer was justified when the call took effect
    | leaving _ _ l l' hserves =>
      exact ⟨_, _, .respond r hp hserves, rfl,
        h.moved hx h.represents h.reads (fun _ _ hy => hy) (.returned m) _⟩

/-! ## The manager inside a larger system

What the three kinds of steps do to the atomic object. -/

/-- A method is called. -/
theorem Tracks.invoke (h : Tracks cs S s) {m : Method} (hstep : S.step cs (.invoke m) = some S') :
    Tracks cs S' (s.setPhase S.callers.length (.pending m)) ∧
      s.phase S.callers.length = .fresh ∧ S'.callers.length = S.callers.length + 1 := by
  have ht := step_serviceTransition hstep
  obtain ⟨es, s', hatom, hhist, htracks⟩ := h.step (e := .invoke m) trivial ht
  obtain rfl := Option.some.inj hstep
  obtain rfl := List.append_cancel_left hhist
  cases hatom with
  | invoke _ hfresh => exact ⟨htracks, hfresh, List.length_append⟩

/-- A method returns. -/
theorem Tracks.respond (h : Tracks cs S s) {c : Nat} {r : Answer} (hr : S.leaving c = some r)
    (hstep : S.step cs (.respond c) = some S') :
    ∃ s', AtomicStep Serves s [.respond c r] s' ∧ Tracks cs S' s' ∧
      S'.callers.length = S.callers.length := by
  have ht := step_serviceTransition hstep
  obtain ⟨es, s', hatom, hhist, htracks⟩ := h.step (e := .respond c) trivial ht
  cases ht with
  | responded _ x r' hx hpc =>
    -- the answer is the one the caller was about to give
    have hr' : S.leaving c = some r' := by simp [Service.leaving, hx, hpc]
    obtain rfl := Option.some.inj (hr.symm.trans hr')
    obtain rfl := List.append_cancel_left hhist
    exact ⟨s', hatom, htracks, List.length_set ..⟩

/-- Work inside the methods. -/
theorem Tracks.inner (h : Tracks cs S s) (hinner : e.isInner = true) (he : e.Atomic)
    (hstep : S.step cs e = some S') :
    ∃ s', AtomicStep Serves s [] s' ∧ Tracks cs S' s' ∧
      S'.callers.length = S.callers.length := by
  have ht := step_serviceTransition hstep
  obtain ⟨es, s', hatom, hhist, htracks⟩ := h.step he ht
  have hsame : S'.history = S.history ∧ S'.callers.length = S.callers.length := by
    cases ht with
    | invoked | responded => cases hinner
    | worked => exact ⟨rfl, rfl⟩
    -- no event of this kind is seen in the history
    | refused | reserved | unrouted | routed | nextOffset | earliestOffset | detached |
        finished => exact ⟨rfl, List.length_set ..⟩
  obtain rfl : es = [] := List.append_cancel_left
    (hhist.symm.trans (hsame.1.trans (List.append_nil _).symm))
  exact ⟨s', hatom, htracks, hsame.2⟩

/-! ## Linearizability -/

theorem Tracks.opened {m : Manager} {l : GrowingLog Bytes} (h : Represents cs m l) :
    Tracks cs (Service.opened m) ⟨l, fun _ => .fresh⟩ where
  represents := h
  reads :=
    { refs := ⟨fun _ => rfl, by simp [Service.opened, Shared.opened],
        by simp [Service.opened, Shared.opened],
        by simp [Shared.touched, Service.opened, Shared.opened]⟩
      logs := h.inv.logs
      calls := by simp [Service.opened, Shared.opened] }
  callers c x hx := by simp [Service.opened] at hx
  fresh _ _ := rfl

/-- **Run lemma**: a run of the system shows what a run of the atomic object shows. -/
theorem Tracks.run {m : Manager} {l : GrowingLog Bytes} (h : Represents cs m l)
    {es : List ServiceEvent} (hatomic : ∀ e ∈ es, e.Atomic)
    (hrun : run (Service.step cs) (Service.opened m) es = some S) :
    ∃ s, AtomicRun Serves l S.history s ∧ Tracks cs S s := by
  refine run_invariant (I := fun S : Service => ∃ s, AtomicRun Serves l S.history s ∧
    Tracks cs S s) ?_ ⟨_, .init, .opened h⟩ (along_of_forall hatomic) hrun
  rintro S₁ e S₂ ⟨s, hs, htracks⟩ he hstep
  obtain ⟨evs, s', hatom, hist, htracks'⟩ := htracks.step he (step_serviceTransition hstep)
  exact ⟨s', hist ▸ hs.step hatom, htracks'⟩

instance : Nonempty Answer := ⟨.done⟩

end EventLog.Segments
