import EventLog.Segment.Refinement

/-!
# The log in service

Producers in either phase of `Append`, rolls, `RunRetention` passes, clean restarts and
crashes, in any order.  `appended` keeps the payloads by the offsets `Append` gave them; a
crash may lose the last ones, whose offsets are then given out again.  A crash that cuts a
sealed segment leaves a gap between segments and is not among the events.

Whatever runs, the manager represents a list of which retention hides a front part.  While
the process runs the list only grows, and the payload at an offset never changes.
-/

namespace EventLog.Segments

open EventLog.Lib
open EventLog.Wal

/-! ## The system -/

/-- The manager, and every payload a producer got an offset for. -/
structure LiveLog where
  manager : Manager
  appended : List (Nat × Bytes)
  deriving DecidableEq, Repr

inductive LiveEvent where
  /-- Phase 1 of an `Append`. -/
  | append (data : Bytes) (o : WriteOutcome) (now mtime : Int)
  /-- A step of a goroutine in phase 2, in segment `i`. -/
  | commit (i : Nat) (e : LogEvent)
  | runRetention (now : Int)
  /-- `Close`, then `Open`. -/
  | restart (cfg : Config) (mtime : Nat → Int)
  /-- A crash that keeps the records of sealed segments, and `Open` on what it left. -/
  | crash (cut : Nat → Cut)

/-- No file write leaves a part of what was to be written. -/
def LiveEvent.Atomic : LiveEvent → Prop
  | .append _ o _ _ => o.Atomic
  | .commit _ e => e.Atomic
  | _ => True

/-- What happens while the process runs. -/
def LiveEvent.InService : LiveEvent → Prop
  | .append .. | .commit .. | .runRetention _ => True
  | .restart .. | .crash _ => False

/-- One step; `none` when the event is not enabled. -/
def LiveLog.step (cs : Checksum) (L : LiveLog) : LiveEvent → Option LiveLog
  | .append data o now mtime =>
    let p := L.manager.appendStep cs data o now mtime
    some { manager := p.1, appended := L.appended ++ p.2 }
  | .commit i e => do
    let m ← L.manager.commitStep cs i e
    some { L with manager := m }
  | .runRetention now => some { L with manager := L.manager.runRetention now }
  | .restart cfg mtime =>
    match L.manager.restart cs cfg mtime with
    | .error _ => none
    | .ok m => some { L with manager := m }
  | .crash cut => do
    guard (L.manager.MaySurvive cut ∧
      ∀ s ∈ L.manager.front, s.size ≤ (cut s.baseOffset).log)
    match L.manager.reopen cs cut with
    | .error _ => none
    | .ok m => some { manager := m, appended := L.appended.filter (·.1 < m.nextOffset) }

/-- A log that started with `Open` on a new directory. -/
def LiveLog.Reached (cs : Checksum) (cfg : Config) (mtime : Int) (L : LiveLog) : Prop :=
  ∃ m es, Manager.create cs cfg mtime = .ok m ∧ (∀ e ∈ es, LiveEvent.Atomic e) ∧
    run (LiveLog.step cs) ⟨m, []⟩ es = some L

/-- The one is a later moment of the other, and the process ran on in between. -/
def LiveLog.Leads (cs : Checksum) (L L' : LiveLog) : Prop :=
  ∃ es, (∀ e ∈ es, LiveEvent.Atomic e ∧ e.InService) ∧ run (LiveLog.step cs) L es = some L'

variable {cs : Checksum} {L L' : LiveLog}

/-- Everything an event can do to the log. -/
inductive LiveTransition (cs : Checksum) (L : LiveLog) : LiveEvent → LiveLog → Prop where
  | appended (data o now mtime m offset) :
      L.manager.reserve cs data o now mtime = (m, .ok offset) →
      LiveTransition cs L (.append data o now mtime)
        { manager := m, appended := L.appended ++ [(offset, data)] }
  | refused (data o now mtime m err) :
      L.manager.reserve cs data o now mtime = (m, .error err) →
      LiveTransition cs L (.append data o now mtime) { L with manager := m }
  | committed (i e seg log) : L.manager.segments[i]? = some seg → e.isCommit →
      LogTransition cs seg.log e log →
      LiveTransition cs L (.commit i e)
        { L with manager := L.manager.setSegment i { seg with log := log } }
  | retained (now) :
      LiveTransition cs L (.runRetention now) { L with manager := L.manager.runRetention now }
  | restarted (cfg mtime m) : L.manager.restart cs cfg mtime = .ok m →
      LiveTransition cs L (.restart cfg mtime) { L with manager := m }
  | crashed (cut m) : L.manager.MaySurvive cut →
      (∀ s ∈ L.manager.front, s.size ≤ (cut s.baseOffset).log) →
      L.manager.reopen cs cut = .ok m →
      LiveTransition cs L (.crash cut)
        { manager := m, appended := L.appended.filter (·.1 < m.nextOffset) }

/-- **Inversion of `LiveLog.step`.** -/
theorem step_liveTransition {e : LiveEvent} (h : L.step cs e = some L') :
    LiveTransition cs L e L' := by
  cases e with
  | append data o now mtime =>
    -- only a reservation that succeeded appends to the record
    rcases hres : L.manager.reserve cs data o now mtime with ⟨m, err | offset⟩
    · simp only [LiveLog.step, Manager.appendStep, hres, List.append_nil] at h
      obtain rfl := Option.some.inj h
      exact .refused data o now mtime m err hres
    · simp only [LiveLog.step, Manager.appendStep, hres] at h
      obtain rfl := Option.some.inj h
      exact .appended data o now mtime m offset hres
  | commit i e =>
    obtain ⟨m, hm, h⟩ := Option.bind_eq_some_iff.mp h
    obtain ⟨seg, log, hseg, hcommit, hlog, rfl⟩ := of_commitStep hm
    obtain rfl := Option.some.inj h
    exact .committed i e seg log hseg hcommit hlog
  | runRetention now =>
    obtain rfl := Option.some.inj h
    exact .retained now
  | restart cfg mtime =>
    simp only [LiveLog.step] at h
    split at h
    · cases h
    · obtain rfl := Option.some.inj h
      exact .restarted cfg mtime _ ‹_›
  | crash cut =>
    simp only [LiveLog.step, Option.bind_eq_bind, Option.bind_eq_some_iff,
      Option.guard_eq_some'] at h
    obtain ⟨-, ⟨hcut, hsealed⟩, h⟩ := h
    -- a crash the log cannot be opened after is no step
    split at h
    · cases h
    · obtain rfl := Option.some.inj h
      exact .crashed cut _ hcut hsealed ‹_›

/-! ## The invariant -/

/-- The manager represents a list whose payloads are the ones appended. -/
def LiveInv (cs : Checksum) (L : LiveLog) : Prop :=
  ∃ l : GrowingLog Bytes, Represents cs L.manager l ∧
    ∀ o d, (o, d) ∈ L.appended ↔ l.payloads[o]? = some d

theorem LiveInv.init {cfg : Config} {mtime : Int} {m : Manager}
    (hcreate : Manager.create cs cfg mtime = .ok m) : LiveInv cs ⟨m, []⟩ := by
  rw [Manager.create, Segment.create_eq] at hcreate
  obtain rfl := Except.ok.inj hcreate
  exact ⟨.empty, Represents.init cs cfg.settings mtime, fun o d => by simp [GrowingLog.empty]⟩

/-- No offset is given out twice. -/
theorem LiveInv.unique (h : LiveInv cs L) {o : Nat} {d d' : Bytes} (hd : (o, d) ∈ L.appended)
    (hd' : (o, d') ∈ L.appended) : d = d' := by
  obtain ⟨l, -, happended⟩ := h
  exact Option.some.inj (((happended o d).mp hd).symm.trans ((happended o d').mp hd'))

/-- What is read at an offset is what was appended there. -/
theorem LiveInv.of_readAt (h : LiveInv cs L) {o : Nat} {d : Bytes}
    (hread : L.manager.readAt cs o = .ok d) : (o, d) ∈ L.appended := by
  obtain ⟨l, hrep, happended⟩ := h
  rw [hrep.readAt, GrowingLog.readAt] at hread
  refine (happended o d).mpr ?_
  split_ifs at hread
  split at hread
  · obtain rfl := Except.ok.inj hread
    assumption
  · cases hread

/-- A read that finds the end of the log is at `NextOffset` or behind it. -/
theorem LiveInv.of_readAt_eof (h : LiveInv cs L) {o : Nat} {e : ReadAtError}
    (hread : L.manager.readAt cs o = .error e) (heof : e.isEOF = true) :
    L.manager.nextOffset ≤ o := by
  obtain ⟨l, hrep, -⟩ := h
  rw [hrep.readAt, GrowingLog.readAt] at hread
  rw [hrep.next]
  split_ifs at hread
  · -- an offset that retention dropped is reported as such
    rw [← Except.error.inj hread] at heof
    cases heof
  · split at hread
    · cases hread
    · rename_i hnone
      exact List.getElem?_eq_none_iff.mp hnone

theorem LiveInv.lt_nextOffset (h : LiveInv cs L) {o : Nat} {d : Bytes}
    (hd : (o, d) ∈ L.appended) : o < L.manager.nextOffset := by
  obtain ⟨l, hrep, happended⟩ := h
  rw [hrep.next]
  exact (List.getElem?_eq_some_iff.mp ((happended o d).mp hd)).1

/-- What retention has left can be read. -/
theorem LiveInv.readAt_ok (h : LiveInv cs L) {o : Nat}
    (hearliest : L.manager.earliestOffset ≤ o) (ho : o < L.manager.nextOffset) :
    ∃ data, L.manager.readAt cs o = .ok data := by
  obtain ⟨l, hrep, -⟩ := h
  rw [hrep.next] at ho
  refine ⟨l.payloads[o], ?_⟩
  rw [hrep.readAt, GrowingLog.readAt, if_neg (by rw [← hrep.earliest]; omega),
    List.getElem?_eq_getElem ho]

/-- The log ends at `NextOffset`. -/
theorem LiveInv.readAt_nextOffset (h : LiveInv cs L) :
    L.manager.readAt cs L.manager.nextOffset = .error (.wal .eof) := by
  obtain ⟨l, hrep, -⟩ := h
  rw [hrep.readAt, hrep.next, GrowingLog.readAt, if_neg (Nat.not_lt.mpr l.earliest_le),
    List.getElem?_eq_none (Nat.le_refl _)]

/-! ## Steps -/

/-- The offset `Reserve` gives is the next one, and only success uses it up. -/
theorem reserve_nextOffset {w log : OpenLog} {data : Bytes} {o : WriteOutcome}
    {r : Except ReserveError (Nat × Nat)} (h : w.reserve cs data o = (log, r)) :
    (∃ e, r = .error e ∧ log.writer.nextOffset = w.writer.nextOffset) ∨
      ∃ seq, r = .ok (w.writer.nextOffset, seq) ∧
        log.writer.nextOffset = w.writer.nextOffset + 1 := by
  have hout := reserve_outcome cs w.writer data o
  unfold OpenLog.reserve at h
  generalize w.writer.reserve cs data o = p at h hout
  obtain ⟨writer, res⟩ := p
  -- the offset moves exactly when the record is in
  cases hout with
  | tooLarge hl =>
    obtain ⟨rfl, rfl⟩ := Prod.mk.inj h
    exact .inl ⟨_, rfl, rfl⟩
  | failed k hd hk hzero =>
    obtain ⟨rfl, rfl⟩ := Prod.mk.inj h
    exact .inl ⟨_, rfl, rfl⟩
  | reserved hd hsize =>
    obtain ⟨rfl, rfl⟩ := Prod.mk.inj h
    exact .inr ⟨_, rfl, rfl⟩

/-- `Reserve` in one segment: the record is added, or nothing is. -/
theorem SegInv.reserve {s : Segment} (h : SegInv cs s) {data : Bytes} {o : WriteOutcome}
    (ho : o.Atomic) {log : OpenLog} {r : Except ReserveError (Nat × Nat)} (t : Int)
    (hres : s.log.reserve cs data o = (log, r)) :
    SegInv cs { s with log := log, lastAppend := t } ∧
      ((∃ e, r = .error e ∧
          { s with log := log, lastAppend := t }.records cs = s.records cs) ∨
        ∃ seq, r = .ok (s.log.writer.nextOffset, seq) ∧
          { s with log := log, lastAppend := t }.records cs = s.records cs ++ [data]) := by
  have hstep : s.log.step cs (.reserve data o) = some log := by rw [OpenLog.step, hres]
  obtain ⟨hseg, hrecs⟩ := h.step t (step_logTransition hstep) ho
  refine ⟨hseg, ?_⟩
  -- the next offset says how many records there are
  have hold := h.nextOffset
  have hnew := hseg.nextOffset
  simp only [Segment.nextOffset] at hold hnew
  rcases reserve_nextOffset hres with ⟨e, rfl, hnext⟩ | ⟨seq, rfl, hnext⟩
  · refine .inl ⟨e, rfl, ?_⟩
    -- as many records as before, so the log did not take the record
    rcases hrecs with hrecs | ⟨_, _, -, hrecs⟩
    · exact hrecs
    · rw [hrecs, List.length_append, List.length_singleton] at hnew
      omega
  · refine .inr ⟨seq, rfl, ?_⟩
    rcases hrecs with hrecs | ⟨_, _, heq, hrecs⟩
    · rw [hrecs] at hnew
      omega
    · obtain ⟨rfl, -⟩ := LogEvent.reserve.inj heq
      exact hrecs

/-- The active segment is replaced by one with the same records. -/
theorem Represents.setActive {m : Manager} {l : GrowingLog Bytes} (h : Represents cs m l)
    {s : Segment} (hseg : SegInv cs s) (hbase : s.baseOffset = m.active.baseOffset)
    (hrecs : s.records cs = m.active.records cs) : Represents cs { m with active := s } l := by
  exact h.congr (List.rel_append (List.forall₂_same.mpr fun t _ => .refl t)
    (.cons ⟨hbase, hrecs, fun _ => hseg⟩ .nil))

/-- **Phase 1 of `Append`**, among any number of goroutines: the payload is added at the
    offset that is returned, or nothing is. -/
theorem Represents.reserve {m m' : Manager} {l : GrowingLog Bytes} (h : Represents cs m l)
    {data : Bytes} {o : WriteOutcome} (ho : o.Atomic) {now mtime : Int}
    {r : Except AppendError Nat} (hres : m.reserve cs data o now mtime = (m', r)) :
    (∃ e, r = .error e ∧ Represents cs m' l) ∨
      r = .ok l.payloads.length ∧ Represents cs m' (l.append data) := by
  have hout := reserve_appendOutcome cs m data o now mtime
  rw [hres] at hout
  cases hout with
  -- a failed reservation may have rolled, which changes no record
  | failed m₁ log e hrolled hlog =>
    have h₁ := h.rolled hrolled
    obtain ⟨hseg, ⟨e', -, hrecs⟩ | ⟨seq, hok, -⟩⟩ :=
      (h₁.inv.logs m₁.active m₁.active_mem).reserve ho m₁.active.lastAppend hlog
    · exact .inl ⟨_, rfl, h₁.setActive hseg rfl hrecs⟩
    · cases hok
  | reserved m₁ log localOffset seq hrolled hlog =>
    have h₁ := h.rolled hrolled
    obtain ⟨hseg, ⟨e, herr, -⟩ | ⟨seq', hok, hrecs⟩⟩ :=
      (h₁.inv.logs m₁.active m₁.active_mem).reserve ho now hlog
    · cases herr
    · obtain ⟨rfl, -⟩ := Prod.mk.inj (Except.ok.inj hok)
      -- the offset of the record is the end of the log
      have hend : m₁.active.baseOffset + m₁.active.log.writer.nextOffset = l.payloads.length :=
        h₁.next
      exact .inr ⟨congrArg Except.ok hend, h₁.grown hseg rfl hrecs⟩

/-- **A crash** that keeps the sealed segments cuts the list. -/
theorem Represents.crashed {m m' : Manager} {l : GrowingLog Bytes} (h : Represents cs m l)
    {cut : Nat → Cut} (hr : Reopened cs cut m m')
    (hsealed : ∀ s ∈ m.front, s.size ≤ (cut s.baseOffset).log) :
    ∃ l' : GrowingLog Bytes, l'.payloads = l.payloads.take m'.nextOffset ∧
      Represents cs m' l' := by
  have hinv := hr.inv h.inv
  -- the end can only move back, and nothing behind the new end is in the log
  have hnext : m'.nextOffset ≤ l.payloads.length := by
    rw [← h.next]
    exact hr.active.nextOffset_le (h.inv.logs m.active m.active_mem)
  have hlength : (l.payloads.take m'.nextOffset).length = m'.nextOffset := by
    rw [List.length_take, Nat.min_eq_left hnext]
  have hearliest : m'.earliestOffset ≤ (l.payloads.take m'.nextOffset).length := by
    rw [hlength]
    exact (hinv.earliestOffset_le m'.active_mem).trans (Nat.le_add_right _ _)
  refine ⟨⟨l.payloads.take m'.nextOffset, m'.earliestOffset, hearliest⟩, rfl, hinv,
    (hr.contiguous_iff h.inv h.contiguous).mpr hsealed, hlength.symm, rfl,
    fun s' hs' k d hd => ?_⟩
  -- a record that was recovered is one of the list, before its new end
  have hk := (List.getElem?_eq_some_iff.mp hd).1
  have hend := hinv.nextOffset_le hs'
  rw [(hinv.logs s' hs').nextOffset] at hend
  obtain ⟨s, hs, hrec⟩ := exists_of_mem_right hr.segments hs'
  obtain ⟨n, -, hrecs, -⟩ := hrec.records
  rw [hrecs, List.getElem?_take, Option.ite_none_right_eq_some] at hd
  rw [List.getElem?_take_of_lt (by omega), hrec.base]
  exact h.stored s hs k d hd.2

/-- Appending to the list adds the payload at its end. -/
theorem getElem?_append_iff (l : GrowingLog Bytes) (data : Bytes) (o : Nat) (d : Bytes) :
    (l.append data).payloads[o]? = some d ↔
      l.payloads[o]? = some d ∨ (o, d) = (l.payloads.length, data) := by
  rw [GrowingLog.append, Prod.mk.injEq]
  rcases Nat.lt_trichotomy o l.payloads.length with hlt | rfl | hgt
  · simp [List.getElem?_append_left hlt, hlt.ne]
  · simp [eq_comm]
  · simp [List.getElem?_append_right hgt.le, List.getElem?_eq_none hgt.le, hgt.ne',
      Nat.sub_ne_zero_of_lt hgt]

/-- **Step lemma.** -/
theorem LiveInv.step (h : LiveInv cs L) {e : LiveEvent} (he : e.Atomic)
    (ht : LiveTransition cs L e L') : LiveInv cs L' := by
  obtain ⟨l, hrep, happended⟩ := h
  cases ht with
  -- the offset that was returned is where the payload stands in the list
  | appended data o now mtime m offset hres =>
    rcases hrep.reserve he hres with ⟨err, herr, -⟩ | ⟨hok, hrep'⟩
    · cases herr
    · obtain rfl := Except.ok.inj hok
      refine ⟨l.append data, hrep', fun o' d => ?_⟩
      rw [List.mem_append, happended, List.mem_singleton, getElem?_append_iff]
  | refused data o now mtime m err hres =>
    rcases hrep.reserve he hres with ⟨err', -, hrep'⟩ | ⟨hok, -⟩
    · exact ⟨l, hrep', happended⟩
    · cases hok
  | committed i e seg log hseg hcommit ht =>
    have hinv := hrep.inv.logs seg (List.mem_of_getElem? hseg)
    refine ⟨l, hrep.congr ?_, happended⟩
    rw [segments_setSegment hseg]
    exact forall₂_set SameRecords.refl hseg (hinv.sameRecords_commit hcommit ht he)
  -- retention drops a front part
  | retained now =>
    obtain ⟨earliest, hle, -, hrep'⟩ := hrep.runRetention now
    exact ⟨l.retain earliest hle, hrep', happended⟩
  | restarted cfg mtime m hopen =>
    obtain ⟨m', hm', hrefines⟩ := hrep.restart cfg mtime
    obtain rfl := Except.ok.inj (hopen.symm.trans hm')
    exact ⟨l, hrefines.toRepresents, happended⟩
  -- what the crash cut off is dropped from the record as well
  | crashed cut m hcut hsealed hopen =>
    obtain ⟨l', hpayloads, hrep'⟩ := hrep.crashed (hrep.inv.reopened hcut hopen) hsealed
    refine ⟨l', hrep', fun o d => ?_⟩
    rw [List.mem_filter, decide_eq_true_iff, happended, hpayloads, List.getElem?_take,
      Option.ite_none_right_eq_some, and_comm]

/-- **Run lemma.** -/
theorem LiveInv.run {es : List LiveEvent} (h : LiveInv cs L) (hatomic : ∀ e ∈ es, e.Atomic)
    (hrun : run (LiveLog.step cs) L es = some L') : LiveInv cs L' :=
  run_invariant (fun _ _ _ hI he hstep => hI.step he (step_liveTransition hstep)) h
    (along_of_forall hatomic) hrun

theorem LiveInv.reached {cfg : Config} {mtime : Int} (h : L.Reached cs cfg mtime) :
    LiveInv cs L := by
  obtain ⟨m, es, hcreate, hatomic, hrun⟩ := h
  exact (LiveInv.init hcreate).run hatomic hrun

theorem LiveInv.leads (h : LiveInv cs L) (hleads : L.Leads cs L') : LiveInv cs L' := by
  obtain ⟨es, hes, hrun⟩ := hleads
  exact h.run (fun e he => (hes e he).1) hrun

/-! ## The history -/

/-- A step of the running process forgets no payload. -/
theorem LiveTransition.appended_subset {e : LiveEvent} (ht : LiveTransition cs L e L')
    (he : e.InService) : L.appended ⊆ L'.appended := by
  cases ht with
  | appended => exact List.subset_append_left _ _
  | refused | committed | retained => exact List.Subset.refl _
  | restarted | crashed => cases he

theorem LiveLog.Leads.appended (h : L.Leads cs L') : L.appended ⊆ L'.appended := by
  obtain ⟨es, hes, hrun⟩ := h
  exact run_invariant (I := fun M : LiveLog => L.appended ⊆ M.appended)
    (fun _ _ _ hI he hstep =>
      List.Subset.trans hI ((step_liveTransition hstep).appended_subset he.2))
    (List.Subset.refl _) (along_of_forall hes) hrun

end EventLog.Segments
