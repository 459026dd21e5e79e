import EventLog.Segment.Manager

/-!
# Producers, consumers and crashes

The manager with everything that happens to it: goroutines in either phase of `Append`,
reads, and crashes followed by `Open`.  A crash keeps of every log file a prefix that
its last successful `Sync` covered, and any prefix of every index file.  The files of
every segment exist after a crash, since `NewSegment` syncs the directory.

The two phases of `Append` are `appendStep` and `commitStep`, which every system over the
manager takes its producers' steps from.  `Transition` is the inversion of the step function.
-/

namespace EventLog.Segments

open EventLog.Lib
open EventLog.Wal

/-! ## Producers -/

/-- One step of a goroutine in phase 2 of an append. -/
def Segment.commitStep (cs : Checksum) (s : Segment) (e : LogEvent) : Option Segment := do
  guard e.isCommit
  let log ← s.log.step cs e
  some { s with log := log }

/-- One step of a goroutine in phase 2 of `Append`, in segment `i`. -/
def Manager.commitStep (cs : Checksum) (m : Manager) (i : Nat) (e : LogEvent) :
    Option Manager := do
  let seg ← m.segments[i]?
  let seg' ← seg.commitStep cs e
  some (m.setSegment i seg')

/-- Phase 1 of `Append`, with the record by its offset if it got one. -/
def Manager.appendStep (cs : Checksum) (m : Manager) (data : Bytes) (o : WriteOutcome)
    (now mtime : Int) : Manager × List (Nat × Bytes) :=
  match m.reserve cs data o now mtime with
  | (m', .ok offset) => (m', [(offset, data)])
  | (m', .error _) => (m', [])

/-! ## The system -/

/-- The manager and the successful reads so far. -/
structure System where
  manager : Manager
  reads : List (Nat × Bytes)
  deriving DecidableEq, Repr

inductive Event where
  /-- Phase 1 of an `Append`. -/
  | append (data : Bytes) (o : WriteOutcome) (now mtime : Int)
  /-- A step of a goroutine in phase 2, in segment `i`. -/
  | commit (i : Nat) (e : LogEvent)
  | read (offset : Nat)
  /-- A crash, and `Open` on what it left. -/
  | crash (cut : Nat → Cut)

/-- A crash loses nothing a `Sync` has covered. -/
def Manager.MaySurvive (m : Manager) (cut : Nat → Cut) : Prop :=
  ∀ s ∈ m.segments, s.log.synced ≤ (cut s.baseOffset).log

instance (m : Manager) (cut : Nat → Cut) : Decidable (m.MaySurvive cut) :=
  inferInstanceAs (Decidable (∀ s ∈ m.segments, _))

/-- One step of the system; `none` when the event is not enabled. -/
def System.step (cs : Checksum) (sys : System) : Event → Option System
  | .append data o now mtime =>
    some { sys with manager := (sys.manager.appendStep cs data o now mtime).1 }
  | .commit i e => do
    let m ← sys.manager.commitStep cs i e
    some { sys with manager := m }
  | .read offset =>
    match sys.manager.readAt cs offset with
    | .error _ => some sys
    | .ok data => some { sys with reads := sys.reads ++ [(offset, data)] }
  | .crash cut => do
    guard (sys.manager.MaySurvive cut)
    match sys.manager.reopen cs cut with
    | .error _ => none
    | .ok m => some { sys with manager := m }

/-- `Open` on a new directory. -/
def System.init (cs : Checksum) (cfg : Config) (mtime : Int) : Option System :=
  match Manager.create cs cfg mtime with
  | .error _ => none
  | .ok m => some { manager := m, reads := [] }

/-- All file writes of the event happen as a whole or not at all. -/
def Event.Atomic : Event → Prop
  | .append _ o _ _ => o.Atomic
  | .commit _ e => e.Atomic
  | _ => True

/-! ## Inversion -/

/-- The segment `NewSegment` starts on new files. -/
def Segment.fresh (baseOffset : Nat) (mtime : Int) : Segment :=
  { baseOffset := baseOffset, log := OpenLog.empty, lastAppend := mtime }

theorem Segment.create_eq (cs : Checksum) (baseOffset : Nat) (mtime : Int) :
    Segment.create cs baseOffset mtime = .ok (Segment.fresh baseOffset mtime) := by
  rw [Segment.create, newWalWriter_nil]
  rfl

theorem System.init_eq (cs : Checksum) (cfg : Config) (mtime : Int) :
    System.init cs cfg mtime =
      some { manager := ⟨cfg.settings, [], Segment.fresh 0 mtime⟩, reads := [] } := by
  rw [System.init, Manager.create, Segment.create_eq]

/-- The manager after the check for a full segment. -/
inductive Rolled (m : Manager) (mtime : Int) : Manager → Prop where
  | kept : (m.active.size : Int) < m.cfg.maxSegmentBytes → Rolled m mtime m
  | rolled : m.cfg.maxSegmentBytes ≤ m.active.size →
      Rolled m mtime { m with
        front := m.front ++ [m.active]
        active := Segment.fresh m.active.nextOffset mtime }

/-- Phase 1 of `Append` is `Reserve` on the active segment, after a roll if it was full. -/
inductive AppendOutcome (cs : Checksum) (m : Manager) (data : Bytes) (o : WriteOutcome)
    (now mtime : Int) : Manager → Except AppendError Nat → Prop where
  | failed (m₁ log e) : Rolled m mtime m₁ →
      m₁.active.log.reserve cs data o = (log, .error e) →
      AppendOutcome cs m data o now mtime { m₁ with active := { m₁.active with log := log } }
        (.error (.write (.reserve e)))
  | reserved (m₁ log localOffset seq) : Rolled m mtime m₁ →
      m₁.active.log.reserve cs data o = (log, .ok (localOffset, seq)) →
      AppendOutcome cs m data o now mtime
        { m₁ with active := { m₁.active with log := log, lastAppend := now } }
        (.ok (m₁.active.baseOffset + localOffset))

/-- A roll does not fail: the new segment's files are empty. -/
theorem exists_rolled (cs : Checksum) (m : Manager) (mtime : Int) :
    ∃ m₁, (if m.active.size ≥ m.cfg.maxSegmentBytes then m.roll cs mtime else .ok m) = .ok m₁ ∧
      Rolled m mtime m₁ := by
  split_ifs with hfull
  · rw [Manager.roll, Segment.create_eq]
    exact ⟨_, rfl, .rolled hfull⟩
  · exact ⟨m, rfl, .kept (by omega)⟩

theorem reserve_appendOutcome (cs : Checksum) (m : Manager) (data : Bytes) (o : WriteOutcome)
    (now mtime : Int) :
    AppendOutcome cs m data o now mtime (m.reserve cs data o now mtime).1
      (m.reserve cs data o now mtime).2 := by
  obtain ⟨m₁, heq, hrolled⟩ := exists_rolled cs m mtime
  unfold Manager.reserve Segment.reserve
  simp only [heq]
  -- the record goes to the active segment of the manager after the roll
  rcases hres : m₁.active.log.reserve cs data o with ⟨log, e | ⟨localOffset, seq⟩⟩
  · exact .failed m₁ log e hrolled hres
  · exact .reserved m₁ log localOffset seq hrolled hres

@[simp] theorem appendStep_fst (cs : Checksum) (m : Manager) (data : Bytes) (o : WriteOutcome)
    (now mtime : Int) :
    (m.appendStep cs data o now mtime).1 = (m.reserve cs data o now mtime).1 := by
  unfold Manager.appendStep
  split <;> rename_i heq <;> rw [heq]

/-- Phase 1 of `Append` as a step of the log of the active segment. -/
theorem appendStep_logTransition (cs : Checksum) (m : Manager) (data : Bytes) (o : WriteOutcome)
    (now mtime : Int) :
    ∃ m₁ log t, Rolled m mtime m₁ ∧ LogTransition cs m₁.active.log (.reserve data o) log ∧
      (m.appendStep cs data o now mtime).1 =
        { m₁ with active := { m₁.active with log := log, lastAppend := t } } := by
  rw [appendStep_fst]
  have hout := reserve_appendOutcome cs m data o now mtime
  generalize m.reserve cs data o now mtime = p at hout
  obtain ⟨m', res⟩ := p
  cases hout with
  -- a failed reservation leaves the time of the last append
  | failed m₁ log e hrolled hres =>
    refine ⟨m₁, log, m₁.active.lastAppend, hrolled, ?_, rfl⟩
    exact step_logTransition (by rw [OpenLog.step, hres])
  | reserved m₁ log localOffset seq hrolled hres =>
    refine ⟨m₁, log, now, hrolled, ?_, rfl⟩
    exact step_logTransition (by rw [OpenLog.step, hres])

/-- **Inversion of `Segment.commitStep`.** -/
theorem of_segment_commitStep {cs : Checksum} {s s' : Segment} {e : LogEvent}
    (h : s.commitStep cs e = some s') :
    e.isCommit ∧ ∃ log, LogTransition cs s.log e log ∧ s' = { s with log := log } := by
  simp only [Segment.commitStep, Option.bind_eq_bind, Option.bind_eq_some_iff,
    Option.guard_eq_some'] at h
  obtain ⟨-, hcommit, log, hlog, h⟩ := h
  exact ⟨hcommit, log, step_logTransition hlog, (Option.some.inj h).symm⟩

/-- **Inversion of `Manager.commitStep`.** -/
theorem of_commitStep {cs : Checksum} {m m' : Manager} {i : Nat} {e : LogEvent}
    (h : m.commitStep cs i e = some m') :
    ∃ seg log, m.segments[i]? = some seg ∧ e.isCommit ∧ LogTransition cs seg.log e log ∧
      m' = m.setSegment i { seg with log := log } := by
  simp only [Manager.commitStep, Option.bind_eq_bind, Option.bind_eq_some_iff] at h
  obtain ⟨seg, hseg, seg', hstep, h⟩ := h
  obtain ⟨hcommit, log, hlog, rfl⟩ := of_segment_commitStep hstep
  exact ⟨seg, log, hseg, hcommit, hlog, (Option.some.inj h).symm⟩

/-- Everything an event can do to the system. -/
inductive Transition (cs : Checksum) (sys : System) : Event → System → Prop where
  | appended (data o now mtime m₁ log t) : Rolled sys.manager mtime m₁ →
      LogTransition cs m₁.active.log (.reserve data o) log →
      Transition cs sys (.append data o now mtime)
        { sys with
          manager := { m₁ with active := { m₁.active with log := log, lastAppend := t } } }
  | committed (i e seg log) : sys.manager.segments[i]? = some seg → e.isCommit →
      LogTransition cs seg.log e log →
      Transition cs sys (.commit i e)
        { sys with manager := sys.manager.setSegment i { seg with log := log } }
  | readFailed (offset) : Transition cs sys (.read offset) sys
  | read (offset data) : sys.manager.readAt cs offset = .ok data →
      Transition cs sys (.read offset) { sys with reads := sys.reads ++ [(offset, data)] }
  | crashed (cut m) : sys.manager.MaySurvive cut → sys.manager.reopen cs cut = .ok m →
      Transition cs sys (.crash cut) { sys with manager := m }

/-- **Inversion of `System.step`.** -/
theorem step_transition {cs : Checksum} {sys sys' : System} {e : Event}
    (h : sys.step cs e = some sys') : Transition cs sys e sys' := by
  cases e with
  | append data o now mtime =>
    obtain ⟨m₁, log, t, hrolled, ht, happend⟩ :=
      appendStep_logTransition cs sys.manager data o now mtime
    rw [System.step, happend] at h
    obtain rfl := Option.some.inj h
    exact .appended data o now mtime m₁ log t hrolled ht
  | commit i e =>
    obtain ⟨m, hm, h⟩ := Option.bind_eq_some_iff.mp h
    obtain ⟨seg, log, hseg, hcommit, hlog, rfl⟩ := of_commitStep hm
    obtain rfl := Option.some.inj h
    exact .committed i e seg log hseg hcommit hlog
  | read offset =>
    simp only [System.step] at h
    -- a read that fails is not recorded
    cases hread : sys.manager.readAt cs offset with
    | error e =>
      rw [hread] at h
      obtain rfl := Option.some.inj h
      exact .readFailed offset
    | ok data =>
      rw [hread] at h
      obtain rfl := Option.some.inj h
      exact .read offset data hread
  | crash cut =>
    simp only [System.step, Option.bind_eq_bind, Option.bind_eq_some_iff,
      Option.guard_eq_some'] at h
    obtain ⟨-, hlegal, h⟩ := h
    -- a crash after which the log does not open is no step
    cases hopen : sys.manager.reopen cs cut with
    | error e =>
      rw [hopen] at h
      cases h
    | ok m =>
      rw [hopen] at h
      obtain rfl := Option.some.inj h
      exact .crashed cut m hlegal hopen

end EventLog.Segments
