import EventLog.Lib.Run
import EventLog.Wal.Transitions
import Mathlib.Data.List.TakeWhile

/-!
# Group commit

Goroutines reserve records and commit them while other goroutines do the same; the lock is
free during the `Sync` of the one that leads.  What they do is recorded as a list of actions:
records written, flushes started and returned, calls of `store.Checkpoint`, and returns of
`Commit`.

`index_never_leads` says what holds of every such list: `Commit` returns nil and `Checkpoint`
is called only for records a successful `Sync` covered that started after they were written,
and at every moment the records are divided into those handed to the index and those pending.
-/

namespace EventLog.Wal

open EventLog.Lib

/-! ## Actions -/

/-- What the goroutines of a writer do. -/
inductive Action where
  /-- `Reserve` wrote a record: its number, its offset, and where its bytes went. -/
  | wrote (p : PendingCheckpoint) (data : Bytes)
  /-- Goroutine `k` calls `Sync`. -/
  | syncStarted (k : Nat)
  | syncReturned (k : Nat) (ok : Bool)
  /-- A call of `store.Checkpoint`, with the outcome of its write. -/
  | checkpointed (offset pos : Nat) (o : WriteOutcome)
  /-- `Commit(seq)` returned: nil or an error. -/
  | committed (seq : Nat) (ok : Bool)
  deriving DecidableEq, Repr

/-- The start or the return of a flush of goroutine `k`. -/
def Action.isSyncOf (k : Nat) : Action → Bool
  | .syncStarted j => j = k
  | .syncReturned j _ => j = k
  | _ => false

/-- The records written. -/
def writes (tr : List Action) : List PendingCheckpoint :=
  tr.filterMap fun
    | .wrote p _ => some p
    | _ => none

/-- The calls of `store.Checkpoint`. -/
def checkpointCalls (tr : List Action) : List (Nat × Nat × WriteOutcome) :=
  tr.filterMap fun
    | .checkpointed offset pos o => some (offset, pos, o)
    | _ => none

/-- The record numbered `seq` was written before the start of a `Sync` that returned nil. -/
def Covered (tr : List Action) (seq : Nat) : Prop :=
  ∃ before k during after,
    tr = before ++ .syncStarted k :: (during ++ .syncReturned k true :: after) ∧
      (∀ a ∈ during, a.isSyncOf k = false) ∧ seq ∈ (writes before).map PendingCheckpoint.seq

/-- The prefix of the pending list that the loop of `commitLocked` hands to `Checkpoint`. -/
def drained (target : Nat) (ps : List PendingCheckpoint) : List PendingCheckpoint :=
  ps.takeWhile (·.seq ≤ target)

/-- The calls of that loop. -/
def checkpointActions (target : Nat) (idx : Nat → WriteOutcome) (ps : List PendingCheckpoint) :
    List Action :=
  (drained target ps).map fun p => .checkpointed p.offset p.pos (idx p.offset)

/-- The actions of one step. -/
def OpenLog.actions (cs : Checksum) (w : OpenLog) : LogEvent → List Action
  | .reserve data o =>
    match (w.reserve cs data o).2 with
    | .ok (offset, seq) => [.wrote ⟨seq, offset, w.writer.file.length⟩ data]
    | .error _ => []
  | .pass k =>
    match w.commits[k]? with
    | none => []
    | some c =>
      match w.writer.commitPass c.seq with
      | .fail => [.committed c.seq false]
      | .done => [.committed c.seq true]
      | .wait => []
      | .lead _ => [.syncStarted k]
  | .syncReturn k ok => [.syncReturned k ok]
  | .relock k idx =>
    match w.commits[k]? with
    | none => []
    | some c =>
      match c.pc with
      | .flushed target true => checkpointActions target idx w.writer.pending
      | .flushed _ false => [.committed c.seq false]
      | _ => []

/-- What goroutines may do: a step of `Reserve` or `Commit`, or another call of `Commit`. -/
inductive WriterEvent where
  | log (e : LogEvent)
  | commit (seq : Nat)

/-- The write of a `Reserve` happens as a whole or not at all. -/
def WriterEvent.AtomicWrite : WriterEvent → Prop
  | .log (.reserve _ o) => o.Atomic
  | _ => True

/-- A log and what was done to it since it was opened. -/
structure TracedLog where
  log : OpenLog
  trace : List Action

def TracedLog.step (cs : Checksum) (s : TracedLog) : WriterEvent → Option TracedLog
  | .log e =>
    match s.log.step cs e with
    | none => none
    | some log => some { log := log, trace := s.trace ++ s.log.actions cs e }
  -- the offset and the payload of an entry are for its caller only
  | .commit seq =>
    some { s with log := { s.log with commits := s.log.commits ++ [⟨0, [], seq, .ready⟩] } }

/-- A log that was just opened. -/
def TracedLog.opened (w : WALWriter) : TracedLog := ⟨⟨w, 0, [], []⟩, []⟩

/-! ## What a step can do -/

/-- A goroutine in the loop of `commitLocked` that may take the lock. -/
def Pc.Runnable (pc : Pc) : Prop := pc = .ready ∨ pc = .waiting true

/-- Everything an event can do to a log and its trace. -/
inductive TracedStep (cs : Checksum) (s : TracedLog) : WriterEvent → TracedLog → Prop where
  | called (seq) : TracedStep cs s (.commit seq)
      { s with log := { s.log with commits := s.log.commits ++ [⟨0, [], seq, .ready⟩] } }
  | refused (data o) : TracedStep cs s (.log (.reserve data o)) s
  /-- The write of a `Reserve` failed and left `m` bytes. -/
  | writeFailed (data o m) : (o.Atomic → m = 0) → TracedStep cs s (.log (.reserve data o))
      { s with log := { s.log with writer := { s.log.writer with
        file := s.log.writer.file ++ (encode cs data).take m } } }
  | reserved (data o) : TracedStep cs s (.log (.reserve data o))
      { log := { s.log with
          writer := s.log.writer.reserved cs data
          commits := s.log.commits ++
            [⟨s.log.writer.nextOffset, data, s.log.writer.writeSeq + 1, .ready⟩] }
        trace := s.trace ++
          [.wrote ⟨s.log.writer.writeSeq + 1, s.log.writer.nextOffset, s.log.writer.file.length⟩
            data] }
  /-- A pass finds that a flush has failed. -/
  | failed (k c) : s.log.commits[k]? = some c → c.pc.Runnable → s.log.writer.syncErr = true →
      TracedStep cs s (.log (.pass k))
        { log := s.log.setPc k c (.returned false)
          trace := s.trace ++ [.committed c.seq false] }
  /-- A pass finds its record durable. -/
  | done (k c) : s.log.commits[k]? = some c → c.pc.Runnable → s.log.writer.syncErr = false →
      c.seq ≤ s.log.writer.syncedSeq →
      TracedStep cs s (.log (.pass k))
        { log := { s.log.setPc k c (.returned true) with
            acked := s.log.acked ++ [(c.offset, c.data)] }
          trace := s.trace ++ [.committed c.seq true] }
  /-- A pass finds a flush in flight. -/
  | waited (k c) : s.log.commits[k]? = some c → c.pc.Runnable → s.log.writer.syncing = true →
      TracedStep cs s (.log (.pass k)) { s with log := s.log.setPc k c (.waiting false) }
  /-- A pass starts a flush. -/
  | led (k c) : s.log.commits[k]? = some c → c.pc.Runnable → s.log.writer.syncErr = false →
      s.log.writer.syncedSeq < c.seq → s.log.writer.syncing = false →
      TracedStep cs s (.log (.pass k))
        { log := { s.log.setPc k c
              (.flushing s.log.writer.writeSeq s.log.writer.file.length) with
            writer := { s.log.writer with syncing := true } }
          trace := s.trace ++ [.syncStarted k] }
  | syncReturned (k c target covered ok) : s.log.commits[k]? = some c →
      c.pc = .flushing target covered →
      TracedStep cs s (.log (.syncReturn k ok))
        { log := { s.log.setPc k c (.flushed target ok) with
            synced := if ok then max s.log.synced covered else s.log.synced }
          trace := s.trace ++ [.syncReturned k ok] }
  /-- The leader of a flush that succeeded has the lock again. -/
  | drained (k c target idx) : s.log.commits[k]? = some c → c.pc = .flushed target true →
      TracedStep cs s (.log (.relock k idx))
        { log := { s.log with
            writer := s.log.writer.finishSync target true idx
            commits := broadcast (s.log.commits.set k { c with pc := .ready }) }
          trace := s.trace ++ checkpointActions target idx s.log.writer.pending }
  /-- The leader of a flush that failed has the lock again. -/
  | broke (k c target idx) : s.log.commits[k]? = some c → c.pc = .flushed target false →
      TracedStep cs s (.log (.relock k idx))
        { log := { s.log with
            writer := { s.log.writer with syncing := false, syncErr := true }
            commits := broadcast (s.log.commits.set k { c with pc := .returned false }) }
          trace := s.trace ++ [.committed c.seq false] }

/-- What a pass finds. -/
theorem tracedStep_pass {cs : Checksum} {s : TracedLog} {log : OpenLog} {k : Nat}
    (h : s.log.step cs (.pass k) = some log) :
    TracedStep cs s (.log (.pass k)) ⟨log, s.trace ++ s.log.actions cs (.pass k)⟩ := by
  simp only [OpenLog.step, Option.bind_eq_bind, Option.bind_eq_some_iff,
    Option.guard_eq_some'] at h
  obtain ⟨c, hc, _, hpc, h⟩ := h
  simp only [OpenLog.actions, hc]
  unfold WALWriter.commitPass at h ⊢
  -- the loop of `Commit`: an error, synced already, a leader at work, or lead
  by_cases herr : s.log.writer.syncErr = true
  · rw [if_pos herr] at h ⊢
    obtain rfl := Option.some.inj h
    exact .failed k c hc hpc herr
  · rw [if_neg herr] at h ⊢
    have hok : s.log.writer.syncErr = false := by simpa using herr
    by_cases hdone : s.log.writer.syncedSeq ≥ c.seq
    · rw [if_pos hdone] at h ⊢
      obtain rfl := Option.some.inj h
      exact .done k c hc hpc hok hdone
    · rw [if_neg hdone] at h ⊢
      by_cases hsync : s.log.writer.syncing = true
      · rw [if_pos hsync] at h ⊢
        obtain rfl := Option.some.inj h
        simpa using TracedStep.waited k c hc hpc hsync
      · rw [if_neg hsync] at h ⊢
        obtain rfl := Option.some.inj h
        exact .led k c hc hpc hok (Nat.lt_of_not_ge hdone) (by simpa using hsync)

/-- **Inversion of `TracedLog.step`.** -/
theorem step_tracedStep {cs : Checksum} {s s' : TracedLog} {e : WriterEvent}
    (h : s.step cs e = some s') : TracedStep cs s e s' := by
  cases e with
  | commit seq =>
    obtain rfl := Option.some.inj h
    exact .called seq
  | log e =>
    simp only [TracedLog.step] at h
    cases hlog : s.log.step cs e with
    | none =>
      rw [hlog] at h
      cases h
    | some log =>
      rw [hlog] at h
      obtain rfl := Option.some.inj h
      -- each event with the calls it makes
      cases e with
      | reserve data o =>
        have hout := reserve_outcome cs s.log.writer data o
        simp only [OpenLog.step, OpenLog.reserve] at hlog
        simp only [OpenLog.actions, OpenLog.reserve]
        generalize s.log.writer.reserve cs data o = p at hlog hout
        obtain ⟨writer, res⟩ := p
        cases hout with
        | tooLarge hlarge =>
          obtain rfl := Option.some.inj hlog
          simpa using TracedStep.refused data o
        | failed m hd hm hzero =>
          obtain rfl := Option.some.inj hlog
          simpa using TracedStep.writeFailed data o m hzero
        | reserved hd hsize =>
          obtain rfl := Option.some.inj hlog
          exact .reserved data o
      | pass k => exact tracedStep_pass hlog
      | syncReturn k ok =>
        simp only [OpenLog.step, Option.bind_eq_bind, Option.bind_eq_some_iff] at hlog
        obtain ⟨c, hc, hlog⟩ := hlog
        -- only a goroutine in its flush returns from it
        cases hpc : c.pc with
        | flushing target covered =>
          rw [hpc] at hlog
          obtain rfl := Option.some.inj hlog
          exact .syncReturned k c target covered ok hc hpc
        | ready | waiting | flushed | returned => rw [hpc] at hlog; cases hlog
      | relock k idx =>
        simp only [OpenLog.step, Option.bind_eq_bind, Option.bind_eq_some_iff] at hlog
        obtain ⟨c, hc, hlog⟩ := hlog
        simp only [OpenLog.actions, hc]
        cases hpc : c.pc with
        | flushed target ok =>
          rw [hpc] at hlog
          obtain rfl := Option.some.inj hlog
          -- after a failed sync nothing is drained
          cases ok with
          | true => exact .drained k c target idx hc hpc
          | false => exact .broke k c target idx hc hpc
        | ready | waiting | flushing | returned => rw [hpc] at hlog; cases hlog

/-! ## The drain loop -/

theorem drainLoop_eq (target : Nat) (idx : Nat → WriteOutcome) (s : InMemoryStore)
    (ps : List PendingCheckpoint) :
    drainLoop target idx s ps =
      ((drained target ps).foldl (fun s p => s.checkpoint p.offset p.pos (idx p.offset)) s,
        ps.dropWhile (·.seq ≤ target)) := by
  induction ps generalizing s with
  | nil => rfl
  | cons p ps ih =>
    rw [drainLoop, drained, List.takeWhile_cons, List.dropWhile_cons]
    -- the loop stops at the first record that is not synced
    by_cases hle : p.seq ≤ target
    · rw [if_pos hle, if_pos (decide_eq_true hle), if_pos (decide_eq_true hle), ih]
      rfl
    · have hgt : ¬decide (p.seq ≤ target) = true := by simpa using hle
      rw [if_neg hle, if_neg hgt, if_neg hgt]
      rfl

section Numbered

variable {ps : List PendingCheckpoint} {lo m : Nat}

/-- Records numbered from `lo + 1` on are split by a number. -/
theorem split_seq (h : ps.map PendingCheckpoint.seq = List.range' (lo + 1) m) (n : Nat) :
    drained n ps = ps.take (n - lo) ∧ ps.dropWhile (·.seq ≤ n) = ps.drop (n - lo) ∧
      ps.filter (·.seq ≤ n) = ps.take (n - lo) ∧ ps.filter (n < ·.seq) = ps.drop (n - lo) := by
  induction ps generalizing lo m with
  | nil => simp [drained]
  | cons p ps ih =>
    cases m with
    | zero => cases h
    | succ m =>
      rw [List.map_cons, List.range'_succ, List.cons.injEq] at h
      obtain ⟨hp, hps⟩ := h
      obtain ⟨htake, hdrop, hle, hgt⟩ := ih hps
      rw [drained] at htake
      -- the numbers go up by one, so taking while, filtering and cutting are the same
      by_cases hp' : p.seq ≤ n
      · have hn : n - lo = n - (lo + 1) + 1 := by omega
        simp [drained, hn, hp', htake, hdrop, hle, hgt, Nat.not_lt.mpr hp']
      · -- all later numbers are above `n` as well
        have hn : n - lo = 0 := by omega
        have hn' : n - (lo + 1) = 0 := by omega
        rw [hn'] at hle hgt
        simp [drained, hn, hp', hle, hgt, Nat.lt_of_not_le hp']

end Numbered

/-! ## What the trace says -/

@[simp] theorem writes_append (tr acts : List Action) :
    writes (tr ++ acts) = writes tr ++ writes acts :=
  List.filterMap_append

@[simp] theorem checkpointCalls_append (tr acts : List Action) :
    checkpointCalls (tr ++ acts) = checkpointCalls tr ++ checkpointCalls acts :=
  List.filterMap_append

theorem writes_checkpointActions (target : Nat) (idx : Nat → WriteOutcome)
    (ps : List PendingCheckpoint) : writes (checkpointActions target idx ps) = [] := by
  rw [checkpointActions, writes, List.filterMap_map]
  exact List.filterMap_eq_nil_iff.mpr fun _ _ => rfl

theorem checkpointCalls_checkpointActions (target : Nat) (idx : Nat → WriteOutcome)
    (ps : List PendingCheckpoint) :
    checkpointCalls (checkpointActions target idx ps) =
      (drained target ps).map fun p => (p.offset, p.pos, idx p.offset) := by
  rw [checkpointActions, checkpointCalls, List.filterMap_map, ← List.filterMap_eq_map]
  rfl

/-- Goroutine `k` is in a `Sync` that started after the records up to `target` were written. -/
def InFlight (tr : List Action) (k target : Nat) : Prop :=
  ∃ before during, tr = before ++ .syncStarted k :: during ∧
    (∀ a ∈ during, a.isSyncOf k = false) ∧
    ∀ seq, 0 < seq → seq ≤ target → seq ∈ (writes before).map PendingCheckpoint.seq

/-- What the actions before it say of the next one. -/
def Justified (tr : List Action) : Action → Prop
  | .committed seq true => 0 < seq → Covered tr seq
  | .checkpointed offset pos _ =>
    ∃ p ∈ writes tr, p.offset = offset ∧ p.pos = pos ∧ Covered tr p.seq
  | _ => True

section Trace

variable {tr acts : List Action} {seq k target : Nat}

theorem Covered.append (h : Covered tr seq) (acts : List Action) : Covered (tr ++ acts) seq := by
  obtain ⟨before, k, during, after, rfl, hduring, hseq⟩ := h
  exact ⟨before, k, during, after ++ acts, by simp, hduring, hseq⟩

/-- A covered record was written. -/
theorem Covered.mem_writes (h : Covered tr seq) :
    seq ∈ (writes tr).map PendingCheckpoint.seq := by
  obtain ⟨before, k, during, after, rfl, -, hseq⟩ := h
  rw [writes_append, List.map_append]
  exact List.mem_append_left _ hseq

/-- A `Sync` of goroutine `k` that is in flight still is after actions of others. -/
theorem flight_append {P : List Action → Prop}
    (h : ∃ before during, tr = before ++ .syncStarted k :: during ∧
      (∀ a ∈ during, a.isSyncOf k = false) ∧ P before)
    (hacts : ∀ a ∈ acts, a.isSyncOf k = false) :
    ∃ before during, tr ++ acts = before ++ .syncStarted k :: during ∧
      (∀ a ∈ during, a.isSyncOf k = false) ∧ P before := by
  obtain ⟨before, during, rfl, hduring, hbefore⟩ := h
  refine ⟨before, during ++ acts, by simp, fun a ha => ?_, hbefore⟩
  rcases List.mem_append.mp ha with ha | ha
  · exact hduring a ha
  · exact hacts a ha

theorem InFlight.append (h : InFlight tr k target) (hacts : ∀ a ∈ acts, a.isSyncOf k = false) :
    InFlight (tr ++ acts) k target :=
  flight_append h hacts

/-- When the `Sync` returns nil, everything up to its target is covered. -/
theorem InFlight.covered (h : InFlight tr k target) (hpos : 0 < seq) (hle : seq ≤ target) :
    Covered (tr ++ [.syncReturned k true]) seq := by
  obtain ⟨before, during, rfl, hduring, hseq⟩ := h
  exact ⟨before, k, during, [], by simp, hduring, hseq seq hpos hle⟩

/-- What the actions before it say of each action, they also say after more were done. -/
theorem history_append {J : List Action → Action → Prop}
    (h : ∀ i a, tr[i]? = some a → J (tr.take i) a)
    (hacts : ∀ i a, acts[i]? = some a → J (tr ++ acts.take i) a) (i : Nat) (a : Action)
    (ha : (tr ++ acts)[i]? = some a) : J ((tr ++ acts).take i) a := by
  -- an action from before, or one of this event
  rw [List.getElem?_append] at ha
  split_ifs at ha with hlt
  · rw [List.take_append_of_le_length (Nat.le_of_lt hlt)]
    exact h i a ha
  · rw [List.take_append, List.take_of_length_le (Nat.le_of_not_lt hlt)]
    exact hacts _ a ha

theorem history_singleton {J : List Action → Action → Prop} {a : Action} (h : J tr a) (i : Nat)
    (b : Action) (hb : [a][i]? = some b) : J (tr ++ [a].take i) b := by
  obtain ⟨hi, rfl⟩ := List.getElem?_eq_some_iff.mp hb
  obtain rfl : i = 0 := by simpa using hi
  rwa [List.take_zero, List.append_nil]

end Trace

/-! ## The invariant -/

/-- Between its unlock for the fsync and its re-lock. -/
def Pc.inFlush : Pc → Bool
  | .flushing .. => true
  | .flushed .. => true
  | _ => false

/-- A statement about the position of a goroutine that speaks only of flushes, and that
    others cannot change. -/
structure LocalPc (T : List Action → Nat → Pc → Prop) : Prop where
  append : ∀ {tr acts k pc}, T tr k pc → (∀ a ∈ acts, a.isSyncOf k = false) → T (tr ++ acts) k pc
  idle : ∀ {tr k pc}, pc.inFlush = false → T tr k pc

section Goroutines

variable {T : List Action → Nat → Pc → Prop} {tr acts : List Action} {commits : List Commit}

/-- Goroutine `k` acts and moves on; the others stay where they are. -/
theorem LocalPc.set (hT : LocalPc T) {k : Nat} {c : Commit} {pc : Pc}
    (h : ∀ j c', commits[j]? = some c' → T tr j c'.pc)
    (hacts : ∀ a ∈ acts, ∀ j, j ≠ k → a.isSyncOf j = false) (hpc : T (tr ++ acts) k pc)
    (j : Nat) (c' : Commit) (hj : (commits.set k { c with pc := pc })[j]? = some c') :
    T (tr ++ acts) j c'.pc := by
  -- the goroutine that moved, or another one
  rw [List.getElem?_set] at hj
  split_ifs at hj with hjk hlt
  · obtain rfl := Option.some.inj hj
    rwa [← hjk]
  · exact hT.append (h j c' hj) fun a ha => hacts a ha j (Ne.symm hjk)

theorem LocalPc.broadcast (hT : LocalPc T) (h : ∀ j c, commits[j]? = some c → T tr j c.pc)
    (j : Nat) (c : Commit) (hj : (broadcast commits)[j]? = some c) : T tr j c.pc := by
  rw [Wal.broadcast, List.getElem?_map, Option.map_eq_some_iff] at hj
  obtain ⟨c', hc', rfl⟩ := hj
  have hpc := h j c' hc'
  split
  · exact hT.idle rfl
  · exact hpc

/-- A new goroutine stands before its first pass. -/
theorem LocalPc.concat (hT : LocalPc T) {c : Commit} (h : ∀ j c, commits[j]? = some c → T tr j c.pc)
    (hready : c.pc = .ready) (j : Nat) (c' : Commit) (hj : (commits ++ [c])[j]? = some c') :
    T tr j c'.pc := by
  rw [List.getElem?_append] at hj
  split_ifs at hj with hlt
  · exact h j c' hj
  · obtain rfl := List.mem_singleton.mp (List.mem_of_getElem? hj)
    rw [hready]
    exact hT.idle rfl

end Goroutines

/-- What the trace says of a goroutine's position. -/
def PcTraced (tr : List Action) (k : Nat) : Pc → Prop
  | .flushing target _ => InFlight tr k target
  | .flushed target true => ∀ seq, 0 < seq → seq ≤ target → Covered tr seq
  | _ => True

/-- The writer, its goroutines and its actions agree; `store` is the index it was opened
    with. -/
structure TraceInv (cs : Checksum) (store : InMemoryStore) (w : WALWriter) (commits : List Commit)
    (tr : List Action) : Prop where
  size : w.size = w.file.length
  seqs : (writes tr).map PendingCheckpoint.seq = List.range' 1 w.writeSeq
  below : ∀ p ∈ writes tr, p.offset < w.nextOffset ∧ p.pos < w.size
  ascending : (writes tr).Pairwise fun p q => p.offset < q.offset ∧ p.pos < q.pos
  placed : ∀ p d, .wrote p d ∈ tr → encode cs d <+: w.file.drop p.pos
  calls : (checkpointCalls tr).map (fun c => (c.1, c.2.1)) =
    ((writes tr).take w.syncedSeq).map fun p => (p.offset, p.pos)
  pending : w.pending = (writes tr).drop w.syncedSeq
  store : w.store = (checkpointCalls tr).foldl (fun s c => s.checkpoint c.1 c.2.1 c.2.2) store
  covered : ∀ seq, 0 < seq → seq ≤ w.syncedSeq → Covered tr seq
  goroutines : ∀ k c, commits[k]? = some c → PcTraced tr k c.pc
  history : ∀ i a, tr[i]? = some a → Justified (tr.take i) a

section Steps

variable {cs : Checksum} {store : InMemoryStore} {w : WALWriter} {commits commits' : List Commit}
  {tr acts : List Action}

theorem TraceInv.length_writes (h : TraceInv cs store w commits tr) :
    (writes tr).length = w.writeSeq := by
  rw [← List.length_map (f := PendingCheckpoint.seq), h.seqs, List.length_range']

theorem TraceInv.mem_seqs (h : TraceInv cs store w commits tr) {seq : Nat} :
    seq ∈ (writes tr).map PendingCheckpoint.seq ↔ 0 < seq ∧ seq ≤ w.writeSeq := by
  rw [h.seqs, List.mem_range'_1]
  omega

/-- Whatever is covered was written, so the index is never ahead of the log. -/
theorem TraceInv.le_writeSeq (h : TraceInv cs store w commits tr) {n : Nat}
    (hn : ∀ seq, 0 < seq → seq ≤ n → Covered tr seq) : n ≤ w.writeSeq := by
  rcases Nat.eq_zero_or_pos n with rfl | hpos
  · exact Nat.zero_le _
  · exact (h.mem_seqs.mp (hn n hpos (Nat.le_refl n)).mem_writes).2

theorem pcTraced_local : LocalPc PcTraced where
  append {tr acts k pc} h hacts := by
    -- only a flush in progress or a flush that succeeded says anything about the trace
    cases pc with
    | flushing target covered => exact InFlight.append h hacts
    | flushed target ok =>
      cases ok with
      | true => exact fun seq hpos hle => (h seq hpos hle).append acts
      | false => trivial
    | ready | waiting | returned => trivial
  idle {tr k pc} h := by
    cases pc with
    | flushing | flushed => cases h
    | ready | waiting | returned => trivial

/-- Actions that write no record leave the records where they are. -/
theorem TraceInv.placed_append (h : TraceInv cs store w commits tr) (hw : writes acts = [])
    (p : PendingCheckpoint) (d : Bytes) (hp : .wrote p d ∈ tr ++ acts) :
    encode cs d <+: w.file.drop p.pos := by
  rcases List.mem_append.mp hp with hp | hp
  · exact h.placed p d hp
  · have hmem : p ∈ writes acts := List.mem_filterMap.mpr ⟨_, hp, rfl⟩
    rw [hw] at hmem
    cases hmem

/-- Actions that write no record and call no `Checkpoint`. -/
theorem TraceInv.act (h : TraceInv cs store w commits tr) (hw : writes acts = [])
    (hc : checkpointCalls acts = [])
    (hhist : ∀ i a, acts[i]? = some a → Justified (tr ++ acts.take i) a)
    (hgo : ∀ k c, commits'[k]? = some c → PcTraced (tr ++ acts) k c.pc) :
    TraceInv cs store w commits' (tr ++ acts) := by
  -- what was written and what was checkpointed is unchanged
  have hwrites : writes (tr ++ acts) = writes tr := by rw [writes_append, hw, List.append_nil]
  have hcalls : checkpointCalls (tr ++ acts) = checkpointCalls tr := by
    rw [checkpointCalls_append, hc, List.append_nil]
  exact
    { size := h.size
      seqs := by rw [hwrites, h.seqs]
      below := by rw [hwrites]; exact h.below
      ascending := by rw [hwrites]; exact h.ascending
      placed := h.placed_append hw
      calls := by rw [hwrites, hcalls, h.calls]
      pending := by rw [hwrites, h.pending]
      store := by rw [hcalls, h.store]
      covered := fun seq hpos hle => (h.covered seq hpos hle).append acts
      goroutines := hgo
      history := history_append h.history hhist }

/-- Goroutine `k` does one thing other than writing a record or a checkpoint, and moves on. -/
theorem TraceInv.moved (h : TraceInv cs store w commits tr) {a : Action} {k : Nat} {c : Commit}
    {pc : Pc} (hw : writes [a] = []) (hc : checkpointCalls [a] = []) (hjust : Justified tr a)
    (hsync : ∀ j, j ≠ k → a.isSyncOf j = false) (hpc : PcTraced (tr ++ [a]) k pc) :
    TraceInv cs store w (commits.set k { c with pc := pc }) (tr ++ [a]) := by
  refine h.act hw hc (history_singleton hjust)
    (pcTraced_local.set h.goroutines (fun b hb => ?_) hpc)
  rwa [List.mem_singleton.mp hb]

/-- `Reserve` wrote a record. -/
theorem TraceInv.reserved (h : TraceInv cs store w commits tr) (data : Bytes) {c : Commit}
    (hready : c.pc = .ready) :
    TraceInv cs store (w.reserved cs data) (commits ++ [c])
      (tr ++ [.wrote ⟨w.writeSeq + 1, w.nextOffset, w.file.length⟩ data]) := by
  -- the record as it will be checkpointed
  set p : PendingCheckpoint := ⟨w.writeSeq + 1, w.nextOffset, w.file.length⟩ with hp
  have hlen := h.length_writes
  have hsynced := h.le_writeSeq h.covered
  have hsize := h.size
  have hwrites : writes (tr ++ [.wrote p data]) = writes tr ++ [p] := writes_append _ _
  have hcalls : checkpointCalls (tr ++ [.wrote p data]) = checkpointCalls tr := by
    rw [checkpointCalls_append]
    exact List.append_nil _
  have hpos := headerSize_pos cs
  have hquiet : ∀ a ∈ [Action.wrote p data], ∀ j, a.isSyncOf j = false := fun a ha j => by
    rw [List.mem_singleton.mp ha]
    rfl
  exact
    { size := by simp only [WALWriter.reserved, List.length_append, hsize]
      seqs := by
        rw [hwrites, List.map_append, h.seqs, WALWriter.reserved, List.range'_concat,
          List.map_singleton, hp, Nat.one_mul, Nat.add_comm w.writeSeq]
      -- an older record ends before the new one starts
      below := by
        rw [hwrites]
        simp only [WALWriter.reserved, encode_length]
        intro q hq
        rcases List.mem_append.mp hq with hq | hq
        · have := h.below q hq
          omega
        · rw [List.mem_singleton.mp hq, hp]
          simp only
          omega
      ascending := by
        rw [hwrites]
        refine List.pairwise_append.mpr ⟨h.ascending, List.pairwise_singleton _ _, ?_⟩
        intro q hq q' hq'
        have := h.below q hq
        rw [List.mem_singleton.mp hq', hp]
        simp only
        omega
      -- the file only grows, and the new bytes stand at its old end
      placed := fun q d hq => by
        simp only [WALWriter.reserved]
        rcases List.mem_append.mp hq with hq | hq
        · have hbelow := (h.below q (List.mem_filterMap.mpr ⟨_, hq, rfl⟩)).2
          rw [List.drop_append_of_le_length (by omega)]
          exact (h.placed q d hq).trans (List.prefix_append _ _)
        · obtain ⟨rfl, rfl⟩ := Action.wrote.inj (List.mem_singleton.mp hq)
          exact ⟨[], by rw [hp, List.drop_left, List.append_nil]⟩
      calls := by
        simp only [WALWriter.reserved]
        rw [hwrites, hcalls, List.take_append_of_le_length (by omega), h.calls]
      pending := by
        simp only [WALWriter.reserved]
        rw [hwrites, List.drop_append_of_le_length (by omega), h.pending, hp, hsize]
      store := by rw [hcalls]; exact h.store
      covered := fun seq hpos hle => (h.covered seq hpos hle).append _
      goroutines := pcTraced_local.concat
        (fun k c hk => pcTraced_local.append (h.goroutines k c hk) fun a ha => hquiet a ha k) hready
      history := history_append h.history (history_singleton trivial) }

/-- The pending records are numbered from `syncedSeq + 1` on. -/
theorem TraceInv.pending_seqs (h : TraceInv cs store w commits tr) :
    w.pending.map PendingCheckpoint.seq =
      List.range' (w.syncedSeq + 1) (w.writeSeq - w.syncedSeq) := by
  rw [h.pending, List.map_drop, h.seqs, List.drop_range', Nat.mul_one, Nat.add_comm 1]

/-- A record that is handed to the index is covered by the flush that returned. -/
theorem TraceInv.justified_checkpoint (h : TraceInv cs store w commits tr) {target : Nat}
    (hcov : ∀ seq, 0 < seq → seq ≤ target → Covered tr seq) (idx : Nat → WriteOutcome) (i : Nat)
    (a : Action) (ha : (checkpointActions target idx w.pending)[i]? = some a) :
    Justified (tr ++ (checkpointActions target idx w.pending).take i) a := by
  rw [checkpointActions, List.getElem?_map, Option.map_eq_some_iff] at ha
  obtain ⟨p, hp, rfl⟩ := ha
  have hmem := List.mem_of_getElem? hp
  -- what is drained was pending, so it was written
  have hwrote : p ∈ writes tr := by
    have := (List.takeWhile_sublist _).subset hmem
    rw [h.pending] at this
    exact List.mem_of_mem_drop this
  have hseq := h.mem_seqs.mp (List.mem_map_of_mem hwrote)
  have hle : p.seq ≤ target := by simpa using List.mem_takeWhile_imp hmem
  refine ⟨p, ?_, rfl, rfl, (hcov p.seq hseq.1 hle).append _⟩
  rw [writes_append]
  exact List.mem_append_left _ hwrote

/-- A flush returned nil: the records up to its target are handed to the index. -/
theorem TraceInv.drained (h : TraceInv cs store w commits tr) {target : Nat}
    (hcov : ∀ seq, 0 < seq → seq ≤ target → Covered tr seq) (idx : Nat → WriteOutcome)
    (hgo : ∀ k c, commits'[k]? = some c →
      PcTraced (tr ++ checkpointActions target idx w.pending) k c.pc) :
    TraceInv cs store (w.finishSync target true idx) commits'
      (tr ++ checkpointActions target idx w.pending) := by
  -- the queue has the numbers behind the synced one, so draining cuts its front
  obtain ⟨htake, hdrop, -, -⟩ := split_seq h.pending_seqs target
  have hmax : max w.syncedSeq target = w.syncedSeq + (target - w.syncedSeq) := by omega
  have hwrites : writes (tr ++ checkpointActions target idx w.pending) = writes tr := by
    rw [writes_append, writes_checkpointActions, List.append_nil]
  rw [WALWriter.finishSync_true, drainLoop_eq]
  exact
    { size := h.size
      seqs := by rw [hwrites]; exact h.seqs
      below := by rw [hwrites]; exact h.below
      ascending := by rw [hwrites]; exact h.ascending
      placed := h.placed_append (writes_checkpointActions target idx w.pending)
      calls := by
        simp only
        rw [hwrites, hmax, List.take_add, List.map_append, ← h.calls, checkpointCalls_append,
          List.map_append, checkpointCalls_checkpointActions, List.map_map, htake, h.pending]
        rfl
      pending := by
        simp only
        rw [hwrites, hdrop, hmax, h.pending, List.drop_drop]
      store := by
        simp only
        rw [checkpointCalls_append, List.foldl_append, ← h.store,
          checkpointCalls_checkpointActions, List.foldl_map]
      covered := fun seq hpos hle => by
        refine Covered.append ?_ _
        -- synced before, or by this flush
        rcases Nat.lt_or_ge target seq with hgt | hle'
        · exact h.covered seq hpos (by simp only at hle; omega)
        · exact hcov seq hpos hle'
      goroutines := hgo
      history := history_append h.history (h.justified_checkpoint hcov idx) }

/-- A flush starts: everything written so far is in the file by then. -/
theorem TraceInv.led (h : TraceInv cs store w commits tr) {k : Nat} {c : Commit} :
    TraceInv cs store { w with syncing := true }
      (commits.set k { c with pc := .flushing w.writeSeq w.file.length })
      (tr ++ [.syncStarted k]) := by
  -- all that is reserved is written before the sync starts
  have hflight : InFlight (tr ++ [.syncStarted k]) k w.writeSeq :=
    ⟨tr, [], rfl, by simp, fun seq hpos hle => h.mem_seqs.mpr ⟨hpos, hle⟩⟩
  have hmoved : TraceInv cs store w
      (commits.set k { c with pc := .flushing w.writeSeq w.file.length })
      (tr ++ [.syncStarted k]) :=
    h.moved rfl rfl trivial (fun j hj => decide_eq_false (Ne.symm hj)) hflight
  exact { hmoved with }

/-- **Step lemma**: writer, goroutines and actions keep agreeing. -/
theorem TraceInv.step {s s' : TracedLog} {e : WriterEvent}
    (h : TraceInv cs store s.log.writer s.log.commits s.trace) (hatomic : e.AtomicWrite)
    (hstep : s.step cs e = some s') :
    TraceInv cs store s'.log.writer s'.log.commits s'.trace := by
  cases step_tracedStep hstep with
  | called seq => exact { h with goroutines := pcTraced_local.concat h.goroutines rfl }
  | refused => exact h
  -- an atomic write that failed wrote nothing
  | writeFailed data o m hzero =>
    obtain rfl := hzero hatomic
    simpa using h
  | reserved data => exact h.reserved data rfl
  | failed k c => exact h.moved rfl rfl trivial (fun _ _ => rfl) trivial
  -- the record was synced by somebody else's flush
  | done k c _ _ _ hseq =>
    exact h.moved rfl rfl (fun hpos => h.covered c.seq hpos hseq) (fun _ _ => rfl) trivial
  | waited k c =>
    have hact : TraceInv cs store s.log.writer
        (s.log.commits.set k { c with pc := .waiting false }) (s.trace ++ []) :=
      h.act rfl rfl (by simp) (pcTraced_local.set h.goroutines (by simp) trivial)
    rwa [List.append_nil] at hact
  | led k c => exact h.led
  -- what was in flight when the sync started is covered when it succeeds
  | syncReturned k c target covered ok hc hpc =>
    have hgo := h.goroutines k c hc
    rw [hpc] at hgo
    have hflushed : PcTraced (s.trace ++ [.syncReturned k ok]) k (.flushed target ok) := by
      cases ok with
      | true => exact fun seq hpos hle => InFlight.covered hgo hpos hle
      | false => trivial
    exact h.moved rfl rfl trivial (fun j hj => decide_eq_false (Ne.symm hj)) hflushed
  | drained k c target idx hc hpc =>
    have hgo := h.goroutines k c hc
    rw [hpc] at hgo
    -- no call of `Checkpoint` is an action of a flush
    have hquiet : ∀ a ∈ checkpointActions target idx s.log.writer.pending, ∀ j, j ≠ k →
        a.isSyncOf j = false := fun a ha j _ => by
      obtain ⟨_, _, rfl⟩ := List.mem_map.mp ha
      rfl
    exact h.drained hgo idx
      (pcTraced_local.broadcast (pcTraced_local.set h.goroutines hquiet trivial))
  | broke k c target idx =>
    have hmoved : TraceInv cs store s.log.writer
        (s.log.commits.set k { c with pc := .returned false })
        (s.trace ++ [.committed c.seq false]) :=
      h.moved rfl rfl trivial (fun _ _ => rfl) trivial
    exact { hmoved with goroutines := pcTraced_local.broadcast hmoved.goroutines }

end Steps

/-! ## Opening -/

section Opening

variable {cs : Checksum} {file : Bytes} {w : WALWriter}

/-- The scan stays inside the file. -/
theorem recoverLoop_le {fuel pos off pos' off' : Nat} (hpos : pos ≤ file.length)
    (h : recoverLoop cs file fuel pos off = .ok (pos', off')) : pos' ≤ file.length := by
  induction fuel generalizing pos off with
  | zero => obtain ⟨rfl, -⟩ := Prod.mk.inj (Except.ok.inj h); exact hpos
  | succ fuel ih =>
    rw [recoverLoop] at h
    simp only at h
    split_ifs at h with _ _ _ hfits
    · -- at the end of the file, in a header, in a payload
      obtain ⟨rfl, -⟩ := Prod.mk.inj (Except.ok.inj h); exact hpos
    · obtain ⟨rfl, -⟩ := Prod.mk.inj (Except.ok.inj h); exact hpos
    · obtain ⟨rfl, -⟩ := Prod.mk.inj (Except.ok.inj h); exact hpos
    · exact ih (by omega) h

/-- A log that was just opened ends where its writer appends, with nothing to flush. -/
theorem TraceInv.opened {store : InMemoryStore} (h : newWalWriter cs file store = .ok w) :
    TraceInv cs w.store w [] [] := by
  simp only [newWalWriter, WALWriter.recover] at h
  generalize recoverStart cs file store.loadCheckpoints = start at h
  split_ifs at h with hinside
  split at h
  · cases h
  · -- the scan ends inside the file, and a new writer has written nothing
    rename_i pos off hscan
    obtain rfl := Except.ok.inj h
    have hpos : pos ≤ file.length := recoverLoop_le (by omega) hscan
    exact
      { size := by simp only [List.length_take]; omega
        seqs := rfl
        below := by simp [writes]
        ascending := List.Pairwise.nil
        placed := by simp
        calls := rfl
        pending := rfl
        store := rfl
        covered := fun seq hpos hle => absurd hle (by simp only; omega)
        goroutines := by simp
        history := by simp }

end Opening

/-! ## The index and the log -/

/-- The index is behind the log. -/
structure IndexBehindLog (cs : Checksum) (store : InMemoryStore) (s : TracedLog) : Prop where
  /-- `Commit` returns nil only for a record that is covered by then. -/
  committed : ∀ i seq, s.trace[i]? = some (.committed seq true) → 0 < seq →
    Covered (s.trace.take i) seq
  /-- `Checkpoint` is called only for a record that is covered by then, with its offset and
      the position of its bytes. -/
  checkpointed : ∀ i offset pos o, s.trace[i]? = some (.checkpointed offset pos o) →
    ∃ p ∈ writes (s.trace.take i), p.offset = offset ∧ p.pos = pos ∧
      Covered (s.trace.take i) p.seq
  placed : ∀ p d, .wrote p d ∈ s.trace → encode cs d <+: s.log.writer.file.drop p.pos
  ascending : (checkpointCalls s.trace).Pairwise fun c c' => c.1 < c'.1 ∧ c.2.1 < c'.2.1
  /-- The records of the session are numbered in order. -/
  seqs : (writes s.trace).map PendingCheckpoint.seq = List.range' 1 s.log.writer.writeSeq
  /-- Those up to `syncedSeq` were passed to `Checkpoint`, each once. -/
  calls : (checkpointCalls s.trace).map (fun c => (c.1, c.2.1)) =
    ((writes s.trace).filter (·.seq ≤ s.log.writer.syncedSeq)).map fun p => (p.offset, p.pos)
  /-- The others are pending. -/
  pending : s.log.writer.pending = (writes s.trace).filter fun p =>
    s.log.writer.syncedSeq < p.seq ∧ p.seq ≤ s.log.writer.writeSeq
  /-- The index is what these calls made it. -/
  store : s.log.writer.store =
    (checkpointCalls s.trace).foldl (fun s c => s.checkpoint c.1 c.2.1 c.2.2) store

/-- The agreement of writer, goroutines and actions says so. -/
theorem TraceInv.indexBehindLog {cs : Checksum} {store : InMemoryStore} {s : TracedLog}
    (h : TraceInv cs store s.log.writer s.log.commits s.trace) : IndexBehindLog cs store s := by
  obtain ⟨-, -, hle, hgt⟩ := split_seq h.seqs s.log.writer.syncedSeq
  rw [Nat.sub_zero] at hle hgt
  refine
    { committed := fun i seq hi => h.history i _ hi
      checkpointed := fun i offset pos o hi => h.history i _ hi
      placed := h.placed
      ascending := ?_
      seqs := h.seqs
      calls := by rw [h.calls, hle]
      pending := ?_
      store := h.store }
  -- the calls follow the records, whose offsets and positions ascend
  · have hcalls : ((checkpointCalls s.trace).map fun c => (c.1, c.2.1)).Pairwise
        fun c c' => c.1 < c'.1 ∧ c.2 < c'.2 := by
      rw [h.calls]
      exact List.pairwise_map.mpr (h.ascending.sublist (List.take_sublist _ _))
    exact List.pairwise_map.mp hcalls
  · -- what is pending is what was written and is not synced
    rw [h.pending, ← hgt]
    refine List.filter_congr fun p hp => ?_
    have := (h.mem_seqs.mp (List.mem_map_of_mem hp)).2
    simp [this]

/-- **The index never leads the log.**  Whatever goroutines reserve and commit on a writer
    that was just opened, in any interleaving and with any flush failing.  The offsets of the
    session are taken to stay below `2 ^ 64`, also behind a forged checkpoint. -/
theorem index_never_leads (cs : Checksum) (file : Bytes) (store : InMemoryStore) {w : WALWriter}
    (hopen : newWalWriter cs file store = .ok w) (es : List WriterEvent)
    (hes : ∀ e ∈ es, e.AtomicWrite) {s : TracedLog}
    (hrun : run (TracedLog.step cs) (TracedLog.opened w) es = some s) :
    IndexBehindLog cs w.store s := by
  have hstep : ∀ (t : TracedLog) (e : WriterEvent) (t' : TracedLog),
      TraceInv cs w.store t.log.writer t.log.commits t.trace → e.AtomicWrite →
      t.step cs e = some t' → TraceInv cs w.store t'.log.writer t'.log.commits t'.trace :=
    fun _ _ _ h hatomic hstep => h.step hatomic hstep
  have hinv := run_invariant hstep (TraceInv.opened hopen) (along_of_forall hes) hrun
  exact hinv.indexBehindLog

/-- Two goroutines: the second record is written while the flush of the first is in flight,
    so that it needs a flush of its own. -/
def overlapping : List WriterEvent :=
  [.log (.reserve [1] .ok), .log (.pass 0), .log (.reserve [2] .ok), .log (.pass 1),
    .log (.syncReturn 0 true), .log (.relock 0 fun _ => .ok), .log (.pass 1), .log (.pass 0)]

/-- The first is committed, the second is still pending. -/
theorem index_never_leads_overlapping : ∃ w s,
    newWalWriter byteSum [] (newInMemoryStore [] NthIndex) = .ok w ∧
      run (TracedLog.step byteSum) (TracedLog.opened w) overlapping = some s ∧
      s.trace[6]? = some (.committed 1 true) ∧ Covered (s.trace.take 6) 1 ∧
      s.log.writer.pending = [⟨2, 1, 6⟩] := by
  refine ⟨_, _, rfl, rfl, rfl, ?_, rfl⟩
  exact (index_never_leads byteSum [] (newInMemoryStore [] NthIndex) rfl overlapping
    (by simp [overlapping, WriterEvent.AtomicWrite, WriteOutcome.Atomic]) rfl).committed 6 1 rfl
    (by decide)

end EventLog.Wal
