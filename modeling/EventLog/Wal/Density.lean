import EventLog.Lib.Cadence
import EventLog.Wal.Intervals

/-!
# The density of the checkpoints

Every `nth` record gets a checkpoint, so that a read walks over at most `nth` records.  The
counter behind it is not stored: every session starts it at 0, whatever the distance from
the last checkpoint is.  Sessions too short to reach a checkpoint add up.

* `Cadence`: at which offsets the checkpoints of a log are, given the lengths of its
  sessions.
* `Dense`: what the interval is for.
* `dense_iff_fits`: the log is dense exactly when the lengths of the sessions fit.
-/

namespace EventLog.Wal

open EventLog.Lib

variable {cs : Checksum} {nth : Nat} {recs : List Bytes} {cps : List Nat} {s : InMemoryStore}

/-! ## What the interval is for -/

/-- Every offset has a checkpoint less than `nth` below it, or is below `nth` itself; so a
    read walks over at most `nth` records, and so does the next recovery. -/
structure Dense (cs : Checksum) (nth : Nat) (w : OpenLog) : Prop where
  floor : ∀ o < w.writer.nextOffset,
    match w.writer.store.floor o with
    | none => o < nth
    | some (f, _) => f ≤ o ∧ o - f < nth
  read : ∀ o < w.writer.nextOffset, o + 1 - (walkStart w.writer.store o).1 ≤ nth
  recover : w.writer.nextOffset -
    (recoverStart cs w.writer.file w.writer.store.loadCheckpoints).1 ≤ nth

/-- `Floor` is near exactly when some checkpoint is. -/
theorem Indexes.floor_near_iff (h : Indexes cs recs cps s) (o : Nat) :
    (match s.floor o with
      | none => o < nth
      | some (f, _) => f ≤ o ∧ o - f < nth) ↔ Near nth cps o := by
  -- without a checkpoint at or before `o` the walk starts at the first record
  rcases h.floor o with ⟨hnone, habove⟩ | ⟨k, hk, hko, hgreatest, hsome⟩
  · rw [hnone]
    refine ⟨fun hlt => Or.inr ⟨habove, hlt⟩, ?_⟩
    rintro (⟨f, hf, hfo, -⟩ | ⟨-, hlt⟩)
    · have := habove f hf
      omega
    · exact hlt
  · -- the floor is the greatest of the checkpoints, so none is nearer
    rw [hsome]
    constructor
    · rintro ⟨-, hlt⟩
      exact Or.inl ⟨k, hk, hko, by omega⟩
    · rintro (⟨f, hf, hfo, hlt⟩ | ⟨hall, -⟩)
      · have := hgreatest f hf hfo
        exact ⟨hko, by omega⟩
      · have := hall k hk
        omega

/-- **Density** is that of the checkpoints among the offsets. -/
theorem LogInv.dense_iff {n₀ : Nat} {w : OpenLog} (h : LogInv cs n₀ recs [] cps w) :
    Dense cs nth w ↔ ∀ o < recs.length, Near nth cps o := by
  have hfloor : ∀ o, _ ↔ Near nth cps o := fun o => h.index.floor_near_iff o
  constructor
  · intro hdense o ho
    exact (hfloor o).mp (hdense.floor o (h.next ▸ ho))
  · intro hnear
    have hat : ∀ o < w.writer.nextOffset, _ := fun o ho => (hfloor o).mpr (hnear o (h.next ▸ ho))
    refine ⟨hat, fun o ho => ?_, ?_⟩
    · -- the walk to a record is as long as its distance from the checkpoint
      have hfloor' := hat o ho
      unfold walkStart
      cases hf : w.writer.store.floor o with
      | none =>
        simp only [hf] at hfloor'
        simp only
        omega
      | some f =>
        simp only [hf] at hfloor'
        simp only
        omega
    · -- recovery starts at the last checkpoint, which is near the last record
      have hload := h.index
      rw [← h.index.loadCheckpoints h.bound] at hload
      obtain ⟨k, hk, -, hlast, hstart⟩ := recoverStart_last hload h.bound
      rw [hstart w.writer.file fun c _ => h.startOf_le_file (c + 1), h.next]
      by_cases hzero : recs.length = 0
      · omega
      · rcases hnear (recs.length - 1) (by omega) with ⟨f, hf, hle, hlt⟩ | ⟨hall, hlt⟩
        · have hfk := (hlast k).mp le_rfl f hf (le_maxUint64 h.bound h.index.lt hf)
          omega
        · omega

/-! ## Where the checkpoints are -/

/-- The call of `Checkpoint` for a pending record returns nil. -/
def Checkpointed (s : InMemoryStore) (p : PendingCheckpoint) (o : WriteOutcome) : Prop :=
  s.Accepts p.offset p.pos o

instance (s : InMemoryStore) (p : PendingCheckpoint) (o : WriteOutcome) :
    Decidable (Checkpointed s p o) :=
  inferInstanceAs (Decidable (s.Accepts ..))

/-- The store counts the `k` records that a session from offset `n₀` on has committed, and
    holds their checkpoints behind those of the sessions before. -/
structure Counted (nth : Nat) (before : List Nat) (n₀ k : Nat) (s : InMemoryStore) : Prop where
  interval : s.nthIndex = nth
  count : s.n = k % nth
  offsets : s.offsets = before ++ marks nth n₀ k

variable {before : List Nat} {n₀ k : Nat}

/-- **Step lemma**: one more record. -/
theorem Counted.checkpoint (hnth : 1 ≤ nth) (h : Counted nth before n₀ k s)
    {p : PendingCheckpoint} {o : WriteOutcome} (hp : p.offset = n₀ + k)
    (hok : Checkpointed s p o) :
    Counted nth before n₀ (k + 1) (s.checkpoint p.offset p.pos o) := by
  have hmod : (k + 1) % nth = (k % nth + 1) % nth := by rw [Nat.mod_add_mod]
  have hlt := Nat.mod_lt k hnth
  -- the store counts modulo the interval
  have hn := h.count
  have hN := h.interval
  unfold InMemoryStore.checkpoint
  by_cases hskip : s.nthIndex > 0 ∧ s.n + 1 < s.nthIndex
  · -- counted and dropped
    have hnext : (k + 1) % nth = k % nth + 1 := by rw [hmod, Nat.mod_eq_of_lt (by omega)]
    simp only [hskip, and_self, if_true]
    refine ⟨h.interval, by rw [hnext, ← hn], ?_⟩
    rw [marks_succ_of_not_mod (by omega)]
    exact h.offsets
  · -- the interval is full, so this one is written
    have hzero : (k + 1) % nth = 0 := by
      have heq : k % nth + 1 = nth := by omega
      rw [hmod, heq, Nat.mod_self]
    have hwrite := hok.resolve_left hskip
    simp only [hskip, if_false, hwrite, if_true]
    refine ⟨h.interval, hzero.symm, ?_⟩
    rw [marks_succ_of_mod hzero, ← hp, ← List.append_assoc, ← h.offsets]

/-- **Run lemma**: the drain of the pending records. -/
theorem Counted.drain (hnth : 1 ≤ nth) {target m : Nat} {idx : Nat → WriteOutcome}
    (h : Counted nth before n₀ k s) (htarget : target ≤ k + m)
    (hall : DrainAll Checkpointed target idx s (pendingOf cs recs n₀ k m)) :
    Counted nth before n₀ (max k target)
      (drainLoop target idx s (pendingOf cs recs n₀ k m)).1 := by
  induction m generalizing k s with
  | zero =>
    rw [Nat.max_eq_left (by omega)]
    exact h
  | succ m ih =>
    rw [pendingOf_succ] at hall ⊢
    rw [drainLoop]
    -- the queue is drained in the order of the records, up to the synced one
    by_cases hle : k + 1 ≤ target
    · obtain ⟨hok, hrest⟩ := hall hle
      have hmax : max k target = max (k + 1) target := by omega
      rw [if_pos hle, hmax]
      exact ih (h.checkpoint hnth rfl hok) (by omega) hrest
    · rw [if_neg hle, Nat.max_eq_left (by omega)]
      exact h

/-! ## Runs -/

/-- The event is part of committed writes with successful index writes, or a restart after a
    clean `Close`. -/
def Clean (s : SessionLog) (e : SessionEvent) : Prop :=
  CommittedWrites e ∧ e.AtomicIndex ∧ IndexCalls Checkpointed s.log e

/-- The checkpoints are those that the lengths of the sessions give. -/
structure Cadence (cs : Checksum) (nth : Nat) (s : SessionLog) : Prop where
  log : ∃ cps, LogInv cs s.lengths.sum s.written [] cps s.log
  counted : Counted nth (allMarks nth 0 s.lengths) s.lengths.sum s.log.writer.syncedSeq
    s.log.writer.store
  noError : s.log.writer.syncErr = false
  flushes : ∀ c ∈ s.log.commits, ∀ target, c.pc ≠ .flushed target false

theorem cadence_create (cs : Checksum) (nth : Nat) : Cadence cs nth (SessionLog.create nth) where
  log := ⟨[], LogInv.createEvery cs nth⟩
  counted := ⟨rfl, (Nat.zero_mod nth).symm, rfl⟩
  noError := rfl
  flushes := fun _ hc => nomatch hc

variable {w w' : OpenLog}

/-- The drain of the session's pending records. -/
theorem LogInv.counted_drain (h : LogInv cs n₀ recs [] cps w) (hnth : 1 ≤ nth)
    (hcounted : Counted nth before n₀ w.writer.syncedSeq w.writer.store) {target : Nat}
    {idx : Nat → WriteOutcome} (htarget : target ≤ w.writer.writeSeq)
    (hall : DrainAll Checkpointed target idx w.writer.store w.writer.pending) :
    Counted nth before n₀ (max w.writer.syncedSeq target)
      (drainLoop target idx w.writer.store w.writer.pending).1 := by
  have hle := h.synced_seq
  rw [h.pending] at hall ⊢
  exact hcounted.drain hnth (by omega) hall

/-- **Step lemma of the writer**: only the return of a flush drains pending records. -/
theorem Cadence.logStep {s : SessionLog} (h : Cadence cs nth s) (hnth : 1 ≤ nth) {e : LogEvent}
    (he : Clean s (.log e)) (ht : LogTransition cs s.log e w') :
    Counted nth (allMarks nth 0 s.lengths) s.lengths.sum w'.writer.syncedSeq w'.writer.store ∧
      w'.writer.syncErr = false ∧ ∀ c ∈ w'.commits, ∀ target, c.pc ≠ .flushed target false := by
  -- only the goroutine of the event moves
  have hset : ∀ {k : Nat} {c : Commit} {pc : Pc}, (∀ target, pc ≠ .flushed target false) →
      ∀ c' ∈ s.log.commits.set k { c with pc := pc }, ∀ target, c'.pc ≠ .flushed target false := by
    intro k c pc hpc c' hc'
    rcases List.mem_or_eq_of_mem_set hc' with hc' | rfl
    · exact h.flushes c' hc'
    · exact hpc
  obtain ⟨hcommitted, -, hcalls⟩ := he
  cases ht with
  | refused data o hd => exact ⟨h.counted, h.noError, h.flushes⟩
  | writeFailed data o m hd hm hzero => exact ⟨h.counted, h.noError, h.flushes⟩
  | reserved data o hd hsize =>
    refine ⟨h.counted, h.noError, fun c hc => ?_⟩
    rcases List.mem_append.mp hc with hc | hc
    · exact h.flushes c hc
    · obtain rfl := List.mem_singleton.mp hc
      exact fun _ => Pc.noConfusion
  | commitFailed k c hk hpc =>
    exact ⟨h.counted, h.noError, hset fun _ => Pc.noConfusion⟩
  | committed k c hk hpc hseq =>
    exact ⟨h.counted, h.noError, hset fun _ => Pc.noConfusion⟩
  | waited k c hk hpc =>
    exact ⟨h.counted, h.noError, hset fun _ => Pc.noConfusion⟩
  | led k c hk hpc hsync =>
    exact ⟨h.counted, h.noError, hset fun _ => Pc.noConfusion⟩
  -- without a failed sync no goroutine carries an error
  | syncReturned k c target covered ok hk hpc =>
    obtain rfl : ok = true := hcommitted
    refine ⟨h.counted, h.noError, hset fun target' heq => ?_⟩
    cases heq
  -- the goroutine that synced drains the queue
  | relocked k c target ok idx hk hpc =>
    have hc := List.mem_of_getElem? hk
    cases ok with
    | false => exact absurd hpc (h.flushes c hc target)
    | true =>
      obtain ⟨cps, hlog⟩ := h.log
      have hall := hcalls (target, idx) (drains_relock hk hpc)
      obtain ⟨-, -, -, hpcOk⟩ := hlog.commit c hc
      rw [hpc] at hpcOk
      simp only [WALWriter.finishSync_true, if_true]
      refine ⟨hlog.counted_drain hnth h.counted hpcOk.1 hall, h.noError, fun c' hc' => ?_⟩
      -- a broadcast moves no goroutine into a flush
      obtain ⟨c'', hc'', -, -, -, hsame⟩ := mem_broadcast hc'
      rcases hsame with hsame | ⟨hwait, -⟩
      · rw [hsame]
        exact hset (fun _ => Pc.noConfusion) c'' hc''
      · rw [hwait]
        exact fun _ => Pc.noConfusion

/-- `Close` commits what is pending. -/
theorem Cadence.close {s : SessionLog} (h : Cadence cs nth s) (hnth : 1 ≤ nth)
    {idx : Nat → WriteOutcome} (he : Clean s (.restart true idx)) :
    ∃ cps, LogInv cs s.lengths.sum s.written [] cps (s.log.close true idx) ∧
      Counted nth (allMarks nth 0 s.lengths) s.lengths.sum s.log.writer.writeSeq
        (s.log.close true idx).writer.store := by
  obtain ⟨-, hatomic, hcalls⟩ := he
  obtain ⟨cps, hlog⟩ := h.log
  obtain ⟨cps', hclosed⟩ := hlog.close true hatomic
  refine ⟨cps', hclosed, ?_⟩
  have hle := hlog.synced_seq
  have herr := h.noError
  unfold OpenLog.close WALWriter.close
  -- what the last session left in the queue is drained on close
  by_cases hflush : s.log.writer.writeSeq > s.log.writer.syncedSeq
  · have hdrains : s.log.drains (.restart true idx) = some (s.log.writer.writeSeq, idx) := by
      simp only [OpenLog.drains, hflush, herr, and_self, if_true]
    have hdrained := hlog.counted_drain hnth h.counted le_rfl (hcalls _ hdrains)
    rw [Nat.max_eq_right hle] at hdrained
    simp only [hflush, herr, and_self, if_true]
    exact hdrained
  · have heq : s.log.writer.syncedSeq = s.log.writer.writeSeq := by omega
    simp only [hflush, false_and, if_false]
    exact heq ▸ h.counted

/-- **Step lemma**: a session starts to count at 0, behind the checkpoints of the others. -/
theorem Cadence.step {s s' : SessionLog} (h : Cadence cs nth s) (hnth : 1 ≤ nth)
    {e : SessionEvent} (he : Clean s e) (hstep : s.step cs nth e = some s') :
    Cadence cs nth s' := by
  cases e with
  | log e =>
    obtain ⟨log, hlog, rfl⟩ := Option.map_eq_some_iff.mp hstep
    obtain ⟨cps, hinv⟩ := h.log
    -- a clean outcome is an atomic one
    have hatomic : e.Atomic := by
      cases e with
      | reserve data o =>
        obtain rfl : o = .ok := he.1
        trivial
      | relock k idx => exact he.2.1
      | pass k | syncReturn k ok => trivial
    have ht := step_logTransition hlog
    obtain ⟨hcounted, herr, hflushes⟩ := h.logStep hnth he ht
    have hnext := nextOffset_step hlog
    rw [← List.length_map (f := Prod.snd)] at hnext
    exact ⟨hinv.addAtomic hatomic ht (newPayloads_cases cs s.log e) hnext, hcounted, herr,
      hflushes⟩
  | restart syncOk idx =>
    obtain rfl : syncOk = true := he.1
    obtain ⟨cps, hclosed, hcounted⟩ := h.close hnth he
    obtain ⟨log, hopen, hinv, hcommits, hwriter⟩ := hclosed.openEvery nth
    simp only [SessionLog.step, hopen] at hstep
    obtain rfl := Option.some.inj hstep
    obtain ⟨cps₀, hlog⟩ := h.log
    -- a closed session has as many records as it reserved
    have hsum : (s.lengths ++ [s.log.writer.writeSeq]).sum = s.written.length := by
      rw [List.sum_append, List.sum_singleton, hlog.seq]
    have hseq : log.writer.syncedSeq = 0 := by rw [hwriter]; rfl
    refine ⟨⟨cps, by rw [hsum]; exact hinv⟩, ?_, by rw [hwriter]; rfl, by simp [hcommits]⟩
    rw [hseq]
    refine ⟨by rw [hwriter]; rfl, by rw [hwriter]; exact (Nat.zero_mod nth).symm, ?_⟩
    -- the index file gives the checkpoints back
    rw [hinv.index.offsets, ← hclosed.index.offsets, hcounted.offsets, allMarks_concat,
      marks_zero, List.append_nil, Nat.zero_add]

/-- **When the checkpoints are dense.**  In every state of a log with no uncommitted record,
    every offset is less than `nth` behind its checkpoint, or below `nth` if it has none,
    exactly when the lengths of the sessions so far fit the interval. -/
theorem dense_iff_fits (cs : Checksum) (nth : Nat) (hnth : 1 ≤ nth) (es : List SessionEvent)
    (s : SessionLog) (hes : Along (SessionLog.step cs nth) Clean (SessionLog.create nth) es)
    (hrun : run (SessionLog.step cs nth) (SessionLog.create nth) es = some s)
    (hcommitted : s.log.writer.pending = []) :
    Dense cs nth s.log ↔ Fits nth 0 (s.lengths ++ [s.log.writer.writeSeq]) := by
  have h : Cadence cs nth s := run_invariant (I := Cadence cs nth)
    (fun _ _ _ hI he hstep => hI.step hnth he hstep) (cadence_create cs nth) hes hrun
  obtain ⟨cps, hlog⟩ := h.log
  -- nothing is pending, so all records of the session are counted
  have hseq : s.log.writer.syncedSeq = s.log.writer.writeSeq := by
    have hlen := congrArg List.length (hlog.pending.symm.trans hcommitted)
    rw [pendingOf, List.length_map, List.length_range', List.length_nil] at hlen
    have := hlog.synced_seq
    omega
  -- the checkpoints are the marks of all sessions
  have hcps : cps = allMarks nth 0 (s.lengths ++ [s.log.writer.writeSeq]) := by
    rw [← hlog.index.offsets, h.counted.offsets, allMarks_concat, hseq, Nat.zero_add]
  have hlength : s.written.length = (s.lengths ++ [s.log.writer.writeSeq]).sum := by
    rw [List.sum_append, List.sum_singleton, hlog.seq]
  rw [hlog.dense_iff, hcps, hlength]
  exact near_iff_fits hnth

/-- Sessions of one write each. -/
def shortSessions (n : Nat) : List SessionEvent :=
  writeBy 0 [7] .ok ++
    (List.replicate n (.restart true (fun _ => .ok) :: writeBy 0 [8] .ok)).flatten

theorem mem_shortSessions {n : Nat} {e : SessionEvent} (he : e ∈ shortSessions n) :
    e ∈ .restart true (fun _ => .ok) :: (writeBy 0 [7] .ok ++ writeBy 0 [8] .ok) := by
  simp only [shortSessions, List.mem_append, List.mem_flatten, List.mem_replicate] at he
  rcases he with he | ⟨es, ⟨-, rfl⟩, he⟩
  · exact List.mem_cons_of_mem _ (List.mem_append_left _ he)
  · rcases List.mem_cons.mp he with rfl | he
    · exact List.mem_cons_self
    · exact List.mem_cons_of_mem _ (List.mem_append_right _ he)

/-- All writes are committed, and no index write fails. -/
theorem shortSessions_atomic (n : Nat) :
    ∀ e ∈ shortSessions n, CommittedWrites e ∧ e.AtomicIndex := by
  intro e he
  have he' := mem_shortSessions he
  simp only [writeBy, List.cons_append, List.nil_append, List.mem_cons, List.not_mem_nil,
    or_false] at he'
  rcases he' with rfl | rfl | rfl | rfl | rfl | rfl | rfl | rfl | rfl | rfl | rfl <;>
    exact ⟨by decide, by simp [SessionEvent.AtomicIndex, LogEvent.AtomicIndex,
      WriteOutcome.Atomic]⟩

theorem shortSessions_clean {n nth : Nat}
    (h : Along (SessionLog.step byteSum nth) (fun s e => IndexCalls Checkpointed s.log e)
      (SessionLog.create nth) (shortSessions n)) :
    Along (SessionLog.step byteSum nth) Clean (SessionLog.create nth) (shortSessions n) :=
  (along_of_forall fun e he => (shortSessions_atomic n e he).1).and
    ((along_of_forall fun e he => (shortSessions_atomic n e he).2).and h)

/-- Two sessions of one record each fit an interval of 2. -/
theorem dense_iff_fits_twoSessions :
    ∃ s, run (SessionLog.step byteSum 2) (SessionLog.create 2) (shortSessions 1) = some s ∧
      Dense byteSum 2 s.log :=
  ⟨_, rfl, (dense_iff_fits byteSum 2 (by decide) (shortSessions 1) _
    (shortSessions_clean (by decide)) rfl (by decide)).mpr (by decide)⟩

/-- A third one has its record two behind the start of the log, and no checkpoint. -/
theorem dense_fails_threeSessions :
    ∃ s, run (SessionLog.step byteSum 2) (SessionLog.create 2) (shortSessions 2) = some s ∧
      Along (SessionLog.step byteSum 2) Clean (SessionLog.create 2) (shortSessions 2) ∧
      s.log.writer.pending = [] ∧ s.log.writer.nextOffset = 3 ∧
      s.log.writer.store.floor 2 = none ∧ ¬ Dense byteSum 2 s.log := by
  obtain ⟨s, hrun, hpending, hnext, hfloor⟩ : ∃ s,
      run (SessionLog.step byteSum 2) (SessionLog.create 2) (shortSessions 2) = some s ∧
      s.log.writer.pending = [] ∧ s.log.writer.nextOffset = 3 ∧
      s.log.writer.store.floor 2 = none :=
    ⟨_, rfl, by decide, by decide, by decide⟩
  refine ⟨s, hrun, shortSessions_clean (by decide), hpending, hnext, hfloor, fun h => ?_⟩
  -- the third record is two away from the start
  have hnear := h.floor 2 (by omega)
  rw [hfloor] at hnear
  exact absurd hnear (by decide)

end EventLog.Wal
