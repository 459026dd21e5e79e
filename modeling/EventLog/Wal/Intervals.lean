import EventLog.Wal.PartialWrites

/-!
# Sessions with a checkpoint interval

`NewInMemoryStore` takes the interval of the checkpoints as a parameter, and every session
opens the store anew.  `SessionLog` is a log over such sessions, with the payloads written
to it and the number of records of each session that has ended.

The calls of `Checkpoint` that one event makes are those of a drain of the pending list;
`IndexCalls` states a condition on each of them.
-/

namespace EventLog.Wal

open EventLog.Lib

variable {cs : Checksum} {nth : Nat}

/-! ## Opening with an interval -/

/-- A log on new, empty files. -/
def OpenLog.createEvery (nth : Nat) : OpenLog :=
  { OpenLog.empty with writer := { OpenLog.empty.writer with store := newInMemoryStore [] nth } }

/-- `NewInMemoryStore` and `NewWalWriter` on the files of a closed log. -/
def OpenLog.openEvery (cs : Checksum) (nth : Nat) (w : OpenLog) : Except RecoverError OpenLog :=
  match newWalWriter cs w.writer.file (newInMemoryStore w.writer.store.indexFile nth) with
  | .error e => .error e
  | .ok writer =>
    .ok { writer := writer
          synced := min w.synced writer.file.length
          commits := []
          acked := w.acked }

/-- With the interval of the engine this is the restart of the other modules. -/
theorem OpenLog.openEvery_close (w : OpenLog) (syncOk : Bool) (idx : Nat → WriteOutcome) :
    (w.close syncOk idx).openEvery cs NthIndex = w.restart cs syncOk idx := rfl

/-- A new log has no records and no checkpoints. -/
theorem LogInv.createEvery (cs : Checksum) (nth : Nat) :
    LogInv cs 0 [] [] [] (OpenLog.createEvery nth) :=
  { LogInv.empty cs with index := ⟨rfl, rfl, rfl, List.Pairwise.nil, by simp⟩ }

/-- **Opening** a log of whole records whose index file loads as its true checkpoints. -/
theorem LogInv.openEvery {n₀ : Nat} {recs : List Bytes} {tail : Bytes} {cps : List Nat}
    {w : OpenLog} (h : LogInv cs n₀ recs tail cps w) (nth : Nat) :
    ∃ w', w.openEvery cs nth = .ok w' ∧ LogInv cs recs.length recs [] cps w' ∧
      w'.commits = [] ∧ w'.writer = openedWriter cs recs
        (newInMemoryStore w.writer.store.indexFile nth).loadCheckpoints := by
  have hload := Indexes.load_all h.index.ascending h.index.lt h.bound nth
  rw [← h.index.file] at hload
  have hopen := newWalWriter_eq hload h.max_le h.bound h.torn.unfinished
  rw [← h.file] at hopen
  refine ⟨⟨openedWriter cs recs (newInMemoryStore w.writer.store.indexFile nth).loadCheckpoints,
    min w.synced (encodeAll cs recs).length, [], w.acked⟩, ?_, ?_, rfl, rfl⟩
  · simp only [OpenLog.openEvery, hopen]
    rfl
  -- what was durable still is
  refine LogInv.opened hload h.max_le h.bound (Nat.min_le_right _ _) (fun k hk => ?_)
    fun o d hod => ?_
  · exact le_min (h.checkpointed k hk).2 (startOf_le _ _ _)
  · exact ⟨(h.acked o d hod).1, le_min (h.acked o d hod).2 (startOf_le _ _ _)⟩

/-! ## Sessions -/

/-- A log over sessions: the payloads written, by offset, and how many records each session
    before the current one wrote. -/
structure SessionLog where
  log : OpenLog
  written : List Bytes
  lengths : List Nat
  deriving DecidableEq, Repr

namespace SessionLog

def create (nth : Nat) : SessionLog := ⟨OpenLog.createEvery nth, [], []⟩

/-- A step of the writer, or `Close` and opening again. -/
def step (cs : Checksum) (nth : Nat) (s : SessionLog) : SessionEvent → Option SessionLog
  | .log e =>
    (s.log.step cs e).map fun log =>
      { s with log := log, written := s.written ++ (s.log.newlyReserved cs e).map Prod.snd }
  | .restart syncOk idx =>
    match (s.log.close syncOk idx).openEvery cs nth with
    | .error _ => none
    | .ok log =>
      some { s with log := log, lengths := s.lengths ++ [s.log.writer.writeSeq] }

end SessionLog

/-- The event belongs to writes that are committed: no write of the log file and no fsync
    fails. -/
def CommittedWrites : SessionEvent → Prop
  | .log (.reserve _ o) => o = .ok
  | .log (.syncReturn _ ok) => ok = true
  | .log (.pass _) => True
  | .log (.relock _ _) => True
  | .restart syncOk _ => syncOk = true

instance : DecidablePred CommittedWrites := fun e => by
  cases e with
  | log e => cases e <;> unfold CommittedWrites <;> infer_instance
  | restart syncOk idx => unfold CommittedWrites; infer_instance

/-- A `Write` by goroutine `k`; `o` is the outcome of its index write, if there is one. -/
def writeBy (k : Nat) (data : Bytes) (o : WriteOutcome) : List SessionEvent :=
  [.log (.reserve data .ok), .log (.pass k), .log (.syncReturn k true),
    .log (.relock k fun _ => o), .log (.pass k)]

/-! ## Calls of `Checkpoint` -/

/-- Every call of `Checkpoint` in a drain of the pending list meets `P`. -/
def DrainAll (P : InMemoryStore → PendingCheckpoint → WriteOutcome → Prop) (target : Nat)
    (idx : Nat → WriteOutcome) : InMemoryStore → List PendingCheckpoint → Prop
  | _, [] => True
  | s, p :: ps =>
    p.seq ≤ target → P s p (idx p.offset) ∧
      DrainAll P target idx (s.checkpoint p.offset p.pos (idx p.offset)) ps

/-- The drain of the pending list that an event makes: up to which record, and with what
    outcomes of the index writes. -/
def OpenLog.drains (w : OpenLog) : SessionEvent → Option (Nat × (Nat → WriteOutcome))
  | .log (.relock k idx) =>
    match w.commits[k]? with
    | some ⟨_, _, _, .flushed target true⟩ => some (target, idx)
    | _ => none
  | .restart syncOk idx =>
    if w.writer.writeSeq > w.writer.syncedSeq ∧ w.writer.syncErr = false ∧ syncOk then
      some (w.writer.writeSeq, idx)
    else none
  | _ => none

/-- Every call of `Checkpoint` that the event makes meets `P`. -/
def IndexCalls (P : InMemoryStore → PendingCheckpoint → WriteOutcome → Prop) (w : OpenLog)
    (e : SessionEvent) : Prop :=
  ∀ d ∈ w.drains e, DrainAll P d.1 d.2 w.writer.store w.writer.pending

theorem drains_relock {w : OpenLog} {k target : Nat} {idx : Nat → WriteOutcome} {c : Commit}
    (hk : w.commits[k]? = some c) (hpc : c.pc = .flushed target true) :
    w.drains (.log (.relock k idx)) = some (target, idx) := by
  obtain ⟨offset, data, seq, pc⟩ := c
  obtain rfl : pc = .flushed target true := hpc
  simp only [OpenLog.drains, hk]

section Decidable

variable {P : InMemoryStore → PendingCheckpoint → WriteOutcome → Prop}
  [∀ s p o, Decidable (P s p o)]

instance DrainAll.decidable (target : Nat) (idx : Nat → WriteOutcome) :
    ∀ s ps, Decidable (DrainAll P target idx s ps)
  | _, [] => inferInstanceAs (Decidable True)
  | s, p :: ps =>
    have := DrainAll.decidable target idx (s.checkpoint p.offset p.pos (idx p.offset)) ps
    inferInstanceAs (Decidable (p.seq ≤ target → P s p (idx p.offset) ∧ _))

instance (w : OpenLog) (e : SessionEvent) : Decidable (IndexCalls P w e) :=
  inferInstanceAs (Decidable (∀ d ∈ w.drains e, DrainAll P d.1 d.2 w.writer.store w.writer.pending))

end Decidable

/-! ## What a step writes -/

/-- A step writes nothing, or the payload of a `Reserve`. -/
theorem newPayloads_cases (cs : Checksum) (w : OpenLog) (e : LogEvent) :
    (w.newlyReserved cs e).map Prod.snd = [] ∨ ∃ data o, e = .reserve data o ∧
      (w.newlyReserved cs e).map Prod.snd = [data] := by
  rcases newlyReserved_cases cs w e with hnil | ⟨data, o, he, hnew⟩
  · exact Or.inl (by rw [hnil, List.map_nil])
  · exact Or.inr ⟨data, o, he, by rw [hnew, List.map_singleton]⟩

/-- **Step lemma** for writes that are not torn: the log holds what was written. -/
theorem LogInv.addAtomic {n₀ : Nat} {recs ds : List Bytes} {cps : List Nat} {w w' : OpenLog}
    {e : LogEvent} (h : LogInv cs n₀ recs [] cps w) (he : e.Atomic)
    (ht : LogTransition cs w e w')
    (hds : ds = [] ∨ ∃ data o, e = .reserve data o ∧ ds = [data])
    (hnext : w'.writer.nextOffset = w.writer.nextOffset + ds.length) :
    ∃ cps', LogInv cs n₀ (recs ++ ds) [] cps' w' := by
  obtain ⟨tail', cps', h', htail⟩ := h.addReserved he.index (fun _ _ _ _ => rfl) ht hds hnext
  obtain rfl := htail rfl he
  exact ⟨cps', h'⟩

end EventLog.Wal
