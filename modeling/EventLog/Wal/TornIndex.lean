import EventLog.Wal.Intervals

/-!
# Index writes that fail half way

`commitLocked` ignores the error of `Checkpoint`: the index is only a hint.  But what a
failed write left of an entry stays in the `O_APPEND` file, and the next entry is appended
behind it.  From there on the file is read at the wrong places, and an entry put together
from two of them can look like a checkpoint.

Nothing is lost as long as no entry is written behind a part of one: `LoadCheckpoints` cuts
off a part of an entry at the end of the file.  A log with such a part behaves like the log
without it, which `trim` cuts off.
-/

namespace EventLog.Wal

open EventLog.Lib

variable {cs : Checksum} {nth : Nat}

/-! ## Cutting off a part of an entry -/

/-- A failed write leaves nothing. -/
def atomicOutcome : WriteOutcome → WriteOutcome
  | .ok => .ok
  | .failed _ => .failed 0

theorem atomicOutcome_atomic (o : WriteOutcome) : (atomicOutcome o).Atomic := by
  cases o with
  | ok => trivial
  | failed k => rfl

/-- The event with index writes that fail leaving nothing. -/
def atomicEvent : LogEvent → LogEvent
  | .relock k idx => .relock k fun x => atomicOutcome (idx x)
  | .reserve data o => .reserve data o
  | .pass k => .pass k
  | .syncReturn k ok => .syncReturn k ok

/-- The index file holds the checkpoints in memory, and at most a part of one more. -/
structure AtMostPart (s : InMemoryStore) : Prop where
  le : s.offsets.length * indexEntryBytes ≤ s.indexFile.length
  lt : s.indexFile.length < s.offsets.length * indexEntryBytes + indexEntryBytes

def InMemoryStore.trim (s : InMemoryStore) : InMemoryStore :=
  { s with indexFile := s.indexFile.take (s.offsets.length * indexEntryBytes) }

def OpenLog.trim (w : OpenLog) : OpenLog :=
  { w with writer := { w.writer with store := w.writer.store.trim } }

/-- `Checkpoint` is not due, or its write leaves no byte, or it writes behind whole entries. -/
def Aligned (s : InMemoryStore) (p : PendingCheckpoint) (o : WriteOutcome) : Prop :=
  (s.nthIndex > 0 ∧ s.n + 1 < s.nthIndex) ∨
    (fileWrite s.indexFile (entryBytes p.offset p.pos) o).1 = s.indexFile ∨
    s.indexFile.length % indexEntryBytes = 0

instance (s : InMemoryStore) (p : PendingCheckpoint) (o : WriteOutcome) :
    Decidable (Aligned s p o) :=
  inferInstanceAs (Decidable (_ ∨ _))

variable {s : InMemoryStore}

/-- No part of an entry. -/
theorem atMostPart_of_length (h : s.indexFile.length = s.offsets.length * indexEntryBytes) :
    AtMostPart s ∧ s.trim = s := by
  refine ⟨⟨h.ge, by rw [h]; exact Nat.lt_add_of_pos_right (by decide)⟩, ?_⟩
  rw [InMemoryStore.trim, List.take_of_length_le h.le]

/-- A write that leaves nothing leaves nothing of the trimmed file either: the limit of a
    file is not reached within an entry. -/
theorem AtMostPart.writes_nothing (h : AtMostPart s) {p : PendingCheckpoint} {o : WriteOutcome}
    (hnothing : (fileWrite s.indexFile (entryBytes p.offset p.pos) o).1 = s.indexFile) :
    fileWrite s.trim.indexFile (entryBytes p.offset p.pos) (atomicOutcome o) =
      (s.trim.indexFile, false) := by
  cases o with
  | ok =>
    -- the file is full, and the trimmed one is shorter by less than an entry
    have hfull : ¬s.indexFile.length + (entryBytes p.offset p.pos).length ≤ maxFileSize := by
      intro hroom
      rw [fileWrite, if_pos hroom, List.append_right_eq_self] at hnothing
      exact entryBytes_ne_nil _ _ hnothing
    have hle := h.le
    have hlt := h.lt
    rw [atomicOutcome, fileWrite, if_neg]
    simp only [InMemoryStore.trim, List.length_take, entryBytes_length] at hfull ⊢
    unfold maxFileSize indexEntryBytes at *
    omega
  | failed k => rw [atomicOutcome, fileWrite, Nat.zero_min, List.take_zero, List.append_nil]

/-- **Step lemma**: `Checkpoint` does to the trimmed store what it does to the store. -/
theorem AtMostPart.checkpoint (h : AtMostPart s) {p : PendingCheckpoint} {o : WriteOutcome}
    (hp : Aligned s p o) :
    AtMostPart (s.checkpoint p.offset p.pos o) ∧
      (s.checkpoint p.offset p.pos o).trim =
        s.trim.checkpoint p.offset p.pos (atomicOutcome o) := by
  -- not due: neither store writes
  by_cases hskip : s.nthIndex > 0 ∧ s.n + 1 < s.nthIndex
  · simp only [InMemoryStore.checkpoint, InMemoryStore.trim, hskip, and_self, if_true]
    exact ⟨⟨h.le, h.lt⟩, trivial⟩
  by_cases hnothing : (fileWrite s.indexFile (entryBytes p.offset p.pos) o).1 = s.indexFile
  · -- nothing is written to the file, and nothing to the trimmed one
    have htrimmed := h.writes_nothing hnothing
    have hfailed : (fileWrite s.indexFile (entryBytes p.offset p.pos) o).2 = false :=
      fileWrite_nothing (entryBytes_ne_nil _ _) hnothing
    simp only [InMemoryStore.checkpoint, InMemoryStore.trim, hskip, if_false] at htrimmed ⊢
    simp only [hfailed, hnothing, htrimmed, Bool.false_eq_true, if_false]
    exact ⟨⟨h.le, h.lt⟩, trivial⟩
  · -- there is no part to be cut off, so the write starts at the same place
    have hlen : s.indexFile.length = s.offsets.length * indexEntryBytes := by
      have hle := h.le
      have hlt := h.lt
      have hmod := (hp.resolve_left hskip).resolve_left hnothing
      unfold indexEntryBytes at *
      omega
    rw [(atMostPart_of_length hlen).2]
    cases o with
    | ok =>
      -- a write that does not fit leaves nothing
      have hroom : s.indexFile.length + (entryBytes p.offset p.pos).length ≤ maxFileSize := by
        by_contra hfull
        exact hnothing (by rw [fileWrite, if_neg hfull])
      simp only [InMemoryStore.checkpoint, hskip, if_false, atomicOutcome, fileWrite, hroom,
        if_true]
      refine atMostPart_of_length ?_
      rw [List.length_append, entryBytes_length, List.length_append, List.length_singleton,
        Nat.succ_mul, hlen]
    -- part of an entry may be left, which trimming cuts off
    | failed k =>
      simp only [InMemoryStore.checkpoint, hskip, if_false, atomicOutcome, fileWrite,
        Bool.false_eq_true, Nat.zero_min, List.take_zero, List.append_nil, InMemoryStore.trim]
      refine ⟨⟨?_, ?_⟩, by rw [← hlen, List.take_left]⟩
      · simp only [List.length_append]
        omega
      · simp only [List.length_append, List.length_take, entryBytes_length, hlen]
        unfold indexEntryBytes
        omega

/-- **Run lemma**: the same for a drain of the pending list. -/
theorem AtMostPart.drain (h : AtMostPart s) {target : Nat} {idx : Nat → WriteOutcome}
    {ps : List PendingCheckpoint} (hall : DrainAll Aligned target idx s ps) :
    AtMostPart (drainLoop target idx s ps).1 ∧
      (drainLoop target idx s ps).1.trim =
        (drainLoop target (fun x => atomicOutcome (idx x)) s.trim ps).1 ∧
      (drainLoop target idx s ps).2 =
        (drainLoop target (fun x => atomicOutcome (idx x)) s.trim ps).2 := by
  -- the trimmed store makes the same calls, in the same order
  induction ps generalizing s with
  | nil => exact ⟨h, rfl, rfl⟩
  | cons p ps ih =>
    simp only [drainLoop]
    split_ifs with hle
    · obtain ⟨hp, hrest⟩ := hall hle
      obtain ⟨hpart, htrim⟩ := h.checkpoint hp
      rw [← htrim]
      exact ih hpart hrest
    · exact ⟨h, rfl, rfl⟩

/-! ## The writer -/

variable {w w' : OpenLog}

/-- **Step lemma of the writer**: every step is a step of the trimmed log. -/
theorem AtMostPart.logStep (h : AtMostPart w.writer.store) {e : LogEvent}
    (hcalls : IndexCalls Aligned w (.log e)) (ht : LogTransition cs w e w') :
    AtMostPart w'.writer.store ∧ LogTransition cs w.trim (atomicEvent e) w'.trim := by
  cases ht with
  | refused data o hd => exact ⟨h, .refused data o hd⟩
  | writeFailed data o m hd hm hzero => exact ⟨h, .writeFailed data o m hd hm hzero⟩
  | reserved data o hd hsize => exact ⟨h, .reserved data o hd hsize⟩
  | commitFailed k c hk hpc => exact ⟨h, .commitFailed k c hk hpc⟩
  | committed k c hk hpc hseq => exact ⟨h, .committed k c hk hpc hseq⟩
  | waited k c hk hpc => exact ⟨h, .waited k c hk hpc⟩
  | led k c hk hpc hsync => exact ⟨h, .led k c hk hpc hsync⟩
  | syncReturned k c target covered ok hk hpc =>
    exact ⟨h, .syncReturned k c target covered ok hk hpc⟩
  -- only the drain touches the index file
  | relocked k c target ok idx hk hpc =>
    have hstep : LogTransition cs w.trim (.relock k fun x => atomicOutcome (idx x)) _ :=
      .relocked k c target ok (fun x => atomicOutcome (idx x)) hk hpc
    cases ok with
    | false => exact ⟨h, hstep⟩
    | true =>
      obtain ⟨hpart, hstore, hpending⟩ := h.drain (hcalls (target, idx) (drains_relock hk hpc))
      simp only [WALWriter.finishSync_true, OpenLog.trim] at hstep ⊢
      rw [← hstore, ← hpending] at hstep
      exact ⟨hpart, hstep⟩

/-- `Close`, on a log and on the trimmed one. -/
theorem AtMostPart.close (h : AtMostPart w.writer.store) {idx : Nat → WriteOutcome}
    (hcalls : IndexCalls Aligned w (.restart true idx)) :
    AtMostPart (w.close true idx).writer.store ∧
      (w.close true idx).trim = w.trim.close true fun x => atomicOutcome (idx x) := by
  unfold OpenLog.close WALWriter.close
  -- the close drains under the same condition
  by_cases hflush : w.writer.writeSeq > w.writer.syncedSeq ∧ w.writer.syncErr = false
  · have hdrains : w.drains (.restart true idx) = some (w.writer.writeSeq, idx) := by
      simp only [OpenLog.drains, hflush, and_self, if_true]
    obtain ⟨hpart, hstore, -⟩ := h.drain (hcalls _ hdrains)
    simp only [hflush, and_self, if_true, OpenLog.trim]
    exact ⟨hpart, by rw [hstore]⟩
  · simp only [and_true, hflush, if_false, OpenLog.trim]
    exact h

/-- Opening looks at whole entries only. -/
theorem AtMostPart.openEvery (h : AtMostPart w.writer.store) (nth : Nat) :
    w.openEvery cs nth = w.trim.openEvery cs nth := by
  obtain ⟨hle, hlt⟩ := h
  -- the entries of the file are as many as the store holds, since a part counts for nothing
  have hcount : w.writer.store.offsets.length =
      w.writer.store.indexFile.length / indexEntryBytes := by
    unfold indexEntryBytes at *
    omega
  have hload := loadCheckpoints_take w.writer.store.indexFile nth
  rw [← hcount] at hload
  simp only [OpenLog.openEvery, OpenLog.trim, InMemoryStore.trim, newWalWriter,
    WALWriter.recover, hload]

/-! ## Runs -/

/-- Committed writes and clean restarts, in which no entry is written behind a part of one;
    any index write may fail. -/
def WholeEntries (s : SessionLog) (e : SessionEvent) : Prop :=
  CommittedWrites e ∧ IndexCalls Aligned s.log e

instance (s : SessionLog) (e : SessionEvent) : Decidable (WholeEntries s e) :=
  inferInstanceAs (Decidable (_ ∧ _))

/-- The trimmed log holds what was written. -/
structure TrimmedInv (cs : Checksum) (s : SessionLog) : Prop where
  part : AtMostPart s.log.writer.store
  log : ∃ n₀ cps, LogInv cs n₀ s.written [] cps s.log.trim

theorem trimmedInv_create (cs : Checksum) (nth : Nat) :
    TrimmedInv cs (SessionLog.create nth) where
  part := (atMostPart_of_length rfl).1
  log := ⟨0, [], LogInv.createEvery cs nth⟩

/-- **Closing and opening** finds all records. -/
theorem TrimmedInv.restart {s : SessionLog} (h : TrimmedInv cs s) (nth : Nat)
    {idx : Nat → WriteOutcome} (hcalls : IndexCalls Aligned s.log (.restart true idx)) :
    ∃ s', s.step cs nth (.restart true idx) = some s' ∧ s'.written = s.written ∧
      TrimmedInv cs s' := by
  obtain ⟨n₀, cps, hlog⟩ := h.log
  obtain ⟨hpart, htrim⟩ := h.part.close hcalls
  obtain ⟨cps', hclosed⟩ := hlog.close true fun x => atomicOutcome_atomic (idx x)
  rw [← htrim] at hclosed
  obtain ⟨log, hopen, hinv, -, -⟩ := hclosed.openEvery nth
  rw [← hpart.openEvery nth] at hopen
  -- the index file is rewritten to whole entries
  obtain ⟨hpart', hself⟩ := atMostPart_of_length
    (by rw [hinv.index.file, hinv.index.offsets, indexBytes_length])
  have htrim' : log.trim = log := by rw [OpenLog.trim, hself]
  refine ⟨{ s with log := log, lengths := s.lengths ++ [s.log.writer.writeSeq] }, ?_, rfl, hpart',
    _, cps', htrim'.symm ▸ hinv⟩
  simp only [SessionLog.step, hopen]

/-- **Step lemma.** -/
theorem TrimmedInv.step {s s' : SessionLog} (h : TrimmedInv cs s) {e : SessionEvent}
    (he : WholeEntries s e) (hstep : s.step cs nth e = some s') : TrimmedInv cs s' := by
  cases e with
  | log e =>
    obtain ⟨log, hlog, rfl⟩ := Option.map_eq_some_iff.mp hstep
    obtain ⟨n₀, cps, hinv⟩ := h.log
    obtain ⟨hpart, ht⟩ := h.part.logStep he.2 (step_logTransition hlog)
    have hatomic : (atomicEvent e).Atomic := by
      cases e with
      | reserve data o =>
        obtain rfl : o = .ok := he.1
        trivial
      | relock k idx => exact fun x => atomicOutcome_atomic (idx x)
      | pass k | syncReturn k ok => trivial
    -- a `Reserve` is the same event on the trimmed log
    have hds : (s.log.newlyReserved cs e).map Prod.snd = [] ∨ ∃ data o,
        atomicEvent e = .reserve data o ∧ (s.log.newlyReserved cs e).map Prod.snd = [data] := by
      rcases newPayloads_cases cs s.log e with hnil | ⟨data, o, rfl, hds⟩
      · exact Or.inl hnil
      · exact Or.inr ⟨data, o, rfl, hds⟩
    have hnext := nextOffset_step hlog
    rw [← List.length_map (f := Prod.snd)] at hnext
    exact ⟨hpart, n₀, hinv.addAtomic hatomic ht hds hnext⟩
  | restart syncOk idx =>
    obtain rfl : syncOk = true := he.1
    obtain ⟨s'', hs'', -, hinv⟩ := h.restart nth he.2
    obtain rfl := Option.some.inj (hs''.symm.trans hstep)
    exact hinv

/-- Every record is read back. -/
theorem TrimmedInv.sound {s : SessionLog} (h : TrimmedInv cs s) :
    s.log.writer.nextOffset = s.written.length ∧ ∀ o d, s.written[o]? = some d →
      readAt cs s.log.writer.file s.log.writer.store o = .ok d := by
  obtain ⟨n₀, cps, hlog⟩ := h.log
  refine ⟨hlog.next, fun o d ho => ?_⟩
  have hread := readAt_eq [] hlog.index hlog.max_le ho
  rw [← hlog.file] at hread
  exact hread

/-- **When a failed index write is harmless.**  In every run of committed writes and clean
    restarts in which index writes may fail and no entry is written behind a part of one,
    every state has all records, and so has the log after it is closed and opened again. -/
theorem failedCheckpoint_harmless (cs : Checksum) (nth : Nat) (es : List SessionEvent)
    (s : SessionLog)
    (hes : Along (SessionLog.step cs nth) WholeEntries (SessionLog.create nth) es)
    (hrun : run (SessionLog.step cs nth) (SessionLog.create nth) es = some s) :
    (s.log.writer.nextOffset = s.written.length ∧ ∀ o d, s.written[o]? = some d →
      readAt cs s.log.writer.file s.log.writer.store o = .ok d) ∧
    ∀ idx, IndexCalls Aligned s.log (.restart true idx) →
      ∃ s', s.step cs nth (.restart true idx) = some s' ∧
        s'.log.writer.nextOffset = s.written.length ∧ ∀ o d, s.written[o]? = some d →
          readAt cs s'.log.writer.file s'.log.writer.store o = .ok d := by
  have h : TrimmedInv cs s := run_invariant (I := TrimmedInv cs)
    (fun _ _ _ hI he hstep => hI.step he hstep) (trimmedInv_create cs nth) hes hrun
  refine ⟨h.sound, fun idx hcalls => ?_⟩
  obtain ⟨s', hs', hwritten, h'⟩ := h.restart nth hcalls
  exact ⟨s', hs', hwritten ▸ h'.sound⟩

/-- The entry of a record fails half way, and the next one is written in a later session. -/
theorem failedCheckpoint_harmless_restarted :
    ∃ s s', run (SessionLog.step byteSum 1) (SessionLog.create 1) (writeBy 0 [7] (.failed 8) ++
        .restart true (fun _ => .ok) :: writeBy 0 [8] .ok) = some s ∧
      s.written = [[7], [8]] ∧ s.step byteSum 1 (.restart true fun _ => .ok) = some s' ∧
      s'.log.writer.nextOffset = 2 ∧
      readAt byteSum s'.log.writer.file s'.log.writer.store 1 = .ok [8] := by
  obtain ⟨s, hrun, hwritten, hcalls⟩ : ∃ s, run (SessionLog.step byteSum 1) (SessionLog.create 1)
      (writeBy 0 [7] (.failed 8) ++ .restart true (fun _ => .ok) :: writeBy 0 [8] .ok) = some s ∧
      s.written = [[7], [8]] ∧ IndexCalls Aligned s.log (.restart true fun _ => .ok) :=
    ⟨_, rfl, rfl, by decide⟩
  obtain ⟨-, hall⟩ := failedCheckpoint_harmless byteSum 1 _ s (by decide) hrun
  obtain ⟨s', hs', hnext, hread⟩ := hall (fun _ => .ok) hcalls
  rw [hwritten] at hnext hread
  exact ⟨s, s', hrun, hwritten, hs', hnext, hread 1 [8] rfl⟩

/-- Twenty records with the interval of the engine; the first of the two entries fails after
    its offset. -/
def twentyWrites : List SessionEvent :=
  (List.range 20).flatMap fun k => writeBy k [0] (if k = 9 then .failed 8 else .ok)

/-- The offset that is left of the entry (9, 54) and the first half of the entry (19, 114)
    are taken for a checkpoint of record 9 at byte 19.  Recovery starts there, in the middle
    of record 3, and truncates the log. -/
theorem failedCheckpoint_truncates :
    ∃ s s', run (SessionLog.step byteSum NthIndex) (SessionLog.create NthIndex) twentyWrites =
        some s ∧
      s.log.writer.nextOffset = 20 ∧ s.written.length = 20 ∧
      s.step byteSum NthIndex (.restart true fun _ => .ok) = some s' ∧
      s'.log.writer.nextOffset = 9 ∧ s'.log.writer.file.length = 19 ∧
      readAt byteSum s'.log.writer.file s'.log.writer.store 3 = .error .eof := by
  have hvalue : ((run (SessionLog.step byteSum NthIndex) (SessionLog.create NthIndex)
      twentyWrites).bind fun s =>
        (s.step byteSum NthIndex (.restart true fun _ => .ok)).map fun s' =>
          ([s.log.writer.nextOffset, s.written.length, s'.log.writer.nextOffset,
            s'.log.writer.file.length],
            readAt byteSum s'.log.writer.file s'.log.writer.store 3)) =
      some ([20, 20, 9, 19], .error .eof) := by decide +kernel
  obtain ⟨s, hrun, hvalue⟩ := Option.bind_eq_some_iff.mp hvalue
  obtain ⟨s', hs', hvalue⟩ := Option.map_eq_some_iff.mp hvalue
  simp only [Prod.mk.injEq, List.cons.injEq, and_true] at hvalue
  obtain ⟨⟨hnext, hwritten, hnext', hlength⟩, hread⟩ := hvalue
  exact ⟨s, s', hrun, hnext, hwritten, hs', hnext', hlength, hread⟩

end EventLog.Wal
