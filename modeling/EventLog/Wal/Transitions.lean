import EventLog.Wal.Recovery
import Mathlib.Data.Option.Basic

/-!
# What a step of the writer can do

The inversion of `OpenLog.step`: one constructor for each way an event can change the
log, with the guards that lead there.
-/

namespace EventLog.Wal

open EventLog.Lib

/-- The writer after `Reserve` appended a record. -/
def WALWriter.reserved (cs : Checksum) (w : WALWriter) (data : Bytes) : WALWriter :=
  { w with
    file := w.file ++ encode cs data
    nextOffset := w.nextOffset + 1
    size := w.size + (encode cs data).length
    writeSeq := w.writeSeq + 1
    pending := w.pending ++ [⟨w.writeSeq + 1, w.nextOffset, w.size⟩] }

/-- The outcomes of `Reserve`. -/
inductive ReserveOutcome (cs : Checksum) (w : WALWriter) (data : Bytes) (o : WriteOutcome) :
    WALWriter → Except ReserveError (Nat × Nat) → Prop where
  | tooLarge : MaxRecordSize < data.length →
      ReserveOutcome cs w data o w (.error (.tooLarge data.length MaxRecordSize))
  /-- The write failed and left `m` bytes of the record. -/
  | failed (m) : data.length ≤ MaxRecordSize → m < (encode cs data).length →
      (o.Atomic → m = 0) →
      ReserveOutcome cs w data o { w with file := w.file ++ (encode cs data).take m }
        (.error .write)
  | reserved : data.length ≤ MaxRecordSize →
      w.file.length + (encode cs data).length ≤ maxFileSize →
      ReserveOutcome cs w data o (w.reserved cs data) (.ok (w.nextOffset, w.writeSeq + 1))

theorem reserve_outcome (cs : Checksum) (w : WALWriter) (data : Bytes) (o : WriteOutcome) :
    ReserveOutcome cs w data o (w.reserve cs data o).1 (w.reserve cs data o).2 := by
  unfold WALWriter.reserve
  -- a record that is too large is refused before anything is written
  by_cases hlarge : data.length > MaxRecordSize
  · simp only [hlarge, if_true]
    exact .tooLarge hlarge
  · simp only [hlarge, if_false]
    cases hok : (fileWrite w.file (encode cs data) o).2 with
    | true =>
      obtain ⟨hfile, hsize⟩ := fileWrite_eq_true hok
      simp only [Bool.not_true, Bool.false_eq_true, if_false, hfile]
      exact .reserved (Nat.le_of_not_gt hlarge) hsize
    | false =>
      -- a record has at least its header, so a failed write leaves less than all of it
      obtain ⟨m, hm, hfile, hzero⟩ := fileWrite_eq_false (encode_ne_nil cs data) hok
      simp only [Bool.not_false, if_true, hfile]
      exact .failed m (Nat.le_of_not_gt hlarge) hm hzero

/-- Everything an event can do to an open log. -/
inductive LogTransition (cs : Checksum) (w : OpenLog) : LogEvent → OpenLog → Prop where
  | refused (data o) : MaxRecordSize < data.length → LogTransition cs w (.reserve data o) w
  | writeFailed (data o m) : data.length ≤ MaxRecordSize → m < (encode cs data).length →
      (o.Atomic → m = 0) →
      LogTransition cs w (.reserve data o)
        { w with writer := { w.writer with file := w.writer.file ++ (encode cs data).take m } }
  | reserved (data o) : data.length ≤ MaxRecordSize →
      w.writer.file.length + (encode cs data).length ≤ maxFileSize →
      LogTransition cs w (.reserve data o)
        { w with
          writer := w.writer.reserved cs data
          commits := w.commits ++
            [⟨w.writer.nextOffset, data, w.writer.writeSeq + 1, .ready⟩] }
  | commitFailed (k c) : w.commits[k]? = some c → (c.pc = .ready ∨ c.pc = .waiting true) →
      LogTransition cs w (.pass k) (w.setPc k c (.returned false))
  | committed (k c) : w.commits[k]? = some c → (c.pc = .ready ∨ c.pc = .waiting true) →
      c.seq ≤ w.writer.syncedSeq →
      LogTransition cs w (.pass k)
        { w.setPc k c (.returned true) with acked := w.acked ++ [(c.offset, c.data)] }
  | waited (k c) : w.commits[k]? = some c → (c.pc = .ready ∨ c.pc = .waiting true) →
      LogTransition cs w (.pass k) (w.setPc k c (.waiting false))
  | led (k c) : w.commits[k]? = some c → (c.pc = .ready ∨ c.pc = .waiting true) →
      w.writer.syncing = false →
      LogTransition cs w (.pass k)
        { w.setPc k c (.flushing w.writer.writeSeq w.writer.file.length) with
          writer := { w.writer with syncing := true } }
  | syncReturned (k c target covered ok) : w.commits[k]? = some c →
      c.pc = .flushing target covered →
      LogTransition cs w (.syncReturn k ok)
        { w.setPc k c (.flushed target ok) with
          synced := if ok then max w.synced covered else w.synced }
  | relocked (k c target ok idx) : w.commits[k]? = some c → c.pc = .flushed target ok →
      LogTransition cs w (.relock k idx)
        { w with
          writer := w.writer.finishSync target ok idx
          commits := broadcast
            (w.commits.set k { c with pc := if ok then .ready else .returned false }) }

/-- **Inversion of `OpenLog.step`.** -/
theorem step_logTransition {cs : Checksum} {w w' : OpenLog} {e : LogEvent}
    (h : w.step cs e = some w') : LogTransition cs w e w' := by
  cases e with
  | reserve data o =>
    have hout := reserve_outcome cs w.writer data o
    simp only [OpenLog.step, OpenLog.reserve] at h
    generalize w.writer.reserve cs data o = p at h hout
    obtain ⟨writer, res⟩ := p
    cases hout with
    | tooLarge hl =>
      obtain rfl := Option.some.inj h
      exact .refused data o hl
    | failed m hd hm hzero =>
      obtain rfl := Option.some.inj h
      exact .writeFailed data o m hd hm hzero
    | reserved hd hsize =>
      obtain rfl := Option.some.inj h
      exact .reserved data o hd hsize
  | pass k =>
    simp only [OpenLog.step, Option.bind_eq_bind, Option.bind_eq_some_iff,
      Option.guard_eq_some'] at h
    obtain ⟨c, hc, _, hpc, h⟩ := h
    unfold WALWriter.commitPass at h
    -- the four ways a pass of `commitLocked` can go
    split_ifs at h with herr hdone hsync
    · obtain rfl := Option.some.inj h
      exact .commitFailed k c hc hpc
    · obtain rfl := Option.some.inj h
      exact .committed k c hc hpc hdone
    · obtain rfl := Option.some.inj h
      exact .waited k c hc hpc
    · obtain rfl := Option.some.inj h
      exact .led k c hc hpc (by simpa using hsync)
  | syncReturn k ok =>
    simp only [OpenLog.step, Option.bind_eq_bind, Option.bind_eq_some_iff] at h
    obtain ⟨c, hc, h⟩ := h
    -- only a goroutine in its flush returns from it
    cases hpc : c.pc with
    | flushing target covered =>
      rw [hpc] at h
      obtain rfl := Option.some.inj h
      exact .syncReturned k c target covered ok hc hpc
    | ready | waiting | flushed | returned => rw [hpc] at h; cases h
  | relock k idx =>
    simp only [OpenLog.step, Option.bind_eq_bind, Option.bind_eq_some_iff] at h
    obtain ⟨c, hc, h⟩ := h
    -- only a goroutine whose sync returned takes the lock again
    cases hpc : c.pc with
    | flushed target ok =>
      rw [hpc] at h
      obtain rfl := Option.some.inj h
      exact .relocked k c target ok idx hc hpc
    | ready | waiting | flushing | returned => rw [hpc] at h; cases h

/-- Acknowledgements are never taken back. -/
theorem LogTransition.acked_sublist {cs : Checksum} {w w' : OpenLog} {e : LogEvent}
    (ht : LogTransition cs w e w') : w.acked.Sublist w'.acked := by
  cases ht with
  | committed => exact List.sublist_append_left _ _
  | refused | writeFailed | reserved | commitFailed | waited | led | syncReturned | relocked =>
    exact List.Sublist.refl _

end EventLog.Wal
