import EventLog.Wal.Reader

/-!
# The log writer

`WALWriter` with its two-phase append.  `Reserve` writes the bytes of a record and
assigns its offset; `Commit` makes it durable with an fsync shared by all goroutines
that wait for one.  Everything between taking and releasing `w.mu` is one function,
so `commitLocked` appears as one pass of its loop, the `Sync` outside the lock, and
the work after the lock is taken again.

`OpenLog` adds what surrounds the writer: how much of the file the last successful `Sync`
covered, the goroutines inside `Commit`, and the records whose `Commit` returned nil.
-/

namespace EventLog.Wal

open EventLog.Lib

/-! ## The writer -/

/-- An appended record whose checkpoint waits for an fsync. -/
structure PendingCheckpoint where
  seq : Nat
  offset : Nat
  pos : Nat
  deriving DecidableEq, Repr

structure WALWriter where
  file : Bytes
  size : Nat
  nextOffset : Nat
  writeSeq : Nat
  syncedSeq : Nat
  syncing : Bool
  /-- Whether an fsync has failed; the error stays. -/
  syncErr : Bool
  pending : List PendingCheckpoint
  store : InMemoryStore
  deriving DecidableEq, Repr

/-- Why `recover` fails. -/
inductive RecoverError where
  /-- "wal: read length at %d: %w" for a position outside the file -/
  | readLength (pos : Int)
  | corruption (e : CorruptionError)
  deriving DecidableEq, Repr

/-- The scan of `recover` from record `off` at `pos`: the end of the last whole record
    and the number of records.  Every round moves the position forward.  Positions inside a
    file do not wrap around; the offset does, behind a forged checkpoint near `2 ^ 64`. -/
def recoverLoop (cs : Checksum) (file : Bytes) :
    (fuel pos off : Nat) → Except RecoverError (Nat × Nat)
  | 0, pos, off => .ok (pos, off)
  | fuel + 1, pos, off =>
    if pos = file.length then .ok (pos, off)
    else if pos + cs.headerSize > file.length then .ok (pos, off)
    else
      let length := lengthAt file pos
      if length > MaxRecordSize then
        .error (.corruption
          { offset := pos, expected := [], got := [], reason := .lengthOutOfBounds length })
      else
        let recEnd := pos + cs.headerSize + length
        if recEnd > file.length then .ok (pos, off)
        else recoverLoop cs file fuel recEnd (succUint64 off)

/-- Where the scan starts: the last checkpoint, if its header fits inside the file.  The sum
    wraps around for a forged position near `2 ^ 63`. -/
def recoverStart (cs : Checksum) (file : Bytes) (store : InMemoryStore) : Nat × Int :=
  match store.floor maxUint64 with
  | none => (0, 0)
  | some (cpOff, cpPos) =>
    if addInt64 cpPos cs.headerSize ≤ file.length then (cpOff, cpPos) else (0, 0)

/-- `recover`: load the checkpoints, scan the tail and truncate a torn record. -/
def WALWriter.recover (cs : Checksum) (w : WALWriter) : Except RecoverError WALWriter :=
  let store := w.store.loadCheckpoints
  let (off, pos) := recoverStart cs w.file store
  -- nothing can be read before the beginning or behind the end
  if pos < 0 ∨ w.file.length < pos then .error (.readLength pos)
  else
    match recoverLoop cs w.file (w.file.length + 1) pos.toNat off with
    | .error e => .error e
    | .ok (pos, off) =>
      .ok { w with store := store, file := w.file.take pos, nextOffset := off, size := pos }

/-- `NewWalWriter` on the contents of the log file. -/
def newWalWriter (cs : Checksum) (file : Bytes) (store : InMemoryStore) :
    Except RecoverError WALWriter :=
  WALWriter.recover cs
    { file := file
      size := 0
      nextOffset := 0
      writeSeq := 0
      syncedSeq := 0
      syncing := false
      syncErr := false
      pending := []
      store := store }

/-- Why `Reserve` fails. -/
inductive ReserveError where
  /-- "wal: payload too large (%d > %d)" -/
  | tooLarge (length max : Nat)
  /-- "wal: write record: %w" -/
  | write
  deriving DecidableEq, Repr

/-- `Reserve`: append the record and assign its offset and sequence number; `o` is the
    outcome of the write.  The counters are taken not to reach `2 ^ 64`. -/
def WALWriter.reserve (cs : Checksum) (w : WALWriter) (data : Bytes) (o : WriteOutcome) :
    WALWriter × Except ReserveError (Nat × Nat) :=
  if data.length > MaxRecordSize then (w, .error (.tooLarge data.length MaxRecordSize))
  else
    let pos := w.size
    let buf := encode cs data
    let (file, ok) := fileWrite w.file buf o
    if !ok then ({ w with file := file }, .error .write)
    else
      let offset := w.nextOffset
      let seq := w.writeSeq + 1
      ({ w with
          file := file
          nextOffset := w.nextOffset + 1
          size := w.size + buf.length
          writeSeq := seq
          pending := w.pending ++ [⟨seq, offset, pos⟩] },
        .ok (offset, seq))

/-- Why `Write` fails. -/
inductive WriteError where
  | reserve (e : ReserveError)
  /-- "wal: fsync: %w" -/
  | sync
  deriving DecidableEq, Repr

/-- What one pass of the loop of `commitLocked` decides. -/
inductive CommitPass where
  /-- An fsync has failed. -/
  | fail
  /-- Already durable. -/
  | done
  /-- A flush is in flight. -/
  | wait
  /-- Flush everything up to `target`. -/
  | lead (target : Nat)
  deriving DecidableEq, Repr

def WALWriter.commitPass (w : WALWriter) (seq : Nat) : CommitPass :=
  if w.syncErr then .fail
  else if w.syncedSeq ≥ seq then .done
  else if w.syncing then .wait
  else .lead w.writeSeq

/-- The loop that records the checkpoints of everything up to `target`; `idx` gives the
    outcome of the index write for each offset. -/
def drainLoop (target : Nat) (idx : Nat → WriteOutcome) :
    InMemoryStore → List PendingCheckpoint → InMemoryStore × List PendingCheckpoint
  | s, [] => (s, [])
  | s, p :: ps =>
    if p.seq ≤ target then drainLoop target idx (s.checkpoint p.offset p.pos (idx p.offset)) ps
    else (s, p :: ps)

/-- `commitLocked` after the `Sync` of a flush returned and the lock was taken again. -/
def WALWriter.finishSync (w : WALWriter) (target : Nat) (ok : Bool) (idx : Nat → WriteOutcome) :
    WALWriter :=
  if !ok then { w with syncing := false, syncErr := true }
  else
    let (store, pending) := drainLoop target idx w.store w.pending
    { w with
      syncing := false
      syncedSeq := if target > w.syncedSeq then target else w.syncedSeq
      store := store
      pending := pending }

theorem WALWriter.finishSync_true (w : WALWriter) (target : Nat) (idx : Nat → WriteOutcome) :
    w.finishSync target true idx =
      { w with
        syncing := false
        syncedSeq := max w.syncedSeq target
        store := (drainLoop target idx w.store w.pending).1
        pending := (drainLoop target idx w.store w.pending).2 } := by
  have hmax : (if target > w.syncedSeq then target else w.syncedSeq) =
      max w.syncedSeq target := by
    split_ifs <;> omega
  simp only [WALWriter.finishSync, Bool.not_true, Bool.false_eq_true, if_false, hmax]

/-- `Close`: flush what is still buffered and record the remaining checkpoints. -/
def WALWriter.close (w : WALWriter) (syncOk : Bool) (idx : Nat → WriteOutcome) : WALWriter :=
  if w.writeSeq > w.syncedSeq ∧ w.syncErr = false ∧ syncOk then
    { w with
      store := (drainLoop w.writeSeq idx w.store w.pending).1
      pending := []
      syncedSeq := w.writeSeq }
  else w

/-! ## The writer and its surroundings -/

/-- Where a goroutine inside `Commit` stands. -/
inductive Pc where
  /-- About to run a pass of the loop. -/
  | ready
  /-- In `cond.Wait`, with or without a broadcast since. -/
  | waiting (notified : Bool)
  /-- In `Sync`, which covers at least the first `covered` bytes. -/
  | flushing (target covered : Nat)
  /-- `Sync` returned; waiting for the lock. -/
  | flushed (target : Nat) (ok : Bool)
  | returned (ok : Bool)
  deriving DecidableEq, Repr

/-- A goroutine that reserved a record and commits it. -/
structure Commit where
  offset : Nat
  data : Bytes
  seq : Nat
  pc : Pc
  deriving DecidableEq, Repr

/-- A writer with its goroutines, the length its last successful `Sync` covered, and the
    records acknowledged so far. -/
structure OpenLog where
  writer : WALWriter
  synced : Nat
  commits : List Commit
  acked : List (Nat × Bytes)
  deriving DecidableEq, Repr

/-- `cond.Broadcast`. -/
def broadcast (commits : List Commit) : List Commit :=
  commits.map fun c =>
    match c.pc with
    | .waiting _ => { c with pc := .waiting true }
    | _ => c

/-- What happens to one open log. -/
inductive LogEvent where
  | reserve (data : Bytes) (o : WriteOutcome)
  /-- Goroutine `k` takes the lock and runs a pass of the loop. -/
  | pass (k : Nat)
  | syncReturn (k : Nat) (ok : Bool)
  /-- Goroutine `k` takes the lock again after its `Sync`. -/
  | relock (k : Nat) (idx : Nat → WriteOutcome)

/-- A step of `Commit`. -/
def LogEvent.isCommit : LogEvent → Bool
  | .reserve .. => false
  | _ => true

namespace OpenLog

/-- Move goroutine `k` to `pc`. -/
def setPc (w : OpenLog) (k : Nat) (c : Commit) (pc : Pc) : OpenLog :=
  { w with commits := w.commits.set k { c with pc := pc } }

/-- `Reserve`; a goroutine that got an offset goes on to `Commit`. -/
def reserve (cs : Checksum) (w : OpenLog) (data : Bytes) (o : WriteOutcome) :
    OpenLog × Except ReserveError (Nat × Nat) :=
  match w.writer.reserve cs data o with
  | (writer, .error e) => ({ w with writer := writer }, .error e)
  | (writer, .ok (offset, seq)) =>
    ({ w with writer := writer, commits := w.commits ++ [⟨offset, data, seq, .ready⟩] },
      .ok (offset, seq))

/-- One step of the writer; `none` when the event is not enabled. -/
def step (cs : Checksum) (w : OpenLog) : LogEvent → Option OpenLog
  | .reserve data o => some (w.reserve cs data o).1
  | .pass k => do
    let c ← w.commits[k]?
    guard (c.pc = .ready ∨ c.pc = .waiting true)
    match w.writer.commitPass c.seq with
    | .fail => some (w.setPc k c (.returned false))
    | .done =>
      some { w.setPc k c (.returned true) with acked := w.acked ++ [(c.offset, c.data)] }
    | .wait => some (w.setPc k c (.waiting false))
    | .lead target =>
      some { w.setPc k c (.flushing target w.writer.file.length) with
        writer := { w.writer with syncing := true } }
  | .syncReturn k ok => do
    let c ← w.commits[k]?
    match c.pc with
    | .flushing target covered =>
      some { w.setPc k c (.flushed target ok) with
        synced := if ok then max w.synced covered else w.synced }
    | _ => none
  | .relock k idx => do
    let c ← w.commits[k]?
    match c.pc with
    | .flushed target ok =>
      let pc := if ok then .ready else .returned false
      some { w with
        writer := w.writer.finishSync target ok idx
        commits := broadcast (w.commits.set k { c with pc := pc }) }
    | _ => none

/-- The loop of `commitLocked` when no other goroutine runs.  With nobody to wake it, a
    goroutine that waits does not return; it never waits unless a flush is in flight. -/
def commitLoop (seq : Nat) (syncOk : Bool) (idx : Nat → WriteOutcome) :
    Nat → OpenLog → OpenLog × Bool
  | 0, w => (w, false)
  | fuel + 1, w =>
    match w.writer.commitPass seq with
    | .fail => (w, false)
    | .done => (w, true)
    | .wait => (w, false)
    | .lead target =>
      let flushed := { w with
        writer := { w.writer with syncing := true }.finishSync target syncOk idx
        synced := if syncOk then w.writer.file.length else w.synced }
      -- a failed flush is the error of this goroutine; otherwise it takes another pass
      if syncOk then commitLoop seq syncOk idx fuel flushed else (flushed, false)

/-- `Write`: `Reserve`, then `Commit`, which takes two passes when it is alone. -/
def write (cs : Checksum) (w : OpenLog) (data : Bytes) (o : WriteOutcome) (syncOk : Bool)
    (idx : Nat → WriteOutcome) : OpenLog × Except WriteError Nat :=
  match w.writer.reserve cs data o with
  | (writer, .error e) => ({ w with writer := writer }, .error (.reserve e))
  | (writer, .ok (offset, seq)) =>
    match commitLoop seq syncOk idx 2 { w with writer := writer } with
    | (w, false) => (w, .error .sync)
    | (w, true) => (w, .ok offset)

/-- `Close`: a flush that succeeds covers the whole file. -/
def close (w : OpenLog) (syncOk : Bool) (idx : Nat → WriteOutcome) : OpenLog :=
  { w with
    writer := w.writer.close syncOk idx
    synced :=
      if w.writer.writeSeq > w.writer.syncedSeq ∧ w.writer.syncErr = false ∧ syncOk then
        w.writer.file.length
      else w.synced }

/-- Open the log on what is left of its two files. -/
def reopen (cs : Checksum) (w : OpenLog) (file indexFile : Bytes) : Except RecoverError OpenLog :=
  match newWalWriter cs file (newInMemoryStore indexFile NthIndex) with
  | .error e => .error e
  | .ok writer =>
    .ok { writer := writer
          synced := min w.synced writer.file.length
          commits := []
          acked := w.acked }

/-- `Close`, then `NewWalWriter` on the same files. -/
def restart (cs : Checksum) (w : OpenLog) (syncOk : Bool) (idx : Nat → WriteOutcome) :
    Except RecoverError OpenLog :=
  let closed := w.close syncOk idx
  closed.reopen cs closed.writer.file closed.writer.store.indexFile

/-- A log on new, empty files. -/
def empty : OpenLog :=
  { writer :=
      { file := []
        size := 0
        nextOffset := 0
        writeSeq := 0
        syncedSeq := 0
        syncing := false
        syncErr := false
        pending := []
        store := newInMemoryStore [] NthIndex }
    synced := 0
    commits := []
    acked := [] }

end OpenLog

theorem newWalWriter_nil (cs : Checksum) :
    newWalWriter cs [] (newInMemoryStore [] NthIndex) = .ok OpenLog.empty.writer := rfl

end EventLog.Wal
