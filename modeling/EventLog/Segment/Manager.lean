import EventLog.Wal.Sessions

/-!
# The segmented log

A log is a directory of segment files, each a `WALWriter` log with the global offset of
its first record.  The last segment is active; `Append` rolls to a new one when the
active segment is full, reserves under the manager lock and commits outside it.

The manager keeps its sealed segments apart from the active one, so that it always has
an active segment.  Modification times and the clock are parameters; a time is a number
of nanoseconds.
-/

namespace EventLog.Segments

open EventLog.Lib
open EventLog.Wal

/-! ## Configuration -/

def DefaultMaxSegmentBytes : Int := 2 ^ 30

/-- Seven days. -/
def DefaultRetention : Int := 7 * 24 * 60 * 60 * 10 ^ 9

/-- What the user configures; `MaxDeletesPerRun` at or below 0 means no limit. -/
structure Config where
  maxSegmentBytes : Int
  retention : Int
  maxDeletesPerRun : Int
  deriving DecidableEq, Repr

/-- A configuration after `Open` filled in the defaults. -/
structure Settings where
  maxSegmentBytes : Int
  maxSegmentBytes_pos : 0 < maxSegmentBytes
  retention : Int
  retention_pos : 0 < retention
  maxDeletesPerRun : Int
  deriving DecidableEq, Repr

/-- The value `Open` uses for a field: the configured one if positive. -/
def orDefault (x default : Int) : Int := if x ≤ 0 then default else x

theorem orDefault_pos {x default : Int} (h : 0 < default) : 0 < orDefault x default := by
  unfold orDefault
  split_ifs <;> omega

/-- The defaults `Open` applies. -/
def Config.settings (c : Config) : Settings where
  maxSegmentBytes := orDefault c.maxSegmentBytes DefaultMaxSegmentBytes
  maxSegmentBytes_pos := orDefault_pos (by decide)
  retention := orDefault c.retention DefaultRetention
  retention_pos := orDefault_pos (by decide)
  maxDeletesPerRun := c.maxDeletesPerRun

/-! ## Segments -/

/-- One segment file with the global offset of its first record. -/
structure Segment where
  baseOffset : Nat
  log : OpenLog
  lastAppend : Int
  deriving DecidableEq, Repr

/-- The errors of `ReadAt`. -/
inductive ReadAtError where
  /-- `*OffsetOutOfRetentionError` -/
  | outOfRetention (requested earliest : Nat)
  /-- "segment: offset %d below base %d" -/
  | belowBase (offset base : Nat)
  | wal (e : ReadError)
  deriving DecidableEq, Repr

/-- `errors.Is(err, io.EOF)`. -/
def ReadAtError.isEOF : ReadAtError → Bool
  | .wal e => e.isEOF
  | _ => false

/-- What a crash leaves of a segment: the length of its log file and of its index file;
    `mtime` is what `os.Stat` reports afterwards. -/
structure Cut where
  log : Nat
  index : Nat
  mtime : Int
  deriving DecidableEq, Repr

namespace Segment

/-- `NewSegment` for a base whose files do not exist yet. -/
def create (cs : Checksum) (baseOffset : Nat) (mtime : Int) : Except RecoverError Segment :=
  match newWalWriter cs [] (newInMemoryStore [] NthIndex) with
  | .error e => .error e
  | .ok writer =>
    .ok { baseOffset := baseOffset
          log := { writer := writer, synced := 0, commits := [], acked := [] }
          lastAppend := mtime }

/-- `NewSegment` on what a crash left of the segment's files. -/
def reopen (cs : Checksum) (s : Segment) (c : Cut) : Except RecoverError Segment :=
  match s.log.reopen cs (s.log.writer.file.take c.log)
      (s.log.writer.store.indexFile.take c.index) with
  | .error e => .error e
  | .ok log => .ok { s with log := log, lastAppend := c.mtime }

def nextOffset (s : Segment) : Nat := s.baseOffset + s.log.writer.nextOffset

def size (s : Segment) : Nat := s.log.writer.size

def contains (s : Segment) (globalOffset : Nat) : Bool :=
  globalOffset ≥ s.baseOffset && globalOffset < s.nextOffset

/-- `Append`: both phases, when no other goroutine runs. -/
def append (cs : Checksum) (s : Segment) (data : Bytes) (o : WriteOutcome) (syncOk : Bool)
    (idx : Nat → WriteOutcome) (now : Int) : Segment × Except WriteError Nat :=
  match s.log.write cs data o syncOk idx with
  | (log, .error (.reserve e)) => ({ s with log := log }, .error (.reserve e))
  | (log, .error .sync) => ({ s with log := log, lastAppend := now }, .error .sync)
  | (log, .ok localSlot) =>
    ({ s with log := log, lastAppend := now }, .ok (s.baseOffset + localSlot))

/-- `Close`, then `NewSegment` on the same files. -/
def restart (cs : Checksum) (s : Segment) (syncOk : Bool) (idx : Nat → WriteOutcome)
    (mtime : Int) : Except RecoverError Segment :=
  match s.log.restart cs syncOk idx with
  | .error e => .error e
  | .ok log => .ok { s with log := log, lastAppend := mtime }

/-- Phase 1 of an append. -/
def reserve (cs : Checksum) (s : Segment) (data : Bytes) (o : WriteOutcome) (now : Int) :
    Segment × Except ReserveError (Nat × Nat) :=
  match s.log.reserve cs data o with
  | (log, .error e) => ({ s with log := log }, .error e)
  | (log, .ok (localOffset, seq)) =>
    ({ s with log := log, lastAppend := now }, .ok (localOffset, seq))

def readAt (cs : Checksum) (s : Segment) (globalOffset : Nat) : Except ReadAtError Bytes :=
  if globalOffset < s.baseOffset then .error (.belowBase globalOffset s.baseOffset)
  else
    match Wal.readAt cs s.log.writer.file s.log.writer.store (globalOffset - s.baseOffset) with
    | .error e => .error (.wal e)
    | .ok data => .ok data

/-- The records acknowledged in this segment, by global offset. -/
def acked (s : Segment) : List (Nat × Bytes) :=
  s.log.acked.map fun p => (s.baseOffset + p.1, p.2)

end Segment

/-! ## The manager -/

structure Manager where
  cfg : Settings
  /-- The segments before the active one, by ascending base offset. -/
  front : List Segment
  active : Segment
  deriving DecidableEq, Repr

/-- Why `Append` fails. -/
inductive AppendError where
  /-- "segment: roll to base %d: %w" -/
  | roll (base : Nat) (e : RecoverError)
  | write (e : WriteError)
  deriving DecidableEq, Repr

namespace Manager

def segments (m : Manager) : List Segment := m.front ++ [m.active]

/-- `Open` on a new directory: one empty segment at offset 0. -/
def create (cs : Checksum) (cfg : Config) (mtime : Int) : Except RecoverError Manager :=
  match Segment.create cs 0 mtime with
  | .error e => .error e
  | .ok seg => .ok { cfg := cfg.settings, front := [], active := seg }

/-- `roll`: seal the active segment and start one at the next global offset. -/
def roll (cs : Checksum) (m : Manager) (mtime : Int) : Except RecoverError Manager :=
  match Segment.create cs m.active.nextOffset mtime with
  | .error e => .error e
  | .ok seg => .ok { m with front := m.front ++ [m.active], active := seg }

/-- Phase 1 of `Append`, under the manager lock: roll if the active segment is full and
    reserve the record's offset. -/
def reserve (cs : Checksum) (m : Manager) (data : Bytes) (o : WriteOutcome) (now mtime : Int) :
    Manager × Except AppendError Nat :=
  let rolled := if m.active.size ≥ m.cfg.maxSegmentBytes then m.roll cs mtime else .ok m
  match rolled with
  | .error e => (m, .error (.roll m.active.nextOffset e))
  | .ok m =>
    match m.active.reserve cs data o now with
    | (seg, .error e) => ({ m with active := seg }, .error (.write (.reserve e)))
    | (seg, .ok (localOffset, _)) =>
      ({ m with active := seg }, .ok (seg.baseOffset + localOffset))

/-- `Append` when no other goroutine runs. -/
def append (cs : Checksum) (m : Manager) (data : Bytes) (o : WriteOutcome) (syncOk : Bool)
    (idx : Nat → WriteOutcome) (now mtime : Int) : Manager × Except AppendError Nat :=
  let rolled := if m.active.size ≥ m.cfg.maxSegmentBytes then m.roll cs mtime else .ok m
  match rolled with
  | .error e => (m, .error (.roll m.active.nextOffset e))
  | .ok m =>
    match m.active.append cs data o syncOk idx now with
    | (seg, .error e) => ({ m with active := seg }, .error (.write e))
    | (seg, .ok offset) => ({ m with active := seg }, .ok offset)

/-- The loop of `RunRetention`: how many of the sealed segments, oldest first, are
    victims. -/
def victimLoop (cutoff limit : Int) : (count : Nat) → List Segment → Nat
  | count, [] => count
  | count, s :: ss =>
    -- this and all later segments are still within the window
    if s.lastAppend > cutoff then count
    -- the cap on deletes in one run
    else if limit > 0 ∧ count ≥ limit then count
    else victimLoop cutoff limit (count + 1) ss

/-- `RunRetention`: drop the expired segments at the front, never the active one. -/
def runRetention (m : Manager) (now : Int) : Manager :=
  let victims := victimLoop (now - m.cfg.retention) m.cfg.maxDeletesPerRun 0 m.front
  { m with front := m.front.drop victims }

/-- The segment that owns the offset. -/
def segmentFor (m : Manager) (offset : Nat) : Option Segment :=
  let i := searchAbove (m.segments.map Segment.baseOffset) offset
  if i = 0 then none
  else
    match m.segments[i - 1]? with
    | none => none
    | some seg => if seg.contains offset then some seg else none

def nextOffset (m : Manager) : Nat := m.active.nextOffset

/-- The base of the first segment. -/
def earliestOffset (m : Manager) : Nat := (m.front.head?.getD m.active).baseOffset

def readAt (cs : Checksum) (m : Manager) (offset : Nat) : Except ReadAtError Bytes :=
  match m.segmentFor offset with
  | some seg => seg.readAt cs offset
  | none =>
    if offset < m.earliestOffset then .error (.outOfRetention offset m.earliestOffset)
    else .error (.wal .eof)

/-- The loop of `Open` over the segments in base-offset order; the first error ends it. -/
def openAll (f : Segment → Except RecoverError Segment) :
    List Segment → Except RecoverError (List Segment)
  | [] => .ok []
  | s :: ss =>
    match f s with
    | .error e => .error e
    | .ok s' =>
      match openAll f ss with
      | .error e => .error e
      | .ok ss' => .ok (s' :: ss')

/-- `Open` on what a crash left of every segment; `cut` is given by base offset.  The
    segment with the highest base is active again. -/
def reopen (cs : Checksum) (m : Manager) (cut : Nat → Cut) : Except RecoverError Manager :=
  match openAll (fun s => s.reopen cs (cut s.baseOffset)) m.front with
  | .error e => .error e
  | .ok front =>
    match m.active.reopen cs (cut m.active.baseOffset) with
    | .error e => .error e
    | .ok active => .ok { m with front := front, active := active }

/-- `Close`, then `Open` with a configuration, without I/O failures. -/
def restart (cs : Checksum) (m : Manager) (cfg : Config) (mtime : Nat → Int) :
    Except RecoverError Manager :=
  match openAll (fun s => s.restart cs true (fun _ => .ok) (mtime s.baseOffset)) m.front with
  | .error e => .error e
  | .ok front =>
    match m.active.restart cs true (fun _ => .ok) (mtime m.active.baseOffset) with
    | .error e => .error e
    | .ok active => .ok { cfg := cfg.settings, front := front, active := active }

/-- Every `Append` that returned nil, by the offset it returned. -/
def acked (m : Manager) : List (Nat × Bytes) := m.segments.flatMap Segment.acked

/-- Replace segment `i`. -/
def setSegment (m : Manager) (i : Nat) (s : Segment) : Manager :=
  if i < m.front.length then { m with front := m.front.set i s } else { m with active := s }

end Manager

/-! ## The interface -/

/-- The methods of the manager. -/
inductive Method where
  | append (data : Bytes)
  | readAt (offset : Nat)
  | nextOffset
  | earliestOffset
  | runRetention
  deriving DecidableEq, Repr

/-- What `seg.ReadAt` returns: an answer, or the error of a file that is closed. -/
inductive ReadResult where
  | fileClosed
  | answered (r : Except ReadAtError Bytes)
  deriving DecidableEq, Repr

/-- What a method returns. -/
inductive Answer where
  | append (r : Except AppendError Nat)
  | readAt (r : ReadResult)
  | offset (o : Nat)
  | done
  deriving DecidableEq

/-! ## Readers -/

/-- A consumer's cursor over the whole log. -/
structure Reader where
  /-- Next global offset `Next` will return. -/
  offset : Nat
  deriving DecidableEq, Repr

/-- `NewReader`: a cursor at the earliest available offset. -/
def newReader (m : Manager) : Reader := ⟨m.earliestOffset⟩

namespace Reader

/-- `Next`: the record at the cursor and its offset; the cursor moves only on success. -/
def next (cs : Checksum) (m : Manager) (r : Reader) :
    Reader × Except ReadAtError (Bytes × Nat) :=
  match m.readAt cs r.offset with
  | .error e => (r, .error e)
  | .ok data => (⟨r.offset + 1⟩, .ok (data, r.offset))

/-- Up to `n` calls of `Next`: the records returned, and the error that ended it. -/
def drive (cs : Checksum) (m : Manager) :
    Nat → Reader → List (Bytes × Nat) × Option ReadAtError
  | 0, _ => ([], none)
  | n + 1, r =>
    match r.next cs m with
    | (_, .error e) => ([], some e)
    | (r, .ok p) => (p :: (drive cs m n r).1, (drive cs m n r).2)

end Reader

end EventLog.Segments
