import EventLog.Wal.Store

/-!
# Reading records

`WALReader.ReadAt` starts at the nearest checkpoint at or below the offset and walks
records by their length fields; only the target's checksum is verified.

`os.File.ReadAt` returns `io.EOF` whenever it reads fewer bytes than asked, and an
error of its own for a negative position.  A short header read is returned as `io.EOF`
itself; a short payload read is wrapped with `%w`, so `errors.Is(err, io.EOF)` holds
for both.
-/

namespace EventLog.Wal

open EventLog.Lib

/-! ## Errors -/

/-- The `Reason` of a `CorruptionError`. -/
inductive CorruptionReason where
  /-- "length out of bounds: %d" -/
  | lengthOutOfBounds (length : Nat)
  /-- "checksum mismatch reading offset %d" -/
  | checksumMismatch (offset : Nat)
  deriving DecidableEq, Repr

/-- Detected corruption: the byte position, the stored and the recomputed checksum. -/
structure CorruptionError where
  offset : Nat
  expected : Bytes
  got : Bytes
  reason : CorruptionReason
  deriving DecidableEq, Repr

/-- The errors of `ReadAt`. -/
inductive ReadError where
  /-- `io.EOF` -/
  | eof
  /-- "wal: read header at offset %d (pos %d): %w" for a position no file has -/
  | readHeader (offset : Nat) (pos : Int)
  /-- "wal: read payload at offset %d (pos %d): %w", wrapping `io.EOF` -/
  | readPayload (offset pos : Nat)
  | corruption (e : CorruptionError)
  deriving DecidableEq, Repr

/-- `errors.Is(err, io.EOF)`. -/
def ReadError.isEOF : ReadError → Bool
  | .eof => true
  | .readPayload .. => true
  | _ => false

/-! ## The reader -/

/-- The loop of `ReadAt` at record `cur` and position `pos`.  Every round moves the
    position forward, so a file is exhausted in as many rounds as it has bytes. -/
def readLoop (cs : Checksum) (file : Bytes) (offset : Nat) :
    (fuel cur pos : Nat) → Except ReadError Bytes
  | 0, _, _ => .error .eof
  | fuel + 1, cur, pos =>
    -- `io.EOF` and `io.ErrUnexpectedEOF` of the header read both become `io.EOF`
    if pos + cs.headerSize > file.length then .error .eof
    else
      let length := lengthAt file pos
      if length > MaxRecordSize then
        .error (.corruption
          { offset := pos, expected := [], got := [], reason := .lengthOutOfBounds length })
      else if cur = offset then
        -- the error of the short read is wrapped, so it still counts as `io.EOF`
        if pos + cs.headerSize + length > file.length then .error (.readPayload offset pos)
        else
          let storedSum := sumAt cs file pos
          let payload := payloadAt cs file pos
          let computedSum := cs.compute (slice file pos LengthSize ++ payload)
          if computedSum ≠ storedSum then
            .error (.corruption
              { offset := pos
                expected := storedSum
                got := computedSum
                reason := .checksumMismatch offset })
          else .ok payload
      -- a record before the target is skipped without looking at its checksum
      else readLoop cs file offset fuel (cur + 1) (pos + cs.headerSize + length)

/-- `WALReader.ReadAt`. -/
def readAt (cs : Checksum) (file : Bytes) (store : InMemoryStore) (offset : Nat) :
    Except ReadError Bytes :=
  match store.floor offset with
  | none => readLoop cs file offset (file.length + 1) 0 0
  | some (cur, pos) =>
    if pos < 0 then .error (.readHeader offset pos)
    else readLoop cs file offset (file.length + 1) cur pos.toNat

/-- Nothing above the record limit is returned, whatever the bytes of the file are. -/
theorem readLoop_length_le {cs : Checksum} {file d : Bytes} {o fuel cur pos : Nat}
    (h : readLoop cs file o fuel cur pos = .ok d) : d.length ≤ MaxRecordSize := by
  induction fuel generalizing cur pos with
  | zero => cases h
  | succ fuel ih =>
    rw [readLoop] at h
    simp only at h
    -- only the last two branches return anything: the target, and what a later round returns
    split_ifs at h with _ hmax _ hfits
    · obtain rfl := Except.ok.inj h
      rw [payloadAt, slice_length]
      omega
    · exact ih h

theorem readAt_length_le {cs : Checksum} {file d : Bytes} {s : InMemoryStore} {o : Nat}
    (h : readAt cs file s o = .ok d) : d.length ≤ MaxRecordSize := by
  rw [readAt] at h
  split at h
  · exact readLoop_length_le h
  · split_ifs at h
    exact readLoop_length_le h

/-- At the target, an intact record is returned. -/
theorem readLoop_target {cs : Checksum} {file d : Bytes} {o fuel pos : Nat}
    (hf : FramedAt cs file pos d) (hd : d.length ≤ MaxRecordSize) :
    readLoop cs file o (fuel + 1) o pos = .ok d := by
  have hfits := hf.fits
  rw [readLoop, if_neg (by omega)]
  simp only [hf.length, hf.payload, hf.sum, hf.lengthBytes]
  rw [if_neg (by omega), if_pos trivial, if_neg (by omega), if_neg (by simp)]

end EventLog.Wal
