import EventLog.Lib.Crc
import EventLog.Wal.Corruption

/-!
# Bursts in a payload

With the default checksum an alteration of a payload is always noticed if it lies within 32
consecutive bits, however long the payload is.  The bits are counted as the reflected CRC
reads them, from the least significant bit of each byte on.

The length field is the first part of what is summed, the payload the second; the sum of the
first part is the register the second one starts from, and bursts show from any register.
-/

namespace EventLog.Wal

open EventLog.Lib

/-! ## CRC32C -/

/-- The Castagnoli polynomial, least significant coefficient at the top. -/
def castagnoli : Nat := 0x82F63B78

theorem crc32Update_eq (sum : Nat) (p : Bytes) :
    crc32Update sum p = crcRegister castagnoli (sum ^^^ 0xFFFFFFFF) p ^^^ 0xFFFFFFFF := by
  unfold crc32Update crcRegister
  congr 1
  generalize sum ^^^ 0xFFFFFFFF = c
  induction p generalizing c with
  | nil => rfl
  | cons b p ih =>
    rw [List.foldl_cons, List.foldl_cons, ih]
    congr 1
    exact crcShifts_eight_table castagnoli b.toNat_lt

/-- `CRC32C.Compute` sums its parts one after the other. -/
theorem crc32Update_flatten (parts : List Bytes) (sum : Nat) :
    parts.foldl crc32Update sum = crc32Update sum parts.flatten := by
  induction parts generalizing sum with
  | nil =>
    rw [crc32Update_eq]
    exact (Nat.xor_xor_cancel_right sum 0xFFFFFFFF).symm
  | cons p parts ih =>
    rw [List.foldl_cons, ih, List.flatten_cons, crc32Update_eq sum p, crc32Update_eq,
      crc32Update_eq sum, crcRegister_append, Nat.xor_xor_cancel_right]

theorem crc32Update_lt (m : Bytes) : crc32Update 0 m < 2 ^ 32 := by
  have hregister : crcRegister castagnoli (0 ^^^ 0xFFFFFFFF) m < 2 ^ (31 + 1) :=
    crcRegister_lt (by decide) (by omega) (by decide) m
  rw [crc32Update_eq]
  exact Nat.xor_lt_two_pow hregister (by decide)

/-- **Bursts change the sum**, whatever the part before them is. -/
theorem compute_ne_of_burst (front : Bytes) {d d' : Bytes} (h : Burst 32 d d') :
    crc32c.compute (front ++ d') ≠ crc32c.compute (front ++ d) := by
  intro hsame
  -- equal checksums are equal registers, as four bytes hold all of one
  have hsum : crc32Update 0 (front ++ d') = crc32Update 0 (front ++ d) := by
    have hnat := congrArg beNat hsame
    simp only [crc32c] at hnat
    rwa [beNat_beBytes (crc32Update_lt _), beNat_beBytes (crc32Update_lt _)] at hnat
  rw [crc32Update_eq, crc32Update_eq, crcRegister_append, crcRegister_append,
    Nat.xor_left_inj] at hsum
  -- the polynomial has degree 32, so no burst of 32 bits is a multiple of it
  have hlow : 2 ^ 31 ≤ castagnoli := by decide
  have hhigh : castagnoli < 2 ^ (31 + 1) := by decide
  exact crcRegister_ne_of_burst hlow hhigh h _ hsum.symm

-- counted from the most significant bit of each byte on, 32 consecutive bits can escape
example : crc32Update 0 [0x62, 0x95, 0xE3, 0xFD, 0x80] = crc32Update 0 [0, 0, 0, 0, 0] := by
  decide +kernel

/-! ## Reading an altered payload -/

variable {cs : Checksum} {recs : List Bytes} {cps : List Nat} {s : InMemoryStore} {o : Nat}
  {d : Bytes}

/-- The two fields of a header that is as written. -/
theorem header_fields {file : Bytes} (hd : recs[o]? = some d) (hmax : d.length ≤ MaxRecordSize)
    (h : slice file (startOf cs recs o) cs.headerSize =
      slice (encodeAll cs recs) (startOf cs recs o) cs.headerSize) :
    slice file (startOf cs recs o) LengthSize = beBytes LengthSize d.length ∧
      sumAt cs file (startOf cs recs o) = cs.compute (beBytes LengthSize d.length ++ d) := by
  have hframed := framedAt_log cs hd hmax
  -- both fields are parts of the header
  have hlength : ∀ bs : Bytes, slice bs (startOf cs recs o) LengthSize =
      (slice bs (startOf cs recs o) cs.headerSize).take LengthSize := fun bs => by
    have hle : LengthSize ≤ cs.headerSize := Nat.le_add_right _ _
    rw [slice, slice, List.take_take, Nat.min_eq_left hle]
  have hsum : ∀ bs : Bytes, sumAt cs bs (startOf cs recs o) =
      (slice bs (startOf cs recs o) cs.headerSize).drop LengthSize := fun bs => by
    rw [sumAt, slice, slice, List.drop_take, List.drop_drop, Checksum.headerSize,
      Nat.add_sub_cancel_left]
  rw [hlength file, hsum file, h, ← hlength, ← hsum]
  exact ⟨hframed.lengthBytes, hframed.sum⟩

/-- **A burst in a payload is detected**: if the walk to record `o` finds the length fields as
    written and record `o` its header, and the payload differs within 32 consecutive bits,
    then `ReadAt` returns a `CorruptionError` with the two sums. -/
theorem burst_detected (hs : Indexes crc32c recs cps s)
    (hrecs : ∀ r ∈ recs, r.length ≤ MaxRecordSize) (file : Bytes)
    (hfile : (encodeAll crc32c recs).length ≤ file.length) (hd : recs[o]? = some d)
    (hposition : ∀ k e, Skipped cps o k → recs[k]? = some e →
      lengthAt file (startOf crc32c recs k) = e.length)
    (hframing : slice file (startOf crc32c recs o) crc32c.headerSize =
      slice (encodeAll crc32c recs) (startOf crc32c recs o) crc32c.headerSize)
    (hburst : Burst 32 d (payloadAt crc32c file (startOf crc32c recs o))) :
    readAt crc32c file s o = .error (.corruption
      { offset := startOf crc32c recs o
        expected := crc32c.compute (beBytes LengthSize d.length ++ d)
        got := crc32c.compute (beBytes LengthSize d.length ++
          payloadAt crc32c file (startOf crc32c recs o))
        reason := .checksumMismatch o }) := by
  have hmax := hrecs d (List.mem_of_getElem? hd)
  obtain ⟨ho, -⟩ := List.getElem?_eq_some_iff.mp hd
  obtain ⟨fuel, hread⟩ := readAt_arrives file hs hrecs ho hfile hposition
  obtain ⟨hlength, hsum⟩ := header_fields hd hmax hframing
  have hvalue : lengthAt file (startOf crc32c recs o) = d.length := by
    rw [lengthAt, hlength]
    exact beNat_beBytes (by unfold MaxRecordSize at hmax; unfold LengthSize; omega)
  -- the record is still in the file
  have hend : startOf crc32c recs (o + 1) = _ := startOf_succ hd
  have hin := startOf_le crc32c recs (o + 1)
  have hdiffer := compute_ne_of_burst (beBytes LengthSize d.length) hburst
  -- the length is in bounds and the payload is there, so the checksum is compared
  rw [hread, readLoop, if_neg (by omega)]
  simp only [hvalue, hlength, hsum]
  rw [if_neg (by omega), if_pos trivial, if_neg (by omega), if_pos hdiffer]

/-- Two records, and three bytes of the second payload altered. -/
def burstFile : Bytes :=
  encode crc32c [1] ++ (beBytes LengthSize 5 ++
    (crc32c.compute (beBytes LengthSize 5 ++ [2, 3, 4, 5, 6]) ++ [2, 7, 0, 255, 6]))

theorem burst_detected_three : ∃ c,
    readAt crc32c burstFile (storeOf crc32c [[1], [2, 3, 4, 5, 6]] []) 1 =
      .error (.corruption c) := by
  have hs : Indexes crc32c [[1], [2, 3, 4, 5, 6]] [] (storeOf crc32c [[1], [2, 3, 4, 5, 6]] []) :=
    ⟨rfl, rfl, rfl, List.Pairwise.nil, by simp⟩
  have hburst : Burst 32 [2, 3, 4, 5, 6] [2, 7, 0, 255, 6] :=
    @burst_of_bytes 32 [2] [6] [3, 4, 5] [7, 0, 255] rfl (by decide) (by decide)
  have hpayload : payloadAt crc32c burstFile (startOf crc32c [[1], [2, 3, 4, 5, 6]] 1) =
      [2, 7, 0, 255, 6] := by decide +kernel
  refine ⟨_, burst_detected hs (by decide) burstFile (by decide +kernel) rfl ?_
    (by decide +kernel) (hpayload ▸ hburst)⟩
  -- the first record is the one that is skipped
  intro k e hk he
  obtain rfl : k = 0 := Nat.lt_one_iff.mp hk.1
  obtain rfl : [1] = e := Option.some.inj he
  decide +kernel

end EventLog.Wal
