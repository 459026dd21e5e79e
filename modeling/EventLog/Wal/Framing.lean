import EventLog.Wal.Writer

/-!
# The recovery scan on any bytes

`recover` divides a file into records by their length fields alone.  Any byte string is a
sequence of frames followed by bytes at which the scan stops (`exists_frames`):

* `Unfinished` bytes, from none at all to a record that ends behind them, which are
  truncated (`newWalWriter_unfinished`), or
* `Overlong` ones, whose length field is above `MaxRecordSize` and which make `recover` fail
  (`newWalWriter_overlong`).

Nothing is said here of checksums: the scan does not look at them.
-/

namespace EventLog.Wal

open EventLog.Lib

/-- One record by its length field. -/
def IsFrame (cs : Checksum) (bs : Bytes) : Prop :=
  lengthAt bs 0 ≤ MaxRecordSize ∧ bs.length = cs.headerSize + lengthAt bs 0

/-- Less than a record: part of a header, or a header whose record ends behind the bytes. -/
def Unfinished (cs : Checksum) (rest : Bytes) : Prop :=
  rest.length < cs.headerSize ∨
    (lengthAt rest 0 ≤ MaxRecordSize ∧ rest.length < cs.headerSize + lengthAt rest 0)

/-- A header with a length no record has. -/
def Overlong (cs : Checksum) (rest : Bytes) : Prop :=
  cs.headerSize ≤ rest.length ∧ MaxRecordSize < lengthAt rest 0

instance (cs : Checksum) (bs : Bytes) : Decidable (IsFrame cs bs) :=
  inferInstanceAs (Decidable (_ ∧ _))

instance (cs : Checksum) (rest : Bytes) : Decidable (Unfinished cs rest) :=
  inferInstanceAs (Decidable (_ ∨ _))

instance (cs : Checksum) (rest : Bytes) : Decidable (Overlong cs rest) :=
  inferInstanceAs (Decidable (_ ∧ _))

section Frames

variable {cs : Checksum} {f rest : Bytes} {fs : List Bytes}

theorem lengthAt_append_right (a b : Bytes) : lengthAt (a ++ b) a.length = lengthAt b 0 := by
  have h := slice_append_right a b 0 LengthSize
  rw [Nat.add_zero] at h
  rw [lengthAt, lengthAt, h]

/-- A whole length field is not changed by what follows. -/
theorem lengthAt_append_left {a : Bytes} (b : Bytes) (h : LengthSize ≤ a.length) :
    lengthAt (a ++ b) 0 = lengthAt a 0 := by
  rw [lengthAt, lengthAt, slice_zero, slice_zero, List.take_append_of_le_length h]

theorem lengthSize_le_headerSize (cs : Checksum) : LengthSize ≤ cs.headerSize :=
  Nat.le_add_right _ _

theorem unfinished_nil (cs : Checksum) : Unfinished cs [] := Or.inl (headerSize_pos cs)

theorem Torn.unfinished {tail : Bytes} (h : Torn cs tail) : Unfinished cs tail := h.cases []

theorem isFrame_encode {d : Bytes} (hd : d.length ≤ MaxRecordSize) :
    IsFrame cs (encode cs d) := by
  have hlen := (framedAt_encode cs [] [] hd).length
  rw [List.nil_append, List.append_nil] at hlen
  have hlen' : lengthAt (encode cs d) 0 = d.length := hlen
  exact ⟨by rw [hlen']; exact hd, by rw [hlen', encode_length]⟩

theorem encodeAll_eq_flatten (cs : Checksum) (recs : List Bytes) :
    encodeAll cs recs = (recs.map (encode cs)).flatten :=
  List.flatMap_def

/-- The front of any bytes: the scan stops at once, or there is a frame. -/
theorem frame_cases (cs : Checksum) (bs : Bytes) :
    Unfinished cs bs ∨ Overlong cs bs ∨ ∃ f rest, IsFrame cs f ∧ bs = f ++ rest := by
  -- the three tests of the scan, in its order
  by_cases hheader : bs.length < cs.headerSize
  · exact .inl (.inl hheader)
  by_cases hmax : MaxRecordSize < lengthAt bs 0
  · exact .inr (.inl ⟨by omega, hmax⟩)
  by_cases hfits : bs.length < cs.headerSize + lengthAt bs 0
  · exact .inl (.inr ⟨by omega, hfits⟩)
  -- header and payload are there
  have hwidth := lengthSize_le_headerSize cs
  set n := cs.headerSize + lengthAt bs 0 with hn
  have hlen : (bs.take n).length = n := List.length_take_of_le (by omega)
  have hfield : lengthAt (bs.take n) 0 = lengthAt bs 0 := by
    have h := lengthAt_append_left (a := bs.take n) (bs.drop n) (by omega)
    rw [List.take_append_drop] at h
    exact h.symm
  exact .inr (.inr ⟨bs.take n, bs.drop n, ⟨by omega, by omega⟩, (List.take_append_drop n bs).symm⟩)

/-- **Every byte string is frames and an end.** -/
theorem exists_frames (cs : Checksum) (bs : Bytes) :
    ∃ (fs : List Bytes) (rest : Bytes), (∀ f ∈ fs, IsFrame cs f) ∧ bs = fs.flatten ++ rest ∧
      (Unfinished cs rest ∨ Overlong cs rest) := by
  -- each frame takes its header at least, so the rest is shorter
  induction hn : bs.length using Nat.strongRecOn generalizing bs with
  | ind n ih =>
    rcases frame_cases cs bs with hend | hend | ⟨f, rest, hf, rfl⟩
    · exact ⟨[], bs, by simp, rfl, .inl hend⟩
    · exact ⟨[], bs, by simp, rfl, .inr hend⟩
    · have hpos := headerSize_pos cs
      have hlen := hf.2
      rw [List.length_append] at hn
      obtain ⟨fs, rest', hfs, rfl, hend⟩ := ih rest.length (by omega) rest rfl
      refine ⟨f :: fs, rest', fun g hg => ?_, ?_, hend⟩
      · rcases List.mem_cons.mp hg with rfl | hg
        · exact hf
        · exact hfs g hg
      · rw [List.flatten_cons, List.append_assoc]

/-- Frames take at least a header each. -/
theorem mul_length_le_flatten (hfs : ∀ f ∈ fs, IsFrame cs f) :
    cs.headerSize * fs.length ≤ fs.flatten.length := by
  induction fs with
  | nil => exact Nat.le_refl _
  | cons f fs ih =>
    have hlen := (hfs f List.mem_cons_self).2
    have := ih fun g hg => hfs g (List.mem_cons_of_mem f hg)
    rw [List.flatten_cons, List.length_append, List.length_cons, Nat.mul_succ]
    omega

theorem length_le_flatten (hfs : ∀ f ∈ fs, IsFrame cs f) : fs.length ≤ fs.flatten.length :=
  (Nat.le_mul_of_pos_left _ (headerSize_pos cs)).trans (mul_length_le_flatten hfs)

/-! ## The scan -/

/-- One round passes one frame. -/
theorem recoverLoop_frame (a rest : Bytes) (hf : IsFrame cs f) (fuel : Nat) {off : Nat}
    (hoff : off < maxUint64) :
    recoverLoop cs (a ++ (f ++ rest)) (fuel + 1) a.length off =
      recoverLoop cs (a ++ (f ++ rest)) fuel (a ++ f).length (off + 1) := by
  obtain ⟨hmax, hlen⟩ := hf
  have hpos := headerSize_pos cs
  -- the length field is inside the frame, so the bytes around it do not matter
  have hfield : lengthAt (a ++ (f ++ rest)) a.length = lengthAt f 0 := by
    rw [lengthAt_append_right, lengthAt_append_left _ (by
      have := lengthSize_le_headerSize cs
      omega)]
  rw [recoverLoop, List.length_append, List.length_append, if_neg (by omega), if_neg (by omega)]
  simp only [hfield]
  rw [if_neg (by omega), if_neg (by omega), succUint64_eq hoff, List.length_append, hlen,
    Nat.add_assoc]

/-- **Run lemma of the scan**: it passes the frames one by one. -/
theorem recoverLoop_frames (a : Bytes) (hfs : ∀ f ∈ fs, IsFrame cs f) (fuel : Nat) {off : Nat}
    (hoff : off + fs.length ≤ maxUint64) :
    recoverLoop cs (a ++ (fs.flatten ++ rest)) (fuel + fs.length) a.length off =
      recoverLoop cs (a ++ (fs.flatten ++ rest)) fuel (a ++ fs.flatten).length
        (off + fs.length) := by
  induction fs generalizing a off with
  | nil => rw [List.flatten_nil, List.append_nil]; rfl
  | cons f fs ih =>
    rw [List.length_cons] at hoff
    -- one frame, then the others from behind it
    have hstep := recoverLoop_frame a (fs.flatten ++ rest) (hfs f List.mem_cons_self)
      (fuel + fs.length) (show off < maxUint64 by omega)
    have hrest := ih (a ++ f) (fun g hg => hfs g (List.mem_cons_of_mem f hg))
      (show off + 1 + fs.length ≤ maxUint64 by omega)
    simp only [List.append_assoc] at hrest
    rw [List.flatten_cons, List.append_assoc, List.length_cons, ← Nat.add_assoc, hstep, hrest,
      Nat.add_right_comm off 1, Nat.add_assoc off]

theorem recoverLoop_unfinished (a : Bytes) (h : Unfinished cs rest) (fuel off : Nat) :
    recoverLoop cs (a ++ rest) (fuel + 1) a.length off = .ok (a.length, off) := by
  rw [recoverLoop, List.length_append, lengthAt_append_right]
  simp only
  -- the same result wherever the end falls: at the end of the file, in a header, in a payload
  split_ifs with _ _ hmax
  · rfl
  · rfl
  · -- the length is not out of bounds, or the header would be complete
    rcases h with hshort | ⟨hle, -⟩ <;> omega
  · rfl
  · rcases h with hshort | ⟨-, hlong⟩ <;> omega

theorem recoverLoop_overlong (a : Bytes) (h : Overlong cs rest) (fuel off : Nat) :
    recoverLoop cs (a ++ rest) (fuel + 1) a.length off =
      .error (.corruption
        { offset := a.length
          expected := []
          got := []
          reason := .lengthOutOfBounds (lengthAt rest 0) }) := by
  obtain ⟨hheader, hmax⟩ := h
  have hpos := headerSize_pos cs
  -- the header is complete and its length is tested first
  rw [recoverLoop, List.length_append, if_neg (by omega), if_neg (by omega),
    lengthAt_append_right]
  simp only
  rw [if_pos hmax]

end Frames

/-! ## Opening a file -/

section Opening

variable {cs : Checksum} {front rest : Bytes} {fs : List Bytes} {s : InMemoryStore} {k : Nat}

/-- What is scanned behind the start, whatever it is. -/
theorem newWalWriter_scan (hfs : ∀ f ∈ fs, IsFrame cs f) (hoff : k + fs.length ≤ maxUint64)
    (hstart : recoverStart cs (front ++ (fs.flatten ++ rest)) s.loadCheckpoints =
      (k, (front.length : Int))) :
    ∃ fuel, newWalWriter cs (front ++ (fs.flatten ++ rest)) s =
      match recoverLoop cs ((front ++ fs.flatten) ++ rest) (fuel + 1)
          (front ++ fs.flatten).length (k + fs.length) with
      | .error e => .error e
      | .ok (pos, off) => .ok
        { file := (front ++ (fs.flatten ++ rest)).take pos
          size := pos
          nextOffset := off
          writeSeq := 0
          syncedSeq := 0
          syncing := false
          syncErr := false
          pending := []
          store := s.loadCheckpoints } := by
  have hcount := length_le_flatten hfs
  set file := front ++ (fs.flatten ++ rest) with hfile
  -- there is fuel for every frame, since each has at least one byte
  have hfuel : file.length + 1 = file.length - fs.length + 1 + fs.length := by
    simp only [hfile, List.length_append]
    omega
  refine ⟨file.length - fs.length, ?_⟩
  have hloop : recoverLoop cs file (file.length + 1) front.length k =
      recoverLoop cs file (file.length - fs.length + 1) (front ++ fs.flatten).length
        (k + fs.length) := by
    rw [hfuel]
    exact recoverLoop_frames front hfs _ hoff
  rw [List.append_assoc, ← hfile, ← hloop]
  -- the start is inside the file, so the seek succeeds
  have hinside : ¬((front.length : Int) < 0 ∨ (file.length : Int) < front.length) := by
    simp only [hfile, List.length_append]
    omega
  cases hout : recoverLoop cs file (file.length + 1) front.length k with
  | error e => simp only [newWalWriter, WALWriter.recover, hstart, Int.toNat_natCast, hinside, hout,
      if_false]
  | ok p => simp only [newWalWriter, WALWriter.recover, hstart, Int.toNat_natCast, hinside, hout,
      if_false]

/-- **Unfinished bytes behind the frames are truncated.** -/
theorem newWalWriter_unfinished (hfs : ∀ f ∈ fs, IsFrame cs f)
    (hoff : k + fs.length ≤ maxUint64) (hrest : Unfinished cs rest)
    (hstart : recoverStart cs (front ++ (fs.flatten ++ rest)) s.loadCheckpoints =
      (k, (front.length : Int))) :
    newWalWriter cs (front ++ (fs.flatten ++ rest)) s = .ok
      { file := front ++ fs.flatten
        size := (front ++ fs.flatten).length
        nextOffset := k + fs.length
        writeSeq := 0
        syncedSeq := 0
        syncing := false
        syncErr := false
        pending := []
        store := s.loadCheckpoints } := by
  obtain ⟨fuel, hopen⟩ := newWalWriter_scan hfs hoff hstart
  rw [hopen, recoverLoop_unfinished _ hrest, ← List.append_assoc]
  simp only [List.take_left]

/-- **A length no record has makes opening fail.** -/
theorem newWalWriter_overlong (hfs : ∀ f ∈ fs, IsFrame cs f)
    (hoff : k + fs.length ≤ maxUint64) (hrest : Overlong cs rest)
    (hstart : recoverStart cs (front ++ (fs.flatten ++ rest)) s.loadCheckpoints =
      (k, (front.length : Int))) :
    newWalWriter cs (front ++ (fs.flatten ++ rest)) s = .error (.corruption
      { offset := (front ++ fs.flatten).length
        expected := []
        got := []
        reason := .lengthOutOfBounds (lengthAt rest 0) }) := by
  obtain ⟨fuel, hopen⟩ := newWalWriter_scan hfs hoff hstart
  rw [hopen, recoverLoop_overlong _ hrest]

end Opening

end EventLog.Wal
