import EventLog.Lib.Codec

/-!
# Length-prefixed frames

A frame is a tag byte, the length of the payload in four bytes, and the payload.  Reading
takes one frame from the front of a byte stream and leaves the rest; a reader refuses a
length above its limit as soon as it has the header.

* `readFrame_writeFrame`: a frame within the limit is read back, whatever follows it.
* `readFrame_refused`: a length field above the limit is refused.
* `readFrame_cut`: from a part of a frame nothing is read.
* `frame_exactCodec`: reading takes exactly the bytes of the frame it returns.
-/

namespace EventLog.Lib

/-- Why no frame was read. -/
inductive FrameError where
  /-- `io.EOF`: the stream ended where a frame would start. -/
  | eof
  /-- `io.ErrUnexpectedEOF`: the stream ended inside the header. -/
  | headerCut
  /-- The length field is above the limit. -/
  | tooLarge (length : Nat)
  /-- The stream ended inside the payload. -/
  | payloadCut
  deriving DecidableEq, Repr

/-- The stream ended too early; on an open stream the read waits instead. -/
def FrameError.isShort : FrameError → Bool
  | .tooLarge _ => false
  | _ => true

/-- Width of the length field. -/
def frameLengthSize : Nat := 4

/-- The bytes of a frame; the length field holds the low four bytes of the length. -/
def writeFrame (tag : UInt8) (payload : Bytes) : Bytes :=
  tag :: (beBytes frameLengthSize payload.length ++ payload)

/-- Read one frame with a payload of at most `max` bytes, and what follows it. -/
def readFrame (max : Nat) : Bytes → Except FrameError (UInt8 × Bytes) × Bytes
  | [] => (.error .eof, [])
  | tag :: rest =>
    if rest.length < frameLengthSize then (.error .headerCut, [])
    else
      let length := beNat (rest.take frameLengthSize)
      let body := rest.drop frameLengthSize
      if length > max then (.error (.tooLarge length), body)
      else if body.length < length then (.error .payloadCut, [])
      else (.ok (tag, body.take length), body.drop length)

variable {max : Nat} {payload : Bytes}

theorem writeFrame_ne_nil (tag : UInt8) (payload : Bytes) : writeFrame tag payload ≠ [] :=
  List.cons_ne_nil _ _

/-- The header of a frame, in front of anything. -/
theorem readFrame_append (max : Nat) (tag : UInt8) (payload rest : Bytes) :
    readFrame max (writeFrame tag payload ++ rest) =
      if payload.length % 256 ^ frameLengthSize > max then
        (.error (.tooLarge (payload.length % 256 ^ frameLengthSize)), payload ++ rest)
      else
        (.ok (tag, (payload ++ rest).take (payload.length % 256 ^ frameLengthSize)),
          (payload ++ rest).drop (payload.length % 256 ^ frameLengthSize)) := by
  have hwidth := beBytes_length frameLengthSize payload.length
  have hle : payload.length % 256 ^ frameLengthSize ≤ payload.length := Nat.mod_le _ _
  rw [writeFrame, List.cons_append, List.append_assoc, readFrame, List.length_append, hwidth,
    if_neg (by omega)]
  simp only [List.take_left' hwidth, List.drop_left' hwidth, beNat_beBytes_mod]
  -- the length that is read is the true one modulo the width of its field
  by_cases hmax : payload.length % 256 ^ frameLengthSize > max
  · rw [if_pos hmax, if_pos hmax]
  · rw [if_neg hmax, if_neg hmax, if_neg (by rw [List.length_append]; omega)]

/-- A frame within the limit is read back. -/
theorem readFrame_writeFrame (tag : UInt8) (rest : Bytes) (hlen : payload.length ≤ max)
    (hmax : max < 256 ^ frameLengthSize) :
    readFrame max (writeFrame tag payload ++ rest) = (.ok (tag, payload), rest) := by
  rw [readFrame_append, Nat.mod_eq_of_lt (Nat.lt_of_le_of_lt hlen hmax), if_neg (by omega),
    List.take_left, List.drop_left]

/-- A length field above the limit is refused. -/
theorem readFrame_refused (tag : UInt8) (rest : Bytes)
    (hlen : max < payload.length % 256 ^ frameLengthSize) :
    (readFrame max (writeFrame tag payload ++ rest)).1 =
      .error (.tooLarge (payload.length % 256 ^ frameLengthSize)) := by
  rw [readFrame_append, if_pos hlen]

/-- From a part of a frame nothing is read. -/
theorem readFrame_cut {tag : UInt8} {bs : Bytes} (hlen : payload.length ≤ max)
    (hmax : max < 256 ^ frameLengthSize) (hpre : bs <+: writeFrame tag payload)
    (hne : bs ≠ writeFrame tag payload) :
    ∃ e, readFrame max bs = (.error e, []) ∧ e.isShort = true := by
  cases bs with
  | nil => exact ⟨.eof, rfl, rfl⟩
  | cons t rest =>
    obtain ⟨rfl, hrest⟩ := List.cons_prefix_cons.mp hpre
    rw [readFrame]
    by_cases hheader : rest.length < frameLengthSize
    · exact ⟨.headerCut, if_pos hheader, rfl⟩
    · -- the header is whole, so the payload is not
      have hwidth := beBytes_length frameLengthSize payload.length
      have hshort : rest.length < frameLengthSize + payload.length := by
        refine Nat.lt_of_le_of_ne (by simpa [hwidth] using hrest.length_le) fun heq => hne ?_
        rw [writeFrame, hrest.eq_of_length (by rw [List.length_append, hwidth, heq])]
      -- what is there of the frame has its length field
      have htake : rest.take frameLengthSize = beBytes frameLengthSize payload.length := by
        obtain ⟨more, hmore⟩ := hrest
        have htake := congrArg (List.take frameLengthSize) hmore
        rwa [List.take_append_of_le_length (by omega), List.take_left' hwidth] at htake
      rw [if_neg hheader]
      simp only [htake, beNat_beBytes_mod, Nat.mod_eq_of_lt (Nat.lt_of_le_of_lt hlen hmax)]
      rw [if_neg (by omega), if_pos (by rw [List.length_drop]; omega)]
      exact ⟨.payloadCut, rfl, rfl⟩

/-- The header decides: a length field above the limit is refused, whatever follows it. -/
theorem readFrame_tooLarge {tag : UInt8} {len : Bytes} (more : Bytes)
    (hwidth : len.length = frameLengthSize) (hlen : max < beNat len) :
    readFrame max (tag :: (len ++ more)) = (.error (.tooLarge (beNat len)), more) := by
  rw [readFrame, List.length_append, if_neg (by omega)]
  simp only [List.take_left' hwidth, List.drop_left' hwidth, if_pos hlen]

/-- The bytes that are taken are those of the frame. -/
theorem writeFrame_of_readFrame {bs rest : Bytes} {tag : UInt8}
    (h : readFrame max bs = (.ok (tag, payload), rest)) :
    payload.length ≤ max ∧ bs = writeFrame tag payload ++ rest := by
  cases bs with
  | nil => cases h
  | cons t more =>
    simp only [readFrame] at h
    -- each check that fails is an error, so all of them passed
    split_ifs at h with hheader hmax hbody
    · cases h
    · cases h
    · cases h
    · obtain ⟨hok, rfl⟩ := Prod.mk.inj h
      obtain ⟨rfl, rfl⟩ := Prod.mk.inj (Except.ok.inj hok)
      have hwidth : (more.take frameLengthSize).length = frameLengthSize := by
        rw [List.length_take]
        omega
      -- the length field is that of the payload it announced
      have hlen : ((more.drop frameLengthSize).take
          (beNat (more.take frameLengthSize))).length = beNat (more.take frameLengthSize) := by
        rw [List.length_take]
        omega
      have hfield := beBytes_beNat (more.take frameLengthSize)
      rw [hwidth] at hfield
      refine ⟨by omega, ?_⟩
      rw [writeFrame, hlen, hfield, List.cons_append, List.append_assoc, List.take_append_drop,
        List.take_append_drop]

/-- A frame that is read has the tag its bytes start with, and takes some of them. -/
theorem readFrame_eq_ok {bs rest : Bytes} {tag : UInt8}
    (h : readFrame max bs = (.ok (tag, payload), rest)) :
    ∃ more, bs = tag :: more ∧ rest.length ≤ more.length := by
  obtain ⟨-, rfl⟩ := writeFrame_of_readFrame h
  refine ⟨beBytes frameLengthSize payload.length ++ payload ++ rest, rfl, ?_⟩
  rw [List.length_append]
  omega

/-- **Frames are an exact codec.** -/
theorem frame_exactCodec (hmax : max < 256 ^ frameLengthSize) :
    ExactCodec (fun frame : UInt8 × Bytes => writeFrame frame.1 frame.2) (readFrame max)
      (fun frame => frame.2.length ≤ max) where
  readBack _ rest hfits := readFrame_writeFrame _ rest hfits hmax
  consumed _ _ _ hread := writeFrame_of_readFrame hread

end EventLog.Lib
