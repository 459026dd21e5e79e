import EventLog.Lib.Bytes

/-!
# The on-disk record format

A log file is a sequence of records `length ‖ checksum ‖ payload`: a 4-byte big-endian
length, the checksum of length and payload, and the payload.  The checksum algorithm
is a parameter that fixes the header width.

`FramedAt` says that a record can be parsed at a position; the reader and the recovery
scan are specified through it.  `Torn` describes what an interrupted append leaves
behind the last whole record.
-/

namespace EventLog.Wal

open EventLog.Lib

/-! ## Encoding -/

/-- The `Checksum` interface: `Compute` of the concatenated parts, always `Size()` bytes. -/
structure Checksum where
  size : Nat
  compute : Bytes → Bytes
  compute_length : ∀ m, (compute m).length = size

/-- The sum of the bytes: a one-byte checksum that notices every altered byte. -/
def byteSum : Checksum where
  size := 1
  compute m := [m.foldl (· + ·) 0]
  compute_length _ := rfl

/-- One bit of a CRC-32 with the Castagnoli polynomial. -/
def crcBit (c : Nat) : Nat := if c % 2 = 1 then c / 2 ^^^ 0x82F63B78 else c / 2

/-- `crc32.Update` with the Castagnoli table. -/
def crc32Update (sum : Nat) (p : Bytes) : Nat :=
  p.foldl (fun c b => Nat.repeat crcBit 8 ((c ^^^ b.toNat) % 256) ^^^ c / 256)
    (sum ^^^ 0xFFFFFFFF) ^^^ 0xFFFFFFFF

-- the check value of CRC-32C: the sum of "123456789"
example : crc32Update 0 [0x31, 0x32, 0x33, 0x34, 0x35, 0x36, 0x37, 0x38, 0x39] = 0xE3069283 := by
  decide +kernel

/-- `CRC32C`, the default checksum. -/
def crc32c : Checksum where
  size := 4
  compute m := beBytes 4 (crc32Update 0 m)
  compute_length _ := beBytes_length 4 _

/-- Width of the length field. -/
def LengthSize : Nat := 4

/-- Sanity cap on a payload, 64 MB. -/
def MaxRecordSize : Nat := 64 * 1024 * 1024

/-- Every `NthIndex`-th record gets a checkpoint. -/
def NthIndex : Nat := 10

/-- Width of a record header. -/
def Checksum.headerSize (cs : Checksum) : Nat := LengthSize + cs.size

/-- The bytes of one record. -/
def encode (cs : Checksum) (data : Bytes) : Bytes :=
  let lenBuf := beBytes LengthSize data.length
  lenBuf ++ (cs.compute (lenBuf ++ data) ++ data)

/-- The bytes of a log of whole records. -/
def encodeAll (cs : Checksum) (recs : List Bytes) : Bytes := recs.flatMap (encode cs)

/-- The byte position of record `k`. -/
def startOf (cs : Checksum) (recs : List Bytes) (k : Nat) : Nat :=
  (encodeAll cs (recs.take k)).length

section Encoding

variable {cs : Checksum} {recs : List Bytes} {d : Bytes} {k : Nat}

theorem headerSize_pos (cs : Checksum) : 0 < cs.headerSize := by
  unfold Checksum.headerSize LengthSize
  omega

@[simp] theorem encode_length (cs : Checksum) (d : Bytes) :
    (encode cs d).length = cs.headerSize + d.length := by
  simp [encode, cs.compute_length, Checksum.headerSize, Nat.add_assoc]

theorem encode_ne_nil (cs : Checksum) (d : Bytes) : encode cs d ≠ [] := by
  rw [← List.length_pos_iff, encode_length]
  exact Nat.add_pos_left (headerSize_pos cs) _

@[simp] theorem encodeAll_nil (cs : Checksum) : encodeAll cs [] = [] := rfl

@[simp] theorem encodeAll_cons (cs : Checksum) (d : Bytes) (recs : List Bytes) :
    encodeAll cs (d :: recs) = encode cs d ++ encodeAll cs recs := rfl

theorem encodeAll_append (cs : Checksum) (recs recs' : List Bytes) :
    encodeAll cs (recs ++ recs') = encodeAll cs recs ++ encodeAll cs recs' :=
  List.flatMap_append

theorem encodeAll_concat (cs : Checksum) (recs : List Bytes) (d : Bytes) :
    encodeAll cs (recs ++ [d]) = encodeAll cs recs ++ encode cs d := by
  rw [encodeAll_append, encodeAll_cons, encodeAll_nil, List.append_nil]

/-- The log around record `k`. -/
theorem encodeAll_split (cs : Checksum) (h : recs[k]? = some d) :
    encodeAll cs recs =
      encodeAll cs (recs.take k) ++ (encode cs d ++ encodeAll cs (recs.drop (k + 1))) := by
  obtain ⟨hk, rfl⟩ := List.getElem?_eq_some_iff.mp h
  rw [← encodeAll_cons, ← encodeAll_append, List.getElem_cons_drop, List.take_append_drop]

@[simp] theorem startOf_zero (cs : Checksum) (recs : List Bytes) : startOf cs recs 0 = 0 := rfl

theorem startOf_succ (h : recs[k]? = some d) :
    startOf cs recs (k + 1) = startOf cs recs k + (cs.headerSize + d.length) := by
  rw [startOf, List.take_add_one, h, Option.toList_some, encodeAll_concat, List.length_append,
    encode_length]
  rfl

theorem startOf_length (cs : Checksum) (recs : List Bytes) :
    startOf cs recs recs.length = (encodeAll cs recs).length := by
  rw [startOf, List.take_length]

/-- Appending records does not move the earlier ones. -/
theorem startOf_append (recs' : List Bytes) (hk : k ≤ recs.length) :
    startOf cs (recs ++ recs') k = startOf cs recs k := by
  rw [startOf, startOf, List.take_append_of_le_length hk]

theorem startOf_take {m : Nat} (hk : k ≤ m) : startOf cs (recs.take m) k = startOf cs recs k := by
  rw [startOf, startOf, List.take_take, Nat.min_eq_left hk]

theorem startOf_mono {k' : Nat} (h : k ≤ k') : startOf cs recs k ≤ startOf cs recs k' := by
  rw [startOf, startOf, ← Nat.min_eq_left h, ← List.take_take]
  conv_rhs => rw [← List.take_append_drop k (recs.take k'), encodeAll_append, List.length_append]
  exact Nat.le_add_right _ _

/-- Records take at least a header each. -/
theorem startOf_lt {k' : Nat} (h : k < k') (hk : k < recs.length) :
    startOf cs recs k < startOf cs recs k' := by
  have hs : startOf cs recs (k + 1) = _ := startOf_succ (List.getElem?_eq_getElem hk)
  have hm : startOf cs recs (k + 1) ≤ startOf cs recs k' := startOf_mono h
  have := headerSize_pos cs
  omega

theorem startOf_le (cs : Checksum) (recs : List Bytes) (k : Nat) :
    startOf cs recs k ≤ (encodeAll cs recs).length := by
  rcases Nat.le_total k recs.length with h | h
  · rw [← startOf_length]
    exact startOf_mono h
  · exact Nat.le_of_eq (by rw [startOf, List.take_of_length_le h])

/-- A log has at least as many bytes as records. -/
theorem length_le_encodeAll (cs : Checksum) (recs : List Bytes) :
    recs.length ≤ (encodeAll cs recs).length := by
  induction recs with
  | nil => exact Nat.le_refl _
  | cons d recs ih =>
    have := headerSize_pos cs
    rw [encodeAll_cons, List.length_append, encode_length, List.length_cons]
    omega

end Encoding

/-! ## Parsing -/

/-- The length field at a position. -/
def lengthAt (data : Bytes) (pos : Nat) : Nat := beNat (slice data pos LengthSize)

/-- The stored checksum at a position. -/
def sumAt (cs : Checksum) (data : Bytes) (pos : Nat) : Bytes :=
  slice data (pos + LengthSize) cs.size

/-- The payload at a position, as its length field says. -/
def payloadAt (cs : Checksum) (data : Bytes) (pos : Nat) : Bytes :=
  slice data (pos + cs.headerSize) (lengthAt data pos)

/-- The record of payload `d` stands at `pos`. -/
structure FramedAt (cs : Checksum) (data : Bytes) (pos : Nat) (d : Bytes) : Prop where
  lengthBytes : slice data pos LengthSize = beBytes LengthSize d.length
  length : lengthAt data pos = d.length
  sum : sumAt cs data pos = cs.compute (beBytes LengthSize d.length ++ d)
  payload : payloadAt cs data pos = d
  fits : pos + cs.headerSize + d.length ≤ data.length

section Parsing

variable {cs : Checksum} {recs : List Bytes} {d : Bytes} {k : Nat}

theorem framedAt_encode (cs : Checksum) (a b : Bytes) (hd : d.length ≤ MaxRecordSize) :
    FramedAt cs (a ++ (encode cs d ++ b)) a.length d := by
  have hbytes : slice (a ++ (encode cs d ++ b)) a.length LengthSize =
      beBytes LengthSize d.length := by
    have h := slice_middle a (beBytes LengthSize d.length)
      (cs.compute (beBytes LengthSize d.length ++ d) ++ (d ++ b))
    rw [beBytes_length] at h
    simpa [encode] using h
  have hlen : lengthAt (a ++ (encode cs d ++ b)) a.length = d.length := by
    -- the length fits its four bytes
    rw [lengthAt, hbytes, beNat_beBytes]
    unfold MaxRecordSize at hd
    unfold LengthSize
    omega
  -- the checksum and the payload follow the length field
  have hpay := slice_middle (a ++ (beBytes LengthSize d.length ++
    cs.compute (beBytes LengthSize d.length ++ d))) d b
  have hsum := slice_middle (a ++ beBytes LengthSize d.length)
    (cs.compute (beBytes LengthSize d.length ++ d)) (d ++ b)
  refine ⟨hbytes, hlen, ?_, ?_, ?_⟩
  · simpa [sumAt, encode, cs.compute_length, Nat.add_assoc] using hsum
  · rw [payloadAt, hlen]
    simpa [encode, cs.compute_length, Checksum.headerSize, Nat.add_assoc] using hpay
  · simp only [List.length_append, encode_length]
    omega

/-- Every record of a log is framed at its start, whatever follows the log. -/
theorem framedAt_encodeAll (cs : Checksum) (tail : Bytes) (h : recs[k]? = some d)
    (hd : d.length ≤ MaxRecordSize) :
    FramedAt cs (encodeAll cs recs ++ tail) (startOf cs recs k) d := by
  rw [encodeAll_split cs h, List.append_assoc, List.append_assoc]
  exact framedAt_encode cs _ _ hd

/-- The same for a log with nothing behind it. -/
theorem framedAt_log (cs : Checksum) (h : recs[k]? = some d) (hd : d.length ≤ MaxRecordSize) :
    FramedAt cs (encodeAll cs recs) (startOf cs recs k) d := by
  have hf := framedAt_encodeAll cs [] h hd
  rwa [List.append_nil] at hf

end Parsing

/-! ## Torn tails -/

/-- A strict prefix of some record: what an append that did not complete leaves. -/
def Torn (cs : Checksum) (tail : Bytes) : Prop :=
  ∃ d n, d.length ≤ MaxRecordSize ∧ n < (encode cs d).length ∧ tail = (encode cs d).take n

section Tails

variable {cs : Checksum} {recs : List Bytes} {tail : Bytes}

/-- A torn tail is shorter than the longest record. -/
theorem Torn.length_lt (h : Torn cs tail) : tail.length < cs.headerSize + MaxRecordSize := by
  obtain ⟨d, n, hd, hn, rfl⟩ := h
  rw [encode_length] at hn
  rw [List.length_take]
  omega

theorem torn_nil (cs : Checksum) : Torn cs [] := by
  refine ⟨[], 0, Nat.zero_le _, ?_, rfl⟩
  rw [encode_length]
  exact Nat.lt_of_lt_of_le (headerSize_pos cs) (Nat.le_add_right _ _)

theorem Torn.take (h : Torn cs tail) (n : Nat) : Torn cs (tail.take n) := by
  obtain ⟨d, m, hd, hm, rfl⟩ := h
  exact ⟨d, min n m, hd, Nat.lt_of_le_of_lt (Nat.min_le_right _ _) hm, List.take_take⟩

/-- A torn tail ends inside its header, or its length field points past its end. -/
theorem Torn.cases (h : Torn cs tail) (a : Bytes) :
    tail.length < cs.headerSize ∨
      (lengthAt (a ++ tail) a.length ≤ MaxRecordSize ∧
        tail.length < cs.headerSize + lengthAt (a ++ tail) a.length) := by
  obtain ⟨d, n, hd, hn, rfl⟩ := h
  rw [List.length_take, Nat.min_eq_left (Nat.le_of_lt hn)]
  rw [encode_length] at hn
  rcases Nat.lt_or_ge n cs.headerSize with hlt | hge
  · exact Or.inl hlt
  · right
    -- the header is complete, so the length field is the one of the whole record
    have hwhole := (framedAt_encode cs a [] hd).length
    have hsame : lengthAt (a ++ (encode cs d).take n) a.length =
        lengthAt (a ++ (encode cs d ++ [])) a.length := by
      have hcut : LengthSize ≤ n := Nat.le_trans (Nat.le_add_right _ _) hge
      have hl := slice_append_right a ((encode cs d).take n) 0 LengthSize
      have hr := slice_append_right a (encode cs d ++ []) 0 LengthSize
      rw [Nat.add_zero, slice_zero] at hl hr
      rw [lengthAt, lengthAt, hl, hr, List.take_take, Nat.min_eq_left hcut, List.append_nil]
    rw [hsame, hwhole]
    exact ⟨hd, hn⟩

/-- **Cutting a log**: a prefix of whole records with a torn tail is again such a log, and
    keeps every record that ends inside the prefix. -/
theorem take_encodeAll (hrecs : ∀ d ∈ recs, d.length ≤ MaxRecordSize) (ht : Torn cs tail)
    (n : Nat) : ∃ m tail', m ≤ recs.length ∧ Torn cs tail' ∧
      (encodeAll cs recs ++ tail).take n = encodeAll cs (recs.take m) ++ tail' ∧
      ∀ k, k ≤ recs.length → startOf cs recs k ≤ n → k ≤ m := by
  induction recs generalizing n with
  | nil =>
    refine ⟨0, tail.take n, Nat.le_refl _, ht.take n, rfl, fun k hk _ => hk⟩
  | cons d recs ih =>
    rcases Nat.lt_or_ge n (encode cs d).length with hlt | hge
    · -- the cut falls into the first record
      refine ⟨0, (encode cs d).take n, Nat.zero_le _,
        ⟨d, n, hrecs d (List.mem_cons_self ..), hlt, rfl⟩, ?_, fun k hk hle => ?_⟩
      · rw [encodeAll_cons, List.append_assoc, List.take_append_of_le_length (Nat.le_of_lt hlt)]
        rfl
      · by_contra hpos
        have h1 : startOf cs (d :: recs) 1 ≤ startOf cs (d :: recs) k := startOf_mono (by omega)
        have h2 : startOf cs (d :: recs) 1 = (encode cs d).length := by
          simp [startOf]
        omega
    -- the first record is whole: cut the rest of the log
    · obtain ⟨m, tail', hm, htorn, hcut, hkeep⟩ :=
        ih (fun e he => hrecs e (List.mem_cons_of_mem _ he)) (n - (encode cs d).length)
      refine ⟨m + 1, tail', Nat.succ_le_succ hm, htorn, ?_, fun k hk hle => ?_⟩
      · rw [encodeAll_cons, List.append_assoc, List.take_append, List.take_of_length_le hge, hcut,
          List.take_succ_cons, encodeAll_cons, List.append_assoc]
      · cases k with
        | zero => exact Nat.zero_le _
        | succ k =>
          have hstart : startOf cs (d :: recs) (k + 1) =
              (encode cs d).length + startOf cs recs k := by
            simp [startOf]
          exact Nat.succ_le_succ (hkeep k (Nat.le_of_succ_le_succ hk) (by omega))

end Tails

end EventLog.Wal
