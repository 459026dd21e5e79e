import EventLog.Wal.Walk
import Mathlib.Algebra.Order.BigOperators.Group.List
import Mathlib.Algebra.Order.Ring.Nat

/-!
# Altered bytes

Only the checksum of the record that is read is verified; the records the walk skips are
framed by their length fields alone.  One altered byte is therefore never served as valid
data unless it lies in the length field of a skipped record and the walk from there on
arrives at an intact record other than the one asked for, whose payload is then returned
for the wrong offset.
-/

namespace EventLog.Wal

open EventLog.Lib

variable {cs : Checksum} {recs : List Bytes} {j k o p : Nat}

/-! ## Fields -/

/-- The parts of a record. -/
inductive Field where
  | length
  | sum
  | payload
  deriving DecidableEq, Repr

/-- Where a field of record `j` starts. -/
def fieldStart (cs : Checksum) (recs : List Bytes) (j : Nat) : Field → Nat
  | .length => startOf cs recs j
  | .sum => startOf cs recs j + LengthSize
  | .payload => startOf cs recs j + cs.headerSize

/-- Where a field of record `j` ends. -/
def fieldEnd (cs : Checksum) (recs : List Bytes) (j : Nat) : Field → Nat
  | .length => startOf cs recs j + LengthSize
  | .sum => startOf cs recs j + cs.headerSize
  | .payload => startOf cs recs (j + 1)

/-- Byte `p` of the log lies in the field `φ` of record `j`. -/
def InField (cs : Checksum) (recs : List Bytes) (j : Nat) (φ : Field) (p : Nat) : Prop :=
  j < recs.length ∧ fieldStart cs recs j φ ≤ p ∧ p < fieldEnd cs recs j φ

/-- A record starts with its header. -/
theorem startOf_succ_ge (cs : Checksum) (hj : j < recs.length) :
    startOf cs recs j + cs.headerSize ≤ startOf cs recs (j + 1) := by
  rw [startOf_succ (List.getElem?_eq_getElem hj)]
  omega

theorem startOf_le_fieldStart (cs : Checksum) (recs : List Bytes) (j : Nat) (φ : Field) :
    startOf cs recs j ≤ fieldStart cs recs j φ := by
  cases φ <;> simp only [fieldStart] <;> omega

theorem fieldEnd_le (cs : Checksum) (hj : j < recs.length) (φ : Field) :
    fieldEnd cs recs j φ ≤ startOf cs recs (j + 1) := by
  have hsucc := startOf_succ_ge cs hj
  have hheader : LengthSize ≤ cs.headerSize := Nat.le_add_right _ _
  cases φ <;> simp only [fieldEnd] <;> omega

/-- A byte lies in one field of one record. -/
theorem InField.unique {φ ψ : Field} (h : InField cs recs j φ p) (h' : InField cs recs k ψ p) :
    j = k ∧ φ = ψ := by
  obtain ⟨hj, hstart, hend⟩ := h
  obtain ⟨hk, hstart', hend'⟩ := h'
  have hle := fieldEnd_le cs hj φ
  have hle' := fieldEnd_le cs hk ψ
  have hge := startOf_le_fieldStart cs recs j φ
  have hge' := startOf_le_fieldStart cs recs k ψ
  -- the fields of two records lie apart, and so do those of one
  rcases Nat.lt_trichotomy j k with hlt | rfl | hgt
  · have hmono : startOf cs recs (j + 1) ≤ startOf cs recs k := startOf_mono hlt
    omega
  · refine ⟨rfl, ?_⟩
    have hheader : LengthSize ≤ cs.headerSize := Nat.le_add_right _ _
    cases φ <;> cases ψ <;> simp only [fieldStart, fieldEnd] at hstart hend hstart' hend' <;>
      first | rfl | omega
  · have hmono : startOf cs recs (k + 1) ≤ startOf cs recs j := startOf_mono hgt
    omega

/-- Every byte of the log lies in some field. -/
theorem exists_inField (hp : p < (encodeAll cs recs).length) : ∃ j φ, InField cs recs j φ p := by
  -- the last record that starts at or before the byte
  obtain ⟨j, hj, hstart, hend⟩ : ∃ j, j < recs.length ∧ startOf cs recs j ≤ p ∧
      p < startOf cs recs (j + 1) := by
    rw [← startOf_length] at hp
    generalize hn : recs.length = n at hp
    have hle : n ≤ recs.length := hn.ge
    clear hn
    -- the end moves back record by record until the byte is behind a start
    induction n with
    | zero => rw [startOf_zero] at hp; omega
    | succ n ih =>
      by_cases hlt : p < startOf cs recs n
      · obtain ⟨j, hj, h⟩ := ih hlt (by omega)
        exact ⟨j, by omega, h⟩
      · exact ⟨n, by omega, by omega, hp⟩
  by_cases h1 : p < startOf cs recs j + LengthSize
  · exact ⟨j, .length, hj, hstart, h1⟩
  · by_cases h2 : p < startOf cs recs j + cs.headerSize
    · exact ⟨j, .sum, hj, Nat.le_of_not_lt h1, h2⟩
    · exact ⟨j, .payload, hj, Nat.le_of_not_lt h2, hend⟩

/-! ## Fields the alteration does not touch -/

section Set

variable {b : UInt8} {d : Bytes}

theorem lengthBytes_set (hk : k < recs.length) (h : ¬InField cs recs k .length p)
    (file : Bytes) : slice (file.set p b) (startOf cs recs k) LengthSize =
      slice file (startOf cs recs k) LengthSize := by
  simp only [InField, fieldStart, fieldEnd, hk, true_and, not_and] at h
  exact slice_set b (by omega)

theorem sumAt_set (hk : k < recs.length) (h : ¬InField cs recs k .sum p) (file : Bytes) :
    sumAt cs (file.set p b) (startOf cs recs k) = sumAt cs file (startOf cs recs k) := by
  simp only [InField, fieldStart, fieldEnd, hk, true_and, not_and, Checksum.headerSize] at h
  exact slice_set b (by omega)

theorem payload_set (hd : recs[k]? = some d) (h : ¬InField cs recs k .payload p)
    (file : Bytes) : slice (file.set p b) (startOf cs recs k + cs.headerSize) d.length =
      slice file (startOf cs recs k + cs.headerSize) d.length := by
  have hk := (List.getElem?_eq_some_iff.mp hd).1
  simp only [InField, fieldStart, fieldEnd, hk, true_and, not_and, startOf_succ hd] at h
  exact slice_set b (by omega)

/-- An untouched record is still framed. -/
theorem framedAt_set (hd : recs[k]? = some d) (hmax : d.length ≤ MaxRecordSize)
    (h : ∀ φ, ¬InField cs recs k φ p) :
    FramedAt cs ((encodeAll cs recs).set p b) (startOf cs recs k) d := by
  have hk := (List.getElem?_eq_some_iff.mp hd).1
  have hf := framedAt_log cs hd hmax
  have hbytes := lengthBytes_set (b := b) hk (h .length) (encodeAll cs recs)
  have hlen : lengthAt ((encodeAll cs recs).set p b) (startOf cs recs k) = d.length := by
    rw [lengthAt, hbytes]
    exact hf.length
  have hpayload := hf.payload
  rw [payloadAt, hf.length] at hpayload
  -- no field of the record has the byte, so all of it reads as before
  exact
    { lengthBytes := hbytes.trans hf.lengthBytes
      length := hlen
      sum := (sumAt_set hk (h .sum) _).trans hf.sum
      payload := by rw [payloadAt, hlen, payload_set hd (h .payload), hpayload]
      fits := by rw [List.length_set]; exact hf.fits }

end Set

/-! ## What a read can return -/

/-- The checksum notices the alteration of any single record: if what the reader takes for
    the length and the payload of record `k` is not what was written, the sums differ. -/
def Detects (cs : Checksum) (recs : List Bytes) (file : Bytes) : Prop :=
  ∀ k, ∀ h : k < recs.length,
    slice file (startOf cs recs k) LengthSize ++ payloadAt cs file (startOf cs recs k) ≠
        beBytes LengthSize recs[k].length ++ recs[k] →
      cs.compute (slice file (startOf cs recs k) LengthSize ++
          payloadAt cs file (startOf cs recs k)) ≠
        cs.compute (beBytes LengthSize recs[k].length ++ recs[k])

instance (cs : Checksum) (recs : List Bytes) (file : Bytes) :
    Decidable (Detects cs recs file) :=
  inferInstanceAs (Decidable (∀ k, ∀ _ : k < recs.length, _))

/-- At the true position of a record with one altered byte, the reader returns what was
    written or fails. -/
theorem readLoop_altered {b : UInt8} {fuel : Nat} {d d' : Bytes} (hd : recs[o]? = some d)
    (hmax : d.length ≤ MaxRecordSize) (hdetect : Detects cs recs ((encodeAll cs recs).set p b))
    (h : readLoop cs ((encodeAll cs recs).set p b) o (fuel + 1) o (startOf cs recs o) = .ok d') :
    d' = d := by
  obtain ⟨⟨-, -, hsum⟩, hpayload⟩ := (readLoop_target_iff ..).mp h
  obtain ⟨ho, rfl⟩ := List.getElem?_eq_some_iff.mp hd
  by_cases hsame : slice ((encodeAll cs recs).set p b) (startOf cs recs o) LengthSize ++
      payloadAt cs ((encodeAll cs recs).set p b) (startOf cs recs o) =
        beBytes LengthSize recs[o].length ++ recs[o]
  · -- the same bytes, so the same payload behind the same length field
    have hlen : (slice ((encodeAll cs recs).set p b) (startOf cs recs o) LengthSize).length =
        (beBytes LengthSize recs[o].length).length := by
      have hnext := startOf_succ_ge cs ho
      have hin := startOf_le cs recs (o + 1)
      rw [beBytes_length, slice_length_of_le]
      rw [List.length_set]
      simp only [Checksum.headerSize] at hnext
      omega
    rw [← hpayload]
    exact (List.append_inj hsame hlen).2
  · -- other bytes have another sum, so the stored sum must be the altered part
    have hne := hdetect o ho hsame
    rw [hsum] at hne
    have hf := framedAt_log cs hd hmax
    have hin : InField cs recs o .sum p := by
      by_contra hnot
      rw [sumAt_set ho hnot, hf.sum] at hne
      exact hne rfl
    refine absurd ?_ hsame
    have hlength := lengthBytes_set (b := b) ho
      (fun h => Field.noConfusion (hin.unique h).2) (encodeAll cs recs)
    have hpay := payload_set (b := b) hd
      (fun h => Field.noConfusion (hin.unique h).2) (encodeAll cs recs)
    have hold := hf.payload
    rw [payloadAt, hf.length] at hold
    rw [payloadAt, lengthAt, hlength, hf.lengthBytes]
    have hvalue := hf.length
    rw [lengthAt, hf.lengthBytes] at hvalue
    rw [hvalue, hpay, hold]

/-- **One altered byte is not served as valid data** unless it lies in the length field of
    a skipped record. -/
theorem readAt_altered {cps : List Nat} {s : InMemoryStore} {b : UInt8} {φ : Field}
    {d d' : Bytes} (hs : Indexes cs recs cps s) (hrecs : ∀ r ∈ recs, r.length ≤ MaxRecordSize)
    (hd : recs[o]? = some d) (hp : InField cs recs j φ p)
    (hsafe : ¬(φ = .length ∧ Skipped cps o j))
    (hdetect : Detects cs recs ((encodeAll cs recs).set p b))
    (h : readAt cs ((encodeAll cs recs).set p b) s o = .ok d') : d' = d := by
  have ho := (List.getElem?_eq_some_iff.mp hd).1
  obtain ⟨fuel, hread⟩ := readAt_arrives ((encodeAll cs recs).set p b) hs hrecs ho
    (by rw [List.length_set]) fun k e hk he => by
      -- the length field of a skipped record is untouched
      have hnot : ¬InField cs recs k .length p := fun hin => by
        obtain ⟨rfl, rfl⟩ := hp.unique hin
        exact hsafe ⟨rfl, hk⟩
      have hf := framedAt_log cs he (hrecs e (List.mem_of_getElem? he))
      rw [lengthAt, lengthBytes_set (List.getElem?_eq_some_iff.mp he).1 hnot]
      exact hf.length
  exact readLoop_altered hd (hrecs d (List.mem_of_getElem? hd)) hdetect (hread ▸ h)

/-! ## A walk behind an altered length -/

/-- From `pos` on the length fields lead past `n` records to an intact one with another
    payload than `d`. -/
def Misleads (cs : Checksum) (file : Bytes) (pos n : Nat) (d : Bytes) : Prop :=
  Served cs file pos n ∧ payloadAt cs file (framePos cs file pos n) ≠ d

instance (cs : Checksum) (file : Bytes) (pos n : Nat) (d : Bytes) :
    Decidable (Misleads cs file pos n d) :=
  inferInstanceAs (Decidable (_ ∧ _))

/-- The records before the altered one are framed as written. -/
theorem lengthAt_before {b : UInt8} {φ : Field} {e : Bytes}
    (hrecs : ∀ r ∈ recs, r.length ≤ MaxRecordSize) (hp : InField cs recs j φ p) (hk : k < j)
    (he : recs[k]? = some e) :
    lengthAt ((encodeAll cs recs).set p b) (startOf cs recs k) = e.length := by
  have hnot : ¬InField cs recs k .length p := fun hin => by
    have := (hp.unique hin).1
    omega
  have hf := framedAt_log cs he (hrecs e (List.mem_of_getElem? he))
  rw [lengthAt, lengthBytes_set (List.getElem?_eq_some_iff.mp he).1 hnot]
  exact hf.length

/-- **What is read behind an altered record** is decided by the walk from that record on. -/
theorem readAt_behind_iff {cps : List Nat} {s : InMemoryStore} {b : UInt8} {φ : Field}
    {d' : Bytes} (hs : Indexes cs recs cps s) (hrecs : ∀ r ∈ recs, r.length ≤ MaxRecordSize)
    (ho : o < recs.length) (hp : InField cs recs j φ p) (hskip : Skipped cps o j) :
    readAt cs ((encodeAll cs recs).set p b) s o = .ok d' ↔
      Served cs ((encodeAll cs recs).set p b) (startOf cs recs j) (o - j) ∧
        payloadAt cs ((encodeAll cs recs).set p b)
          (framePos cs ((encodeAll cs recs).set p b) (startOf cs recs j) (o - j)) = d' := by
  set file := (encodeAll cs recs).set p b with hfile
  obtain ⟨f, -, hfo, hskips, hread⟩ := readAt_eq_readLoop hs o
  -- the walk starts at a checkpoint `f` at or before the altered record
  obtain ⟨hfj, hjo⟩ := (hskips j).mp hskip
  have hlen : file.length = (encodeAll cs recs).length := List.length_set
  have hcount := length_le_encodeAll cs recs
  -- up to the altered record the walk goes from record to record
  have hpos : ∀ i, f + i ≤ j → framePos cs file (startOf cs recs f) i = startOf cs recs (f + i) :=
    fun i hi => framePos_eq_startOf (by omega) fun k e _ hk he =>
      lengthAt_before hrecs hp (by omega) he
  -- and none of the records on the way stops it
  have hpass : ∀ i < j - f, Passable cs file (framePos cs file (startOf cs recs f) i) := by
    intro i hi
    have he : recs[f + i]? = some recs[f + i] := List.getElem?_eq_getElem (by omega)
    have hnext := startOf_succ_ge cs (show f + i < recs.length by omega)
    have hin := startOf_le cs recs (f + i + 1)
    rw [hpos i (by omega), Passable, lengthAt_before hrecs hp (by omega) he]
    exact ⟨by omega, hrecs _ (List.mem_of_getElem? he)⟩
  have hiff := readLoop_eq_ok_iff cs file (o - f) (file.length + 1) f (startOf cs recs f)
    (by omega) d'
  -- from the altered record on, the file decides
  have hsplit : o - f = j - f + (o - j) := by omega
  have hj : f + (j - f) = j := by omega
  rw [Nat.add_sub_cancel' hfo, hsplit, served_add hpass, framePos_add, hpos _ hj.le, hj] at hiff
  rw [hread]
  exact hiff

/-! ## A walk that is led astray

Records of one byte each, so that record `k` starts at byte `6 * k`.  The length of
record `j` is altered from 1 to 7: it now covers record `j + 1`, and the walk arrives one
record further than it counts. -/

/-- Zeros up to offset `o`, then a one, then `n` zeros. -/
def zerosAndOne (o n : Nat) : List Bytes :=
  List.replicate (o + 1) [0] ++ [1] :: List.replicate n [0]

section Astray

variable {n : Nat}

theorem zerosAndOne_length (o n : Nat) : (zerosAndOne o n).length = o + 2 + n := by
  simp only [zerosAndOne, List.length_append, List.length_replicate, List.length_cons]
  omega

theorem zerosAndOne_zero (hk : k ≤ o) : (zerosAndOne o n)[k]? = some [0] := by
  rw [zerosAndOne, List.getElem?_append_left (by rw [List.length_replicate]; omega),
    List.getElem?_replicate, if_pos (by omega)]

theorem zerosAndOne_one (o n : Nat) : (zerosAndOne o n)[o + 1]? = some [1] := by
  rw [zerosAndOne, List.getElem?_append_right (by rw [List.length_replicate]),
    List.length_replicate, Nat.sub_self]
  rfl

theorem length_of_mem_zerosAndOne {r : Bytes} (hr : r ∈ zerosAndOne o n) : r.length = 1 := by
  simp only [zerosAndOne, List.mem_append, List.mem_cons, List.mem_replicate] at hr
  rcases hr with ⟨-, rfl⟩ | rfl | ⟨-, rfl⟩ <;> rfl

/-- Records of one byte take six. -/
theorem startOf_eq_mul (hrecs : ∀ r ∈ recs, r.length = 1) (hk : k ≤ recs.length) :
    startOf byteSum recs k = 6 * k := by
  induction k with
  | zero => exact startOf_zero _ _
  | succ k ih =>
    have hd : recs[k]? = some recs[k] := List.getElem?_eq_getElem (by omega)
    have hheader : byteSum.headerSize = 5 := rfl
    rw [startOf_succ hd, ih (by omega), hrecs _ (List.mem_of_getElem? hd), hheader]
    omega

/-- The log with the length of record `j` altered. -/
def astray (o n j : Nat) : Bytes := (encodeAll byteSum (zerosAndOne o n)).set (6 * j + 3) 7

theorem startOf_zerosAndOne (hk : k ≤ o + 2 + n) :
    startOf byteSum (zerosAndOne o n) k = 6 * k :=
  startOf_eq_mul (fun _ => length_of_mem_zerosAndOne) (by rwa [zerosAndOne_length])

theorem inField_astray (hj : j ≤ o) :
    InField byteSum (zerosAndOne o n) j .length (6 * j + 3) := by
  refine ⟨by rw [zerosAndOne_length]; omega, ?_⟩
  simp only [fieldStart, fieldEnd, startOf_zerosAndOne (show j ≤ o + 2 + n by omega), LengthSize]
  omega

/-- The other records are as written. -/
theorem framedAt_astray (hj : j ≤ o) (hk : k ≠ j) {d : Bytes}
    (hd : (zerosAndOne o n)[k]? = some d) : FramedAt byteSum (astray o n j) (6 * k) d := by
  have hlt := (List.getElem?_eq_some_iff.mp hd).1
  rw [zerosAndOne_length] at hlt
  rw [← startOf_zerosAndOne (n := n) (by omega : k ≤ o + 2 + n)]
  refine framedAt_set hd ?_ fun φ hin => hk (hin.unique (inField_astray hj)).1
  rw [length_of_mem_zerosAndOne (List.mem_of_getElem? hd)]
  decide

theorem lengthAt_astray (hj : j ≤ o) (hk : k < o + 2 + n) (hkj : k ≠ j) :
    lengthAt (astray o n j) (6 * k) = 1 := by
  rw [← zerosAndOne_length] at hk
  have hd := List.getElem?_eq_getElem hk
  rw [(framedAt_astray hj hkj hd).length, length_of_mem_zerosAndOne (List.mem_of_getElem? hd)]

theorem lengthBytes_astray (hj : j ≤ o) :
    slice (astray o n j) (6 * j) LengthSize = [0, 0, 0, 7] := by
  have hf := framedAt_log byteSum (zerosAndOne_zero (n := n) hj) (by decide)
  rw [startOf_zerosAndOne (by omega)] at hf
  rw [astray, slice_set_inside _ _ _ (by omega), hf.lengthBytes, Nat.add_sub_cancel_left]
  rfl

/-- What the altered length makes the payload of record `j`. -/
theorem payload_astray (hj : j < o) :
    slice (astray o n j) (6 * j + 5) 7 = [0, 0, 0, 0, 1, 1, 0] := by
  have hzero : encode byteSum [0] = [0, 0, 0, 1, 1, 0] := rfl
  have hsplit := encodeAll_split byteSum (zerosAndOne_zero (n := n) (by omega : j ≤ o))
  obtain ⟨hlt, hj1⟩ := List.getElem?_eq_some_iff.mp (zerosAndOne_zero (n := n) hj)
  have hnext := List.drop_eq_getElem_cons hlt
  have hlen : (encodeAll byteSum ((zerosAndOne o n).take j)).length = 6 * j :=
    startOf_zerosAndOne (by omega)
  rw [astray, slice_set _ (by omega), hsplit, hnext, hj1, encodeAll_cons, hzero, ← hlen,
    slice_append_right]
  rfl

theorem lengthAt_astray_self (hj : j ≤ o) : lengthAt (astray o n j) (6 * j) = 7 := by
  rw [lengthAt, lengthBytes_astray hj]
  rfl

/-- The walk is one record ahead of its count once it has passed record `j`. -/
theorem framePos_astray {f i : Nat} (hj : j < o) (hf : f ≤ j) (hi : f + i ≤ o) :
    framePos byteSum (astray o n j) (6 * f) i =
      if f + i ≤ j then 6 * (f + i) else 6 * (f + i + 1) := by
  have hheader : byteSum.headerSize = 5 := rfl
  induction i with
  | zero => exact (if_pos hf).symm
  | succ i ih =>
    rw [framePos_succ, ih (by omega), hheader]
    -- before the altered record, at it, and behind it, where the walk is one record ahead
    rcases Nat.lt_trichotomy (f + i) j with hlt | heq | hgt
    · rw [if_pos (by omega), if_pos (by omega), lengthAt_astray hj.le (by omega) (by omega)]
      omega
    · rw [if_pos (by omega), if_neg (by omega), heq, lengthAt_astray_self hj.le]
      omega
    · rw [if_neg (by omega), if_neg (by omega), lengthAt_astray hj.le (by omega) (by omega)]
      omega

/-- The read of offset `o` returns the record behind it. -/
theorem readAt_astray {cps : List Nat} {s : InMemoryStore}
    (hs : Indexes byteSum (zerosAndOne o n) cps s) (h : Skipped cps o j) :
    readAt byteSum (astray o n j) s o = .ok [1] := by
  obtain ⟨f, -, hfo, hskip, hread⟩ := readAt_eq_readLoop hs o
  obtain ⟨hfj, hj⟩ := (hskip j).mp h
  have hheader : byteSum.headerSize = 5 := rfl
  have hlen : (astray o n j).length = 6 * (o + 2 + n) := by
    rw [astray, List.length_set, ← startOf_length, startOf_zerosAndOne (by rw [zerosAndOne_length]),
      zerosAndOne_length]
  -- the walk passes all it meets and ends one record too far
  have hwalk := readLoop_walk byteSum (astray o n j) (o - f) (6 * (o + 2 + n) - (o - f) + 1) f
    (6 * f) (show f + (o - f) ≤ o by omega) fun i hi => by
      rw [framePos_astray hj hfj (by omega), hlen, hheader]
      have hmax : MaxRecordSize = 64 * 1024 * 1024 := rfl
      split_ifs with hij
      · refine ⟨by omega, ?_⟩
        rcases Nat.eq_or_lt_of_le hij with heq | hlt
        · rw [heq, lengthAt_astray_self hj.le]
          omega
        · rw [lengthAt_astray hj.le (by omega) (by omega)]
          omega
      · rw [lengthAt_astray hj.le (by omega) (by omega)]
        omega
  have hfo' : f + (o - f) = o := by omega
  have hfuel : 6 * (o + 2 + n) - (o - f) + 1 + (o - f) = 6 * (o + 2 + n) + 1 := by omega
  rw [framePos_astray hj hfj (by omega), if_neg (by omega), hfo', hfuel] at hwalk
  rw [hread, startOf_zerosAndOne (by omega), hlen, hwalk]
  exact readLoop_target (framedAt_astray hj.le (by omega) (zerosAndOne_one o n)) (by decide)

/-- The checksum of record `j` notices the alteration, if anyone looks at it. -/
theorem detects_astray (hj : j < o) :
    Detects byteSum (zerosAndOne o n) (astray o n j) := by
  intro k hk hne
  have hk' := hk
  rw [zerosAndOne_length] at hk'
  rw [startOf_zerosAndOne (by omega)] at hne ⊢
  -- only the altered record reads differently, and its sum shows it
  by_cases hkj : k = j
  · subst hkj
    have hd := (List.getElem?_eq_some_iff.mp (zerosAndOne_zero (n := n) hj.le)).2
    have hheader : byteSum.headerSize = 5 := rfl
    rw [hd, payloadAt, lengthAt_astray_self hj.le, hheader, lengthBytes_astray hj.le,
      payload_astray hj]
    decide
  · have hf := framedAt_astray (n := n) hj.le hkj (List.getElem?_eq_getElem hk)
    rw [hf.lengthBytes, hf.payload] at hne
    exact absurd rfl hne

end Astray

/-! ## When corruption is never served -/

/-- The checkpoints `cps` of a log, in memory and on disk. -/
def storeOf (cs : Checksum) (recs : List Bytes) (cps : List Nat) : InMemoryStore :=
  { offsets := cps
    positions := cps.map fun k => (startOf cs recs k : Int)
    n := 0
    nthIndex := NthIndex
    indexFile := indexBytes cs recs cps }

/-- Whatever the checkpoints are, the length field of a skipped record is not safe in every
    log: there is one in which another record is returned. -/
theorem exists_misled {cps : List Nat} (hasc : cps.Pairwise (· < ·)) (hskip : Skipped cps o j) :
    ∃ recs s p b d d', Indexes byteSum recs cps s ∧ recs[o]? = some d ∧
      InField byteSum recs j .length p ∧
      Detects byteSum recs ((encodeAll byteSum recs).set p b) ∧
      readAt byteSum ((encodeAll byteSum recs).set p b) s o = .ok d' ∧ d' ≠ d := by
  -- a log with a record for every checkpoint
  have hs : Indexes byteSum (zerosAndOne o cps.sum) cps
      (storeOf byteSum (zerosAndOne o cps.sum) cps) :=
    ⟨rfl, rfl, rfl, hasc, fun k hk => by
      have := List.le_sum_of_mem hk
      rw [zerosAndOne_length]
      omega⟩
  exact ⟨_, _, 6 * j + 3, 7, [0], [1], hs, zerosAndOne_zero le_rfl, inField_astray hskip.1.le,
    detects_astray hskip.1, readAt_astray hs hskip, by decide⟩

/-- **Which alterations are safe.**  An altered byte lies in a field of a record.  A read of
    offset `o` returns what was written or an error exactly if that field is not the length
    of a record skipped on the way to `o`, or the walk from that record on does not arrive
    at an intact record with another payload: a length on the way is too large, the walk
    runs out of the file, or the checksum where it arrives does not match. -/
theorem altered_safe_iff {cps : List Nat} {s : InMemoryStore} {b : UInt8} {d : Bytes}
    (hs : Indexes cs recs cps s) (hrecs : ∀ r ∈ recs, r.length ≤ MaxRecordSize)
    (hd : recs[o]? = some d) (hp : p < (encodeAll cs recs).length)
    (hdetect : Detects cs recs ((encodeAll cs recs).set p b)) :
    (∃ j φ, InField cs recs j φ p) ∧ ∀ j φ, InField cs recs j φ p →
      ((∀ d', readAt cs ((encodeAll cs recs).set p b) s o = .ok d' → d' = d) ↔
        ¬(φ = .length ∧ Skipped cps o j ∧
          Misleads cs ((encodeAll cs recs).set p b) (startOf cs recs j) (o - j) d)) := by
  refine ⟨exists_inField hp, fun j φ hin => ?_⟩
  by_cases hsafe : φ = .length ∧ Skipped cps o j
  · -- the walk is decided by the altered length
    have ho := (List.getElem?_eq_some_iff.mp hd).1
    obtain ⟨hlength, hskip⟩ := hsafe
    constructor
    · rintro hall ⟨-, -, hserved, hne⟩
      exact hne (hall _ ((readAt_behind_iff hs hrecs ho hin hskip).mpr ⟨hserved, rfl⟩))
    · intro hnot d' hread
      obtain ⟨hserved, hpayload⟩ := (readAt_behind_iff hs hrecs ho hin hskip).mp hread
      by_contra hne
      exact hnot ⟨hlength, hskip, hserved, hpayload ▸ hne⟩
  · -- the walk arrives at the record, and its checksum is verified
    refine iff_of_true (fun d' hread => readAt_altered hs hrecs hd hin hsafe hdetect hread) ?_
    rintro ⟨hlength, hskip, -⟩
    exact hsafe ⟨hlength, hskip⟩

/-- An altered payload of a skipped record does not matter, and an altered length above the
    limit is noticed. -/
theorem altered_safe_iff_payload :
    (∃ d', readAt byteSum ((encodeAll byteSum [[1], [2]]).set 5 9)
        (newInMemoryStore [] NthIndex) 1 = .ok d' ∧ d' = [2]) ∧
      ∀ d', readAt byteSum ((encodeAll byteSum [[1], [2], [3]]).set 0 200)
        (newInMemoryStore [] NthIndex) 1 = .ok d' → d' = [2] := by
  have hindexes : ∀ recs, Indexes byteSum recs [] (newInMemoryStore [] NthIndex) :=
    fun _ => ⟨rfl, rfl, rfl, List.Pairwise.nil, by simp⟩
  constructor
  · -- the payload of a skipped record is not looked at
    have hsafe := altered_safe_iff (b := 9) (hindexes [[1], [2]]) (by decide)
      (show [[1], [2]][1]? = some [2] from rfl) (show 5 < _ by decide) (by decide)
    exact ⟨[2], by decide, (hsafe.2 0 .payload (by unfold InField; decide)).mpr (by decide) [2]
      (by decide)⟩
  · -- the altered length stops the walk, which is no answer at all
    have hsafe := altered_safe_iff (b := 200) (hindexes [[1], [2], [3]]) (by decide)
      (show [[1], [2], [3]][1]? = some [2] from rfl) (show 0 < _ by decide) (by decide)
    exact (hsafe.2 0 .length (by unfold InField; decide)).mpr (by decide)

/-- Three records without a checkpoint; the length of the first is altered so that it
    covers the second.  Reading offset 1 returns the payload of offset 2. -/
theorem altered_length_served :
    Indexes byteSum [[1], [2], [3]] [] (newInMemoryStore [] NthIndex) ∧
      InField byteSum [[1], [2], [3]] 0 .length 3 ∧
      Detects byteSum [[1], [2], [3]] ((encodeAll byteSum [[1], [2], [3]]).set 3 7) ∧
      readAt byteSum (encodeAll byteSum [[1], [2], [3]]) (newInMemoryStore [] NthIndex) 1 =
        .ok [2] ∧
      readAt byteSum ((encodeAll byteSum [[1], [2], [3]]).set 3 7)
        (newInMemoryStore [] NthIndex) 1 = .ok [3] :=
  ⟨⟨rfl, rfl, rfl, List.Pairwise.nil, by simp⟩, by unfold InField; decide, by decide, by decide,
    by decide⟩

end EventLog.Wal
