import EventLog.Wal.Corruption
import EventLog.Wal.Recovery

/-!
# Recovery from an altered byte

`recover` takes a length field that points past the end of the file for a torn append, and
truncates there.  An altered length can do the same to records that are complete.

Before the last checkpoint nothing is scanned, and behind it only length fields are read.
So the record count and the file survive an alteration unless it hits a length field that is
scanned.  If it does, the bytes from that record on decide: they have to divide into as many
frames as before, or run into a length that `recover` refuses.
-/

namespace EventLog.Wal

open EventLog.Lib

variable {cs : Checksum} {recs : List Bytes} {cps : List Nat} {p : Nat} {b : UInt8}

/-! ## Dividing bytes into frames -/

/-- The bytes divide into `n` frames, or into frames and a length no record has. -/
def Redivides (cs : Checksum) (bs : Bytes) (n : Nat) : Prop :=
  ∃ (fs : List Bytes) (rest : Bytes), (∀ f ∈ fs, IsFrame cs f) ∧ bs = fs.flatten ++ rest ∧
    ((rest = [] ∧ fs.length = n) ∨ Overlong cs rest)

theorem redivides_nil (cs : Checksum) : Redivides cs [] 0 :=
  ⟨[], [], by simp, rfl, .inl ⟨rfl, rfl⟩⟩

theorem IsFrame.lengthAt_append {f : Bytes} (hf : IsFrame cs f) (rest : Bytes) :
    lengthAt (f ++ rest) 0 = lengthAt f 0 :=
  lengthAt_append_left rest (by
    have h1 := lengthSize_le_headerSize cs
    have h2 := hf.2
    omega)

/-- The first frame is determined by the bytes. -/
theorem redivides_append {f : Bytes} (hf : IsFrame cs f) (rest : Bytes) (n : Nat) :
    Redivides cs (f ++ rest) (n + 1) ↔ Redivides cs rest n := by
  have hfield := hf.lengthAt_append rest
  constructor
  · rintro ⟨fs, rest', hfs, heq, hend⟩
    cases fs with
    | nil =>
      -- the frame would be the end
      obtain rfl : f ++ rest = rest' := heq
      rcases hend with ⟨-, hcount⟩ | ⟨-, hlong⟩
      · exact absurd hcount (by simp)
      · have := hf.1
        omega
    | cons g gs =>
      have hg := hfs g List.mem_cons_self
      rw [List.flatten_cons, List.append_assoc] at heq
      have hfield' := hg.lengthAt_append (gs.flatten ++ rest')
      rw [← heq] at hfield'
      obtain ⟨rfl, rfl⟩ := List.append_inj heq (by rw [hf.2, hg.2]; omega)
      refine ⟨gs, rest', fun h hh => hfs h (List.mem_cons_of_mem _ hh), rfl, hend.imp ?_ id⟩
      rintro ⟨hnil, hcount⟩
      exact ⟨hnil, Nat.succ.inj hcount⟩
  · rintro ⟨fs, rest', hfs, rfl, hend⟩
    refine ⟨f :: fs, rest', fun g hg => ?_, by rw [List.flatten_cons, List.append_assoc],
      hend.imp ?_ id⟩
    · rcases List.mem_cons.mp hg with rfl | hg
      · exact hf
      · exact hfs g hg
    · rintro ⟨hnil, hcount⟩
      exact ⟨hnil, by rw [List.length_cons, hcount]⟩

/-! ## What the scan makes of any bytes -/

/-- Opening keeps the file and the record count, or refuses with a `CorruptionError`. -/
def KeptOrRefused (file : Bytes) (n : Nat) : Except RecoverError WALWriter → Prop
  | .ok w => w.nextOffset = n ∧ w.size = file.length ∧ w.file = file
  | .error e => ∃ c, e = .corruption c

/-- Behind the start of the scan the frames decide. -/
theorem keptOrRefused_iff_redivides {file : Bytes} {s : InMemoryStore} {k n pos : Nat}
    (hstart : recoverStart cs file s.loadCheckpoints = (k, (pos : Int)))
    (hpos : pos ≤ file.length) (hk : k ≤ n) (hsize : n ≤ file.length ∧ file.length ≤ maxFileSize) :
    KeptOrRefused file n (newWalWriter cs file s) ↔ Redivides cs (file.drop pos) (n - k) := by
  have hfront : (file.take pos).length = pos := List.length_take_of_le hpos
  have hopen : ∀ (fs : List Bytes) (rest : Bytes), file.drop pos = fs.flatten ++ rest →
      file = file.take pos ++ (fs.flatten ++ rest) ∧
        recoverStart cs (file.take pos ++ (fs.flatten ++ rest)) s.loadCheckpoints =
          (k, ((file.take pos).length : Int)) := fun fs rest hdrop => by
    have hfile : file = file.take pos ++ (fs.flatten ++ rest) := by
      rw [← hdrop, List.take_append_drop]
    exact ⟨hfile, by rw [← hfile, hfront, hstart]⟩
  -- a frame has at least a byte, so the count stays below `2 ^ 64`
  have hoff : ∀ (fs : List Bytes) (rest : Bytes), (∀ f ∈ fs, IsFrame cs f) →
      file.drop pos = fs.flatten ++ rest → k + fs.length ≤ maxUint64 := fun fs rest hfs hdrop => by
    have hcount := length_le_flatten hfs
    have hlen := congrArg List.length hdrop
    rw [List.length_drop, List.length_append] at hlen
    unfold maxFileSize at hsize
    unfold maxUint64
    omega
  constructor
  · intro hkept
    obtain ⟨fs, rest, hfs, hdrop, hend⟩ := exists_frames cs (file.drop pos)
    refine ⟨fs, rest, hfs, hdrop, hend.imp (fun hunfinished => ?_) id⟩
    obtain ⟨hfile, hstart'⟩ := hopen fs rest hdrop
    rw [hfile, newWalWriter_unfinished hfs (hoff fs rest hfs hdrop) hunfinished hstart'] at hkept
    obtain ⟨hcount, hsize, -⟩ := hkept
    -- nothing was truncated
    simp only [List.length_append] at hsize hcount
    exact ⟨List.length_eq_zero_iff.mp (by omega), by omega⟩
  · rintro ⟨fs, rest, hfs, hdrop, hend⟩
    obtain ⟨hfile, hstart'⟩ := hopen fs rest hdrop
    rcases hend with ⟨rfl, hcount⟩ | hlong
    · rw [hfile, newWalWriter_unfinished hfs (hoff fs [] hfs hdrop) (unfinished_nil cs) hstart',
        List.append_nil]
      exact ⟨by show k + fs.length = n; omega, rfl, rfl⟩
    · rw [hfile, newWalWriter_overlong hfs (hoff fs rest hfs hdrop) hlong hstart']
      exact ⟨_, rfl⟩

/-! ## One altered byte -/

/-- A record whose length field is as written is a frame of the file. -/
theorem redivides_intact {file : Bytes} {j n : Nat} {d : Bytes}
    (hfile : file.length = (encodeAll cs recs).length) (hd : recs[j]? = some d)
    (hmax : d.length ≤ MaxRecordSize) (hlen : lengthAt file (startOf cs recs j) = d.length) :
    Redivides cs (file.drop (startOf cs recs j)) (n + 1) ↔
      Redivides cs (file.drop (startOf cs recs (j + 1))) n := by
  have hnext : startOf cs recs (j + 1) = _ := startOf_succ hd
  have hend := startOf_le cs recs (j + 1)
  -- the bytes of record `j`, as they are now
  set f := (file.drop (startOf cs recs j)).take (cs.headerSize + d.length) with hf
  have hsplit : file.drop (startOf cs recs j) = f ++ file.drop (startOf cs recs (j + 1)) := by
    rw [hnext, ← List.drop_drop, List.take_append_drop]
  have hflen : f.length = cs.headerSize + d.length :=
    List.length_take_of_le (by rw [List.length_drop]; omega)
  have hfield : lengthAt f 0 = d.length := by
    have hwidth := lengthSize_le_headerSize cs
    rw [← hlen, lengthAt, lengthAt, slice, slice, List.drop_zero, hf, List.take_take,
      Nat.min_eq_left (by omega)]
  rw [hsplit]
  exact redivides_append ⟨by omega, by omega⟩ _ n

/-- **The scan reaches the record with the altered length**, and past it everything is as it
    was. -/
theorem redivides_from {file : Bytes} {k j : Nat}
    (hfile : file.length = (encodeAll cs recs).length)
    (hrecs : ∀ r ∈ recs, r.length ≤ MaxRecordSize) (hkj : k ≤ j) (hj : j ≤ recs.length)
    (hlen : ∀ i d, k ≤ i → i < j → recs[i]? = some d →
      lengthAt file (startOf cs recs i) = d.length) :
    Redivides cs (file.drop (startOf cs recs k)) (recs.length - k) ↔
      Redivides cs (file.drop (startOf cs recs j)) (recs.length - j) := by
  induction j, hkj using Nat.le_induction with
  | base => exact Iff.rfl
  | succ j hkj ih =>
    have hd : recs[j]? = some recs[j] := List.getElem?_eq_getElem hj
    have hcount : recs.length - j = recs.length - (j + 1) + 1 := by omega
    rw [ih (by omega) fun i d hi hij => hlen i d hi (by omega), hcount]
    exact redivides_intact hfile hd (hrecs _ (List.mem_of_getElem? hd))
      (hlen j _ hkj (Nat.lt_succ_self j) hd)

/-- **When an altered byte costs no record.**  On a log with a true index, opening keeps the
    file and the record count or refuses exactly when the altered byte is not in the length
    field of a record that is scanned, or the bytes from that record on still divide into as
    many frames as before, or into frames and a length no record has. -/
theorem bitRot_harmless_iff (cs : Checksum) (recs : List Bytes) (cps : List Nat)
    (hrecs : ∀ r ∈ recs, r.length ≤ MaxRecordSize)
    (hsize : (encodeAll cs recs).length ≤ maxFileSize) (hasc : cps.Pairwise (· < ·))
    (hlt : ∀ k ∈ cps, k < recs.length) (p : Nat) (b : UInt8) :
    KeptOrRefused ((encodeAll cs recs).set p b) recs.length
        (newWalWriter cs ((encodeAll cs recs).set p b)
          (newInMemoryStore (indexBytes cs recs cps) NthIndex)) ↔
      ∀ j, (∀ k ∈ cps, k ≤ j) → InField cs recs j .length p →
        Redivides cs (((encodeAll cs recs).set p b).drop (startOf cs recs j))
          (recs.length - j) := by
  have hload := Indexes.load_all hasc hlt hsize NthIndex
  obtain ⟨k, hk, -, hlast, hstart⟩ := recoverStart_last hload hsize
  set file := (encodeAll cs recs).set p b with hfiledef
  have hfile : file.length = (encodeAll cs recs).length := List.length_set
  -- a record is scanned exactly if no checkpoint lies behind it
  have hscanned : ∀ j, k ≤ j ↔ ∀ c ∈ cps, c ≤ j := fun j => (hlast j).trans
    ⟨fun h c hc => h c hc (le_maxUint64 hsize hlt hc), fun h c hc _ => h c hc⟩
  have hlen : ∀ i d, ¬InField cs recs i .length p → recs[i]? = some d →
      lengthAt file (startOf cs recs i) = d.length := fun i d hnot hd => by
    have hframed := framedAt_log cs hd (hrecs d (List.mem_of_getElem? hd))
    rw [lengthAt, hfiledef, lengthBytes_set (List.getElem?_eq_some_iff.mp hd).1 hnot]
    exact hframed.length
  rw [keptOrRefused_iff_redivides
    (hstart file fun c _ => by rw [hfile]; exact startOf_le cs recs (c + 1))
    (by rw [hfile]; exact startOf_le cs recs k) hk
    (by rw [hfile]; exact ⟨length_le_encodeAll cs recs, hsize⟩)]
  by_cases hin : ∃ j, k ≤ j ∧ InField cs recs j .length p
  · obtain ⟨j, hkj, hp⟩ := hin
    rw [redivides_from hfile hrecs hkj hp.1.le fun i d _ hij hd =>
      hlen i d (fun hi => by have := (hi.unique hp).1; omega) hd]
    refine ⟨fun h j' _ hp' => ?_, fun h => h j ((hscanned j).mp hkj) hp⟩
    obtain ⟨rfl, -⟩ := hp.unique hp'
    exact h
  · -- every length field that is scanned is as written
    rw [redivides_from hfile hrecs hk le_rfl fun i d hki _ hd =>
      hlen i d (fun hi => hin ⟨i, hki, hi⟩) hd]
    refine iff_of_true ?_ fun j hj hp => absurd ⟨j, (hscanned j).mpr hj, hp⟩ hin
    rw [startOf_length, ← hfile, List.drop_length, Nat.sub_self]
    exact redivides_nil cs

/-- An altered payload changes nothing. -/
theorem bitRot_harmless_iff_payload :
    KeptOrRefused ((encodeAll byteSum [[1], [2]]).set 5 9) 2
      (newWalWriter byteSum ((encodeAll byteSum [[1], [2]]).set 5 9)
        (newInMemoryStore (indexBytes byteSum [[1], [2]] []) NthIndex)) := by
  refine (bitRot_harmless_iff byteSum [[1], [2]] [] (by decide) (by decide) List.Pairwise.nil
    (by simp) 5 9).mpr fun j _ hp => ?_
  -- byte 5 is the payload of the first record
  have hpayload : InField byteSum [[1], [2]] 0 .payload 5 := by unfold InField; decide
  exact Field.noConfusion (hpayload.unique hp).2

/-- The length of the first of two records is altered so that it points past the end of the
    file: both are truncated away, and the log is empty. -/
theorem bitRot_truncates : ∃ w,
    InField byteSum [[1], [2]] 0 .length 3 ∧
      newWalWriter byteSum ((encodeAll byteSum [[1], [2]]).set 3 9)
        (newInMemoryStore (indexBytes byteSum [[1], [2]] []) NthIndex) = .ok w ∧
      w.nextOffset = 0 ∧ w.size = 0 ∧ w.file = [] ∧
      (encodeAll byteSum [[1], [2]]).length = 12 :=
  ⟨_, by unfold InField; decide, rfl, rfl, rfl, rfl, rfl⟩

end EventLog.Wal
