import EventLog.Wal.Framing

/-!
# Recovery

Opening a log keeps exactly the whole records of its file and truncates a torn tail,
also when it starts from a checkpoint, and a cut index file only costs scanning.
-/

namespace EventLog.Wal

open EventLog.Lib

variable {cs : Checksum} {recs : List Bytes} {tail : Bytes} {cps : List Nat}

/-! ## Where the scan starts -/

/-- The scan starts at the last checkpoint of a file that holds every checkpointed record,
    whatever its bytes are. -/
theorem recoverStart_last {s : InMemoryStore} (hs : Indexes cs recs cps s)
    (hsize : (encodeAll cs recs).length ≤ maxFileSize) :
    ∃ k, k ≤ recs.length ∧ (k = 0 ∨ k ∈ cps) ∧
      (∀ j, k ≤ j ↔ ∀ c ∈ cps, c ≤ maxUint64 → c ≤ j) ∧
      ∀ file : Bytes, (∀ c ∈ cps, startOf cs recs (c + 1) ≤ file.length) →
        recoverStart cs file s = (k, (startOf cs recs k : Int)) := by
  unfold recoverStart
  rcases hs.floor maxUint64 with ⟨hnone, habove⟩ | ⟨k, hk, hmax, hgreatest, hsome⟩
  · rw [hnone]
    refine ⟨0, Nat.zero_le _, .inl rfl, fun j => iff_of_true (Nat.zero_le j) fun c hc hle => ?_,
      fun _ _ => rfl⟩
    have := habove c hc
    omega
  -- a true checkpoint names a whole record, so its header fits
  · have hlt := hs.lt k hk
    have hnext : startOf cs recs (k + 1) = _ := startOf_succ (List.getElem?_eq_getElem hlt)
    rw [hsome]
    refine ⟨k, Nat.le_of_lt hlt, .inr hk, fun j => ⟨fun hkj c hc hle => ?_,
      fun hall => hall k hk hmax⟩, fun file hlen => ?_⟩
    · exact Nat.le_trans (hgreatest c hc hle) hkj
    · have := hlen k hk
      have := startOf_le cs recs (k + 1)
      simp only
      rw [addInt64_eq (by omega) (by omega), if_pos (by omega)]

/-- Offsets of a file that can exist fit into 64 bits. -/
theorem length_le_maxUint64 (hsize : (encodeAll cs recs).length ≤ maxFileSize) :
    recs.length ≤ maxUint64 := by
  have := length_le_encodeAll cs recs
  unfold maxFileSize at hsize
  unfold maxUint64
  omega

theorem le_maxUint64 (hsize : (encodeAll cs recs).length ≤ maxFileSize)
    (hlt : ∀ k ∈ cps, k < recs.length) {c : Nat} (hc : c ∈ cps) : c ≤ maxUint64 :=
  (hlt c hc).le.trans (length_le_maxUint64 hsize)

/-- The scan starts at a record. -/
theorem recoverStart_eq (tail : Bytes) {s : InMemoryStore} (hs : Indexes cs recs cps s)
    (hsize : (encodeAll cs recs).length ≤ maxFileSize) :
    ∃ k, k ≤ recs.length ∧
      recoverStart cs (encodeAll cs recs ++ tail) s = (k, (startOf cs recs k : Int)) := by
  obtain ⟨k, hk, -, -, hstart⟩ := recoverStart_last hs hsize
  refine ⟨k, hk, hstart _ fun c _ => ?_⟩
  have := startOf_le cs recs (c + 1)
  rw [List.length_append]
  omega

/-- A checkpoint past the end of the log is not where the scan starts. -/
theorem recoverStart_stale {more : List Bytes} {s : InMemoryStore}
    (hs : Indexes cs (recs ++ more) cps s)
    (hsize : (encodeAll cs (recs ++ more)).length ≤ maxFileSize) :
    ∃ k, k ≤ recs.length ∧
      recoverStart cs (encodeAll cs recs) s = (k, (startOf cs recs k : Int)) := by
  unfold recoverStart
  rcases hs.floor maxUint64 with ⟨hnone, _⟩ | ⟨k, hk, _, _, hsome⟩
  · rw [hnone]
    exact ⟨0, Nat.zero_le _, rfl⟩
  · rw [hsome]
    have hlt := hs.lt k hk
    have hnext : startOf cs (recs ++ more) (k + 1) = _ :=
      startOf_succ (List.getElem?_eq_getElem hlt)
    have hend := startOf_le cs (recs ++ more) (k + 1)
    simp only
    rw [addInt64_eq (by omega) (by omega)]
    split_ifs with hfits
    · -- a header inside the file is the header of a record of the log
      have hle : k ≤ recs.length := by
        by_contra hgt
        have hmono : startOf cs (recs ++ more) recs.length ≤ startOf cs (recs ++ more) k :=
          startOf_mono (by omega)
        rw [startOf_append more le_rfl, startOf_length] at hmono
        have := headerSize_pos cs
        omega
      exact ⟨k, hle, by rw [startOf_append more hle]⟩
    · exact ⟨0, Nat.zero_le _, rfl⟩

/-- The writer that `NewWalWriter` returns for the records `recs`. -/
def openedWriter (cs : Checksum) (recs : List Bytes) (store : InMemoryStore) : WALWriter :=
  { file := encodeAll cs recs
    size := (encodeAll cs recs).length
    nextOffset := recs.length
    writeSeq := 0
    syncedSeq := 0
    syncing := false
    syncErr := false
    pending := []
    store := store }

/-- Recovery from any record keeps exactly the whole records. -/
theorem newWalWriter_of_start {s : InMemoryStore} {k : Nat} (hk : k ≤ recs.length)
    (hstart : recoverStart cs (encodeAll cs recs ++ tail) s.loadCheckpoints =
      (k, (startOf cs recs k : Int)))
    (hrecs : ∀ r ∈ recs, r.length ≤ MaxRecordSize)
    (hsize : (encodeAll cs recs).length ≤ maxFileSize) (ht : Unfinished cs tail) :
    newWalWriter cs (encodeAll cs recs ++ tail) s =
      .ok (openedWriter cs recs s.loadCheckpoints) := by
  -- the frames of the scan are the records from `k` on
  have hfs : ∀ f ∈ (recs.drop k).map (encode cs), IsFrame cs f := fun f hf => by
    obtain ⟨d, hd, rfl⟩ := List.mem_map.mp hf
    exact isFrame_encode (hrecs d (List.mem_of_mem_drop hd))
  have hall : encodeAll cs (recs.take k) ++ ((recs.drop k).map (encode cs)).flatten =
      encodeAll cs recs := by
    rw [← encodeAll_eq_flatten, ← encodeAll_append, List.take_append_drop]
  have hfile : encodeAll cs recs ++ tail =
      encodeAll cs (recs.take k) ++ (((recs.drop k).map (encode cs)).flatten ++ tail) := by
    rw [← List.append_assoc, hall]
  have hcount : k + ((recs.drop k).map (encode cs)).length = recs.length := by
    rw [List.length_map, List.length_drop]
    omega
  rw [hfile] at hstart ⊢
  rw [newWalWriter_unfinished hfs (hcount ▸ length_le_maxUint64 hsize) ht hstart, hall, hcount]
  rfl

/-- **Specification of `recover`** on a log of whole records with an unfinished tail and true
    checkpoints. -/
theorem newWalWriter_eq {s : InMemoryStore} (hs : Indexes cs recs cps s.loadCheckpoints)
    (hrecs : ∀ r ∈ recs, r.length ≤ MaxRecordSize)
    (hsize : (encodeAll cs recs).length ≤ maxFileSize) (ht : Unfinished cs tail) :
    newWalWriter cs (encodeAll cs recs ++ tail) s =
      .ok (openedWriter cs recs s.loadCheckpoints) := by
  obtain ⟨k, hk, hstart⟩ := recoverStart_eq tail hs hsize
  exact newWalWriter_of_start hk hstart hrecs hsize ht

/-- **Specification of `recover`** on a log of whole records with the checkpoints of a
    longer one: the records are kept, and so is every checkpoint. -/
theorem newWalWriter_stale {more : List Bytes} {s : InMemoryStore}
    (hs : Indexes cs (recs ++ more) cps s.loadCheckpoints)
    (hrecs : ∀ r ∈ recs, r.length ≤ MaxRecordSize)
    (hsize : (encodeAll cs (recs ++ more)).length ≤ maxFileSize) :
    newWalWriter cs (encodeAll cs recs) s = .ok (openedWriter cs recs s.loadCheckpoints) := by
  obtain ⟨k, hk, hstart⟩ := recoverStart_stale hs hsize
  rw [encodeAll_append, List.length_append] at hsize
  have h := newWalWriter_of_start hk (by rwa [List.append_nil]) hrecs (by omega)
    (unfinished_nil cs)
  rwa [List.append_nil] at h

/-! ## Opening what a crash left -/

/-- **Recovery after a crash**: the log file is cut at byte `n` and the index file at byte
    `j`, and every checkpointed record lies inside the part of the log that is left.  The
    log opens, and holds exactly the whole records of that part. -/
theorem newWalWriter_cut (hrecs : ∀ r ∈ recs, r.length ≤ MaxRecordSize) (ht : Torn cs tail)
    (hasc : cps.Pairwise (· < ·)) (hlt : ∀ k ∈ cps, k < recs.length)
    (hsize : (encodeAll cs recs).length ≤ maxFileSize) {n : Nat} (j nth : Nat)
    (hcps : ∀ k ∈ cps, startOf cs recs (k + 1) ≤ n) :
    ∃ m s, m ≤ recs.length ∧ (∀ k, k ≤ recs.length → startOf cs recs k ≤ n → k ≤ m) ∧
      startOf cs recs m ≤ n ∧
      newWalWriter cs ((encodeAll cs recs ++ tail).take n)
          (newInMemoryStore ((indexBytes cs recs cps).take j) nth) =
        .ok (openedWriter cs (recs.take m) s) ∧
      Indexes cs (recs.take m) (cps.take (j / indexEntryBytes)) s := by
  -- what the cut leaves is again whole records and a torn tail
  obtain ⟨m, tail', hm, htorn, hcut, hkeep⟩ := take_encodeAll hrecs ht n
  set s := newInMemoryStore ((indexBytes cs recs cps).take j) nth with hsdef
  have hload := Indexes.load hasc hlt hsize (s := s) rfl
  -- checkpoints name records that are left, so they are still true
  have hin : ∀ k ∈ cps.take (j / indexEntryBytes), k < m := fun k hk =>
    hkeep (k + 1) (hlt k (List.mem_of_mem_take hk)) (hcps k (List.mem_of_mem_take hk))
  have hidx := hload.take hin
  have hlen : startOf cs recs m ≤ n := by
    have h1 := congrArg List.length hcut
    simp only [List.length_take, List.length_append] at h1
    have h2 : startOf cs recs m = (encodeAll cs (recs.take m)).length := rfl
    omega
  refine ⟨m, s.loadCheckpoints, hm, hkeep, hlen, ?_, hidx⟩
  rw [hcut]
  exact newWalWriter_eq hidx (fun r hr => hrecs r (List.mem_of_mem_take hr))
    ((startOf_le cs recs m).trans hsize) htorn.unfinished

/-! ## The records of a file -/

/-- The payloads of the whole records from a position on. -/
def recordsFrom (cs : Checksum) (file : Bytes) : (fuel pos : Nat) → List Bytes
  | 0, _ => []
  | fuel + 1, pos =>
    let length := lengthAt file pos
    if length ≤ MaxRecordSize ∧ pos + cs.headerSize + length ≤ file.length then
      payloadAt cs file pos :: recordsFrom cs file fuel (pos + cs.headerSize + length)
    else []

/-- The payloads of the whole records of a file: what the file says the log is. -/
def recordsOf (cs : Checksum) (file : Bytes) : List Bytes := recordsFrom cs file (file.length + 1) 0

theorem recordsFrom_eq (hrecs : ∀ r ∈ recs, r.length ≤ MaxRecordSize) (ht : Torn cs tail)
    {fuel k : Nat} (hk : k ≤ recs.length) (hfuel : recs.length - k < fuel) :
    recordsFrom cs (encodeAll cs recs ++ tail) fuel (startOf cs recs k) = recs.drop k := by
  induction fuel generalizing k with
  | zero => omega
  | succ fuel ih =>
    rw [recordsFrom]
    rcases Nat.eq_or_lt_of_le hk with rfl | hlt
    · -- a torn tail is not a whole record
      have hcut := ht.cases (encodeAll cs recs)
      rw [startOf_length, List.drop_length, List.length_append]
      rw [if_neg]
      omega
    · obtain ⟨d, hd⟩ : ∃ d, recs[k]? = some d := ⟨_, List.getElem?_eq_getElem hlt⟩
      have hmax := hrecs d (List.mem_of_getElem? hd)
      have hf := framedAt_encodeAll cs tail hd hmax
      simp only [hf.length, hf.payload]
      rw [if_pos ⟨hmax, hf.fits⟩, Nat.add_assoc, ← startOf_succ hd, ih hlt (by omega),
        List.drop_eq_getElem_cons hlt, (List.getElem?_eq_some_iff.mp hd).2]

/-- The records of a log file are the records written to it. -/
theorem recordsOf_eq (hrecs : ∀ r ∈ recs, r.length ≤ MaxRecordSize) (ht : Torn cs tail) :
    recordsOf cs (encodeAll cs recs ++ tail) = recs := by
  have hfuel := length_le_encodeAll cs recs
  have h : recordsFrom cs (encodeAll cs recs ++ tail) ((encodeAll cs recs ++ tail).length + 1)
      (startOf cs recs 0) = recs.drop 0 :=
    recordsFrom_eq hrecs ht (Nat.zero_le _) (by rw [List.length_append]; omega)
  rwa [startOf_zero, List.drop_zero] at h

end EventLog.Wal
