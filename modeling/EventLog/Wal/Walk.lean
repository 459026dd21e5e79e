import EventLog.Wal.Reader
import Mathlib.Order.Basic

/-!
# The walk of `ReadAt` on any file

The reader skips records by their length fields without checking them.  This module says
what the walk does on a file whose bytes are arbitrary: where it arrives, and exactly
when it runs out of the file.  On an intact log it arrives at the record asked for.
-/

namespace EventLog.Wal

open EventLog.Lib

variable {cs : Checksum} {file : Bytes}

/-- The position of the `i`-th record from `pos` on, by the length fields of the file. -/
def framePos (cs : Checksum) (file : Bytes) (pos : Nat) : Nat → Nat
  | 0 => pos
  | i + 1 => framePos cs file (pos + cs.headerSize + lengthAt file pos) i

theorem le_framePos (cs : Checksum) (file : Bytes) (pos i : Nat) :
    pos ≤ framePos cs file pos i := by
  induction i generalizing pos with
  | zero => exact Nat.le_refl pos
  | succ i ih =>
    have := ih (pos + cs.headerSize + lengthAt file pos)
    rw [framePos]
    omega

/-- The last step of the walk. -/
theorem framePos_succ (cs : Checksum) (file : Bytes) (pos i : Nat) :
    framePos cs file pos (i + 1) = framePos cs file pos i + cs.headerSize +
      lengthAt file (framePos cs file pos i) := by
  induction i generalizing pos with
  | zero => rfl
  | succ i ih => rw [framePos, ih, framePos]

/-- **Run lemma of the walk**: past records whose headers are inside the file and whose
    lengths are acceptable, up to the target or any record before it. -/
theorem readLoop_walk (cs : Checksum) (file : Bytes) (n fuel cur pos : Nat) {o : Nat}
    (ho : cur + n ≤ o) (h : ∀ i, i < n → framePos cs file pos i + cs.headerSize ≤ file.length ∧
      lengthAt file (framePos cs file pos i) ≤ MaxRecordSize) :
    readLoop cs file o (fuel + n) cur pos =
      readLoop cs file o fuel (cur + n) (framePos cs file pos n) := by
  induction n generalizing cur pos with
  | zero => rfl
  | succ n ih =>
    -- one round of the loop skips the first record
    obtain ⟨hin, hmax⟩ := h 0 (Nat.succ_pos n)
    rw [framePos] at hin hmax
    have ih := ih (cur + 1) (pos + cs.headerSize + lengthAt file pos) (by omega)
      fun i hi => h (i + 1) (by omega)
    rw [Nat.add_right_comm cur 1 n] at ih
    rw [← Nat.add_assoc fuel, readLoop, if_neg (by omega)]
    simp only
    rw [if_neg (by omega), if_neg (by omega), ← Nat.add_assoc cur, ih, framePos]

/-- Rounds behind the end of the file change nothing. -/
theorem readLoop_add_fuel (cs : Checksum) (file : Bytes) (o extra : Nat) {fuel cur pos : Nat}
    (h : file.length < fuel + pos) :
    readLoop cs file o (fuel + extra) cur pos = readLoop cs file o fuel cur pos := by
  induction fuel generalizing cur pos with
  | zero =>
    cases extra with
    | zero => rfl
    | succ extra =>
      rw [Nat.zero_add, readLoop.eq_2, if_pos (by omega), readLoop]
  | succ fuel ih =>
    -- every round moves the position forward, by a header at least
    have hpos := headerSize_pos cs
    have ih := @ih (cur + 1) (pos + cs.headerSize + lengthAt file pos) (by omega)
    rw [Nat.add_right_comm, readLoop, readLoop]
    simp only [ih]

/-! ## Where the walk starts -/

/-- Record `j` is skipped on the way to offset `o`: no checkpoint lies behind it. -/
def Skipped (cps : List Nat) (o j : Nat) : Prop := j < o ∧ ∀ k ∈ cps, k ≤ o → k ≤ j

instance (cps : List Nat) (o j : Nat) : Decidable (Skipped cps o j) :=
  inferInstanceAs (Decidable (j < o ∧ ∀ k ∈ cps, k ≤ o → k ≤ j))

/-- Where the walk to offset `o` starts: the nearest checkpoint at or below it. -/
def walkStart (store : InMemoryStore) (o : Nat) : Nat × Nat :=
  match store.floor o with
  | none => (0, 0)
  | some (k, pos) => (k, pos.toNat)

theorem walkStart_le (store : InMemoryStore) (o : Nat) : (walkStart store o).1 ≤ o := by
  rw [walkStart, InMemoryStore.floor]
  split_ifs with hzero
  · exact Nat.zero_le o
  · exact getD_searchAbove_le hzero

/-- With true checkpoints the walk starts at a record and skips those up to the target,
    whatever the bytes of the file are. -/
theorem readAt_eq_readLoop {recs : List Bytes} {cps : List Nat} {s : InMemoryStore}
    (hs : Indexes cs recs cps s) (o : Nat) :
    ∃ f, walkStart s o = (f, startOf cs recs f) ∧ f ≤ o ∧
      (∀ j, Skipped cps o j ↔ f ≤ j ∧ j < o) ∧
      ∀ file, readAt cs file s o =
        readLoop cs file o (file.length + 1) f (startOf cs recs f) := by
  rcases hs.floor o with ⟨hnone, habove⟩ | ⟨k, hk, hko, hgreatest, hsome⟩
  · refine ⟨0, by rw [walkStart, hnone, startOf_zero], Nat.zero_le o,
      fun j => ⟨fun h => ⟨Nat.zero_le j, h.1⟩, fun h => ⟨h.2, ?_⟩⟩, fun file => ?_⟩
    -- no checkpoint at or below the target: the walk starts at the beginning
    · intro k hk hko
      have := habove k hk
      omega
    · rw [readAt, hnone, startOf_zero]
  · refine ⟨k, by rw [walkStart, hsome]; rfl, hko,
      fun j => ⟨fun h => ⟨h.2 k hk hko, h.1⟩, fun h => ⟨h.2, ?_⟩⟩, fun file => ?_⟩
    -- the walk starts at the greatest checkpoint at or below the target
    · intro k' hk' hko'
      exact (hgreatest k' hk' hko').trans h.1
    · rw [readAt, hsome]
      simp only [Int.toNat_natCast]
      rw [if_neg (by omega)]

/-- Length fields that are as written lead from record to record. -/
theorem framePos_eq_startOf {recs : List Bytes} {f n : Nat} (hn : f + n ≤ recs.length)
    (hlen : ∀ k d, f ≤ k → k < f + n → recs[k]? = some d →
      lengthAt file (startOf cs recs k) = d.length) :
    framePos cs file (startOf cs recs f) n = startOf cs recs (f + n) := by
  induction n with
  | zero => rfl
  | succ n ih =>
    have hd : recs[f + n]? = some recs[f + n] := List.getElem?_eq_getElem (by omega)
    rw [framePos_succ, ih (by omega) fun k d hk hkn => hlen k d hk (by omega),
      hlen _ _ (by omega) (by omega) hd, ← Nat.add_assoc f, startOf_succ hd, Nat.add_assoc]

/-- **Where the walk arrives**: if the length fields of the skipped records are as written,
    at the record that is read. -/
theorem readAt_arrives (file : Bytes) {recs : List Bytes} {cps : List Nat} {s : InMemoryStore}
    {o : Nat}
    (hs : Indexes cs recs cps s) (hrecs : ∀ r ∈ recs, r.length ≤ MaxRecordSize)
    (ho : o < recs.length) (hfile : (encodeAll cs recs).length ≤ file.length)
    (hlen : ∀ k d, Skipped cps o k → recs[k]? = some d →
      lengthAt file (startOf cs recs k) = d.length) :
    ∃ fuel, readAt cs file s o = readLoop cs file o (fuel + 1) o (startOf cs recs o) := by
  obtain ⟨f, -, hfo, hskip, hread⟩ := readAt_eq_readLoop hs o
  have hcount := length_le_encodeAll cs recs
  -- record by record the walk stands where the record was written
  have hpos : ∀ i, i ≤ o - f → framePos cs file (startOf cs recs f) i = startOf cs recs (f + i) :=
    fun i hi => framePos_eq_startOf (by omega) fun k d hk hki hd =>
      hlen k d ((hskip k).mpr ⟨hk, by omega⟩) hd
  have hwalk := readLoop_walk cs file (o - f) (file.length - (o - f) + 1) f
    (startOf cs recs f) (show f + (o - f) ≤ o by omega) fun i hi => by
      have hd : recs[f + i]? = some recs[f + i] := List.getElem?_eq_getElem (by omega)
      have hnext : startOf cs recs (f + i + 1) = _ := startOf_succ hd
      have hin := startOf_le cs recs (f + i + 1)
      rw [hpos i (by omega), hlen _ _ ((hskip _).mpr ⟨by omega, by omega⟩) hd]
      exact ⟨by omega, hrecs _ (List.mem_of_getElem? hd)⟩
  have hfo' : f + (o - f) = o := by omega
  have hfuel : file.length - (o - f) + 1 + (o - f) = file.length + 1 := by omega
  rw [hpos _ le_rfl, hfo', hfuel] at hwalk
  exact ⟨_, (hread file).trans hwalk⟩

/-- The answer of a reader that knows no checkpoint: a scan from byte 0. -/
def scanAt (cs : Checksum) (file : Bytes) (o : Nat) : Except ReadError Bytes :=
  readLoop cs file o (file.length + 1) 0 0

/-- The scan passes every record of the log up to the target. -/
theorem scanAt_eq (tail : Bytes) {recs : List Bytes} {o f : Nat}
    (hrecs : ∀ r ∈ recs, r.length ≤ MaxRecordSize) (hf : f ≤ recs.length) (hfo : f ≤ o) :
    scanAt cs (encodeAll cs recs ++ tail) o =
      readLoop cs (encodeAll cs recs ++ tail) o ((encodeAll cs recs ++ tail).length + 1) f
        (startOf cs recs f) := by
  set file := encodeAll cs recs ++ tail with hfile
  have hframed : ∀ k d, recs[k]? = some d → FramedAt cs file (startOf cs recs k) d :=
    fun k d hk => framedAt_encodeAll cs tail hk (hrecs d (List.mem_of_getElem? hk))
  have hpos : ∀ i, i ≤ f → framePos cs file 0 i = startOf cs recs i := fun i hi => by
    have h : framePos cs file (startOf cs recs 0) i = startOf cs recs (0 + i) :=
      framePos_eq_startOf (by omega) fun k d _ _ hk => (hframed k d hk).length
    rwa [startOf_zero, Nat.zero_add] at h
  have hlen : f ≤ startOf cs recs f ∧ startOf cs recs f ≤ file.length := by
    have h1 := length_le_encodeAll cs (recs.take f)
    have h2 := startOf_le cs recs f
    rw [List.length_take, Nat.min_eq_left hf] at h1
    rw [hfile, List.length_append]
    exact ⟨h1, by omega⟩
  have hwalk := readLoop_walk cs file f (file.length + 1 - f) 0 0 (show 0 + f ≤ o by omega)
    fun i hi => by
      have hd := hframed i _ (List.getElem?_eq_getElem (by omega))
      have hfits := hd.fits
      rw [hpos i (by omega), hd.length]
      exact ⟨by omega, hrecs _ (List.getElem_mem _)⟩
  -- the rounds spent on the way are not needed behind it
  have hfuel : file.length + 1 = file.length + 1 - f + f := by omega
  rw [scanAt, hfuel, hwalk, hpos f le_rfl, Nat.zero_add,
    readLoop_add_fuel cs file o f (by omega)]

/-- **`ReadAt` through `Floor` is the scan**: with true checkpoints every offset is answered
    as from byte 0, whatever follows the log. -/
theorem readAt_eq_scanAt (tail : Bytes) {recs : List Bytes} {cps : List Nat} {s : InMemoryStore}
    (hs : Indexes cs recs cps s) (hrecs : ∀ r ∈ recs, r.length ≤ MaxRecordSize) (o : Nat) :
    readAt cs (encodeAll cs recs ++ tail) s o = scanAt cs (encodeAll cs recs ++ tail) o := by
  rcases hs.floor o with ⟨hnone, _⟩ | ⟨k, hk, hko, _, hsome⟩
  · rw [readAt, hnone, scanAt]
  · rw [readAt, hsome, scanAt_eq tail hrecs (hs.lt k hk).le hko]
    simp only [Int.toNat_natCast]
    rw [if_neg (by omega)]

/-- **Specification of `ReadAt`**: with true checkpoints every record of the log is read
    back, whatever follows the log. -/
theorem readAt_eq (tail : Bytes) {recs : List Bytes} {cps : List Nat} {s : InMemoryStore} {o : Nat}
    {d : Bytes} (hs : Indexes cs recs cps s) (hrecs : ∀ r ∈ recs, r.length ≤ MaxRecordSize)
    (ho : recs[o]? = some d) : readAt cs (encodeAll cs recs ++ tail) s o = .ok d := by
  have hmax := hrecs d (List.mem_of_getElem? ho)
  rw [readAt_eq_scanAt tail hs hrecs,
    scanAt_eq tail hrecs (List.getElem?_eq_some_iff.mp ho).1.le le_rfl]
  exact readLoop_target (framedAt_encodeAll cs tail ho hmax) hmax

/-! ## What a read returns -/

/-- What the reader asks of a record it skips: the header lies inside the file and the
    length is acceptable. -/
def Passable (cs : Checksum) (file : Bytes) (pos : Nat) : Prop :=
  pos + cs.headerSize ≤ file.length ∧ lengthAt file pos ≤ MaxRecordSize

/-- What it asks of the record it returns: the payload lies inside the file as well, and the
    stored checksum is the right one. -/
def Intact (cs : Checksum) (file : Bytes) (pos : Nat) : Prop :=
  Passable cs file pos ∧ pos + cs.headerSize + lengthAt file pos ≤ file.length ∧
    cs.compute (slice file pos LengthSize ++ payloadAt cs file pos) = sumAt cs file pos

/-- By the length fields from `pos` on, record `n` is returned. -/
def Served (cs : Checksum) (file : Bytes) (pos n : Nat) : Prop :=
  (∀ i < n, Passable cs file (framePos cs file pos i)) ∧ Intact cs file (framePos cs file pos n)

instance (cs : Checksum) (file : Bytes) (pos : Nat) : Decidable (Passable cs file pos) :=
  inferInstanceAs (Decidable (_ ∧ _))

instance (cs : Checksum) (file : Bytes) (pos : Nat) : Decidable (Intact cs file pos) :=
  inferInstanceAs (Decidable (_ ∧ _))

instance (cs : Checksum) (file : Bytes) (pos n : Nat) : Decidable (Served cs file pos n) :=
  inferInstanceAs (Decidable ((∀ i < n, _) ∧ _))

/-- The walk in two parts. -/
theorem framePos_add (cs : Checksum) (file : Bytes) (pos a b : Nat) :
    framePos cs file pos (a + b) = framePos cs file (framePos cs file pos a) b := by
  induction b with
  | zero => rfl
  | succ b ih => rw [← Nat.add_assoc, framePos_succ, ih, framePos_succ]

/-- Records that are passed do not decide what is returned. -/
theorem served_add {pos a b : Nat} (h : ∀ i < a, Passable cs file (framePos cs file pos i)) :
    Served cs file pos (a + b) ↔ Served cs file (framePos cs file pos a) b := by
  unfold Served
  rw [framePos_add]
  refine and_congr_left fun _ => ⟨fun hall i hi => ?_, fun hall i hi => ?_⟩
  · rw [← framePos_add]
    exact hall _ (by omega)
  · rcases Nat.lt_or_ge i a with hlt | hge
    · exact h i hlt
    · obtain ⟨k, rfl⟩ := Nat.exists_eq_add_of_le hge
      rw [framePos_add]
      exact hall k (by omega)

/-- One round at the target. -/
theorem readLoop_target_iff (cs : Checksum) (file : Bytes) (o fuel pos : Nat) (d : Bytes) :
    readLoop cs file o (fuel + 1) o pos = .ok d ↔
      Intact cs file pos ∧ payloadAt cs file pos = d := by
  rw [readLoop, Intact, Passable]
  simp only [if_true]
  -- every check of the loop is one of the conditions
  split_ifs with hheader hmax hfits hsum
  · exact iff_of_false (fun h => by cases h) fun h => absurd h.1.1.1 (by omega)
  · exact iff_of_false (fun h => by cases h) fun h => absurd h.1.1.2 (by omega)
  · exact iff_of_false (fun h => by cases h) fun h => absurd h.1.2.1 (by omega)
  · exact iff_of_false (fun h => by cases h) fun h => hsum h.1.2.2
  · rw [Except.ok.injEq]
    exact ⟨fun h => ⟨⟨⟨by omega, by omega⟩, by omega, not_not.mp hsum⟩, h⟩, fun h => h.2⟩

/-- One round before the target: the record is passed, or nothing is returned. -/
theorem readLoop_skip_iff (cs : Checksum) (file : Bytes) {o cur : Nat} (fuel pos : Nat)
    (hlt : cur < o) (d : Bytes) :
    readLoop cs file o (fuel + 1) cur pos = .ok d ↔ Passable cs file pos ∧
      readLoop cs file o fuel (cur + 1) (pos + cs.headerSize + lengthAt file pos) = .ok d := by
  rw [readLoop, Passable]
  simp only [if_neg (Nat.ne_of_lt hlt)]
  split_ifs with hheader hmax
  · exact iff_of_false (fun h => by cases h) fun h => absurd h.1.1 (by omega)
  · exact iff_of_false (fun h => by cases h) fun h => absurd h.1.2 (by omega)
  · exact ⟨fun h => ⟨⟨by omega, by omega⟩, h⟩, fun h => h.2⟩

/-- **What a read returns**, on any file: the payload at which the length fields arrive, if
    every record on the way can be passed and the last one is intact. -/
theorem readLoop_eq_ok_iff (cs : Checksum) (file : Bytes) (n fuel cur pos : Nat)
    (hfuel : n < fuel) (d : Bytes) :
    readLoop cs file (cur + n) fuel cur pos = .ok d ↔
      Served cs file pos n ∧ payloadAt cs file (framePos cs file pos n) = d := by
  induction n generalizing fuel cur pos with
  | zero =>
    obtain ⟨fuel, rfl⟩ : ∃ f, fuel = f + 1 := ⟨fuel - 1, by omega⟩
    rw [Nat.add_zero, readLoop_target_iff, Served, framePos]
    simp only [Nat.not_lt_zero, false_imp_iff, implies_true, true_and]
  | succ n ih =>
    obtain ⟨fuel, rfl⟩ : ∃ f, fuel = f + 1 := ⟨fuel - 1, by omega⟩
    have ih := ih fuel (cur + 1) (pos + cs.headerSize + lengthAt file pos) (by omega)
    rw [Nat.add_right_comm, Nat.add_assoc] at ih
    rw [readLoop_skip_iff cs file fuel pos (by omega), ih, Nat.add_comm n 1, framePos_add,
      ← and_assoc]
    -- the first record is passed, and the others are served from behind it
    refine and_congr_left' ⟨fun h => ?_, fun h => ?_⟩
    · exact (served_add fun i hi => by rw [Nat.lt_one_iff.mp hi]; exact h.1).mpr h.2
    · have hfirst : Passable cs file pos := h.1 0 (by omega)
      exact ⟨hfirst, (served_add fun i hi => by rw [Nat.lt_one_iff.mp hi]; exact hfirst).mp h⟩

/-! ## Running out of the file -/

/-- `errors.Is(err, io.EOF)` for the result of a read. -/
def endsEOF : Except ReadError Bytes → Bool
  | .ok _ => false
  | .error e => e.isEOF

/-- By the length fields from `pos` on, record `n` lies inside the file, or a header inside
    the file with an unacceptable length stands before its end. -/
def Reached (cs : Checksum) (file : Bytes) (pos n : Nat) : Prop :=
  framePos cs file pos n + cs.headerSize + lengthAt file (framePos cs file pos n) ≤ file.length ∨
    ∃ i ≤ n, framePos cs file pos i + cs.headerSize ≤ file.length ∧
      MaxRecordSize < lengthAt file (framePos cs file pos i)

instance (cs : Checksum) (file : Bytes) (pos n : Nat) : Decidable (Reached cs file pos n) :=
  inferInstanceAs (Decidable (_ ∨ ∃ i ≤ n, _))

theorem not_reached_of_lt {pos n : Nat} (h : file.length < pos + cs.headerSize) :
    ¬Reached cs file pos n := by
  have hge := le_framePos cs file pos
  rintro (hle | ⟨i, -, hle, -⟩)
  · have := hge n
    omega
  · have := hge i
    omega

/-- One acceptable record is skipped. -/
theorem reached_succ {pos n : Nat} (hmax : lengthAt file pos ≤ MaxRecordSize) :
    Reached cs file pos (n + 1) ↔
      Reached cs file (pos + cs.headerSize + lengthAt file pos) n := by
  unfold Reached
  refine or_congr Iff.rfl ⟨?_, ?_⟩
  · rintro ⟨i, hi, hin, hlen⟩
    cases i with
    | zero =>
      rw [framePos] at hlen
      omega
    | succ i => exact ⟨i, by omega, hin, hlen⟩
  · rintro ⟨i, hi, hin, hlen⟩
    exact ⟨i + 1, by omega, hin, hlen⟩

/-- **When the walk runs out**: the read of record `n` behind `pos` ends with `io.EOF`
    exactly when it is not reached. -/
theorem readLoop_endsEOF_iff (cs : Checksum) (file : Bytes) (n fuel cur pos : Nat)
    (hfuel : n < fuel) :
    endsEOF (readLoop cs file (cur + n) fuel cur pos) = true ↔ ¬Reached cs file pos n := by
  induction n generalizing fuel cur pos with
  | zero =>
    obtain ⟨fuel, rfl⟩ : ∃ f, fuel = f + 1 := ⟨fuel - 1, by omega⟩
    rw [readLoop]
    simp only [Nat.add_zero]
    -- at the target: header past the end, length too large, payload past the end,
    -- checksum mismatch, success
    split_ifs with hheader hmax hfits
    · exact iff_of_true rfl (not_reached_of_lt hheader)
    · exact iff_of_false Bool.false_ne_true fun h => h (Or.inr ⟨0, le_rfl, by
        rw [framePos]; omega, hmax⟩)
    · refine iff_of_true rfl ?_
      rintro (hle | ⟨i, hi, -, hlen⟩)
      · rw [framePos] at hle
        omega
      · obtain rfl := Nat.le_zero.mp hi
        exact hmax hlen
    · exact iff_of_false Bool.false_ne_true fun h => h (Or.inl (by rw [framePos]; omega))
    · exact iff_of_false Bool.false_ne_true fun h => h (Or.inl (by rw [framePos]; omega))
  | succ n ih =>
    obtain ⟨fuel, rfl⟩ : ∃ f, fuel = f + 1 := ⟨fuel - 1, by omega⟩
    rw [readLoop]
    simp only
    -- before the target only the first two can end the walk
    split_ifs with hheader hmax htarget
    · exact iff_of_true rfl (not_reached_of_lt hheader)
    · exact iff_of_false Bool.false_ne_true fun h => h (Or.inr ⟨0, Nat.zero_le _, by
        rw [framePos]; omega, hmax⟩)
    · omega
    · omega
    · omega
    · have ih' := ih fuel (cur + 1) (pos + cs.headerSize + lengthAt file pos) (by omega)
      rw [Nat.add_right_comm cur 1 n, Nat.add_assoc cur n 1] at ih'
      rw [reached_succ (by omega), ← ih']

/-- The read of offset `o` gets to the record, or to a reason to fail other than the end of
    the file: an unacceptable length on the way, or a checkpoint at a negative position. -/
def Arrives (cs : Checksum) (file : Bytes) (store : InMemoryStore) (o : Nat) : Prop :=
  (∃ c ∈ store.floor o, c.2 < 0) ∨
    Reached cs file (walkStart store o).2 (o - (walkStart store o).1)

instance (cs : Checksum) (file : Bytes) (store : InMemoryStore) (o : Nat) :
    Decidable (Arrives cs file store o) :=
  inferInstanceAs (Decidable ((∃ c ∈ store.floor o, c.2 < 0) ∨ _))

/-- **When `ReadAt` returns `io.EOF`**, on any file and with any checkpoints. -/
theorem readAt_endsEOF_iff (cs : Checksum) (file : Bytes) (store : InMemoryStore) (o : Nat) :
    endsEOF (readAt cs file store o) = true ↔ ¬Arrives cs file store o := by
  have hle := walkStart_le store o
  -- a file is exhausted before its fuel, so more fuel changes nothing
  have hloop : ∀ cur pos, cur ≤ o →
      (endsEOF (readLoop cs file o (file.length + 1) cur pos) = true ↔
        ¬Reached cs file pos (o - cur)) := by
    intro cur pos hcur
    have hiff := readLoop_endsEOF_iff cs file (o - cur) (file.length + 1 + (o - cur)) cur pos
      (by omega)
    rwa [Nat.add_sub_cancel' hcur, readLoop_add_fuel cs file o (o - cur) (by omega)] at hiff
  rw [Arrives, readAt, not_or]
  rw [walkStart] at hle ⊢
  cases hfloor : store.floor o with
  | none =>
    simp only [hfloor] at hle
    rw [hloop 0 0 hle]
    exact (and_iff_right fun h => by obtain ⟨c, hc, -⟩ := h; cases hc).symm
  | some c =>
    obtain ⟨k, pos⟩ := c
    simp only [hfloor] at hle
    simp only
    split_ifs with hneg
    · exact iff_of_false Bool.false_ne_true fun h => h.1 ⟨_, rfl, hneg⟩
    · rw [hloop k pos.toNat hle]
      refine (and_iff_right fun h => ?_).symm
      obtain ⟨c, hc, hlt⟩ := h
      obtain rfl := Option.some.inj hc
      exact hneg hlt

end EventLog.Wal
