import EventLog.Lib.Ascending
import EventLog.Lib.File
import EventLog.Lib.Search
import EventLog.Wal.Record

/-!
# The sparse index

`InMemoryStore` keeps checkpoints `offset → position` for every n-th record, mirrored
to an `.index` file of 16-byte entries.  Positions are `int64` and read back signed.
The map behind `Get`, which neither the writer nor the reader calls, is left out.

* **Files**: `fileEntries` reads the entries of any byte string, `entriesBytes` writes them.
* **Loading**: `loadCheckpoints_eq`, what is kept of any file.
* **Entries**: `Holds es s`, the store has the entries `es` in memory and on disk; `Floor`
  and `Checkpoint` are specified for such stores.
* **True checkpoints**: `Indexes`, the entries are checkpoints of a log.
-/

namespace EventLog.Wal

open EventLog.Lib

/-! ## The store -/

/-- On-disk size of one checkpoint. -/
def indexEntryBytes : Nat := 16

/-- The largest `uint64`. -/
def maxUint64 : Nat := 2 ^ 64 - 1

/-- Conversion `int64(uint64)`. -/
def toInt64 (n : Nat) : Int := if n < 2 ^ 63 then n else (n : Int) - 2 ^ 64

/-- Conversion `uint64(int64)`. -/
def toUint64 (p : Int) : Nat := (p % 2 ^ 64).toNat

/-- `x + y` on `int64`. -/
def addInt64 (x y : Int) : Int := toInt64 (toUint64 (x + y))

/-- `n++` on `uint64`. -/
def succUint64 (n : Nat) : Nat := if n = maxUint64 then 0 else n + 1

structure InMemoryStore where
  offsets : List Nat
  positions : List Int
  /-- Records seen since the last checkpoint was written. -/
  n : Nat
  nthIndex : Nat
  indexFile : Bytes
  deriving DecidableEq, Repr

/-- `NewInMemoryStore` on an existing or freshly created index file. -/
def newInMemoryStore (indexFile : Bytes) (nthIndex : Nat) : InMemoryStore :=
  { offsets := [], positions := [], n := 0, nthIndex := nthIndex, indexFile := indexFile }

/-- One entry of the index file. -/
def entryBytes (offset : Nat) (position : Int) : Bytes :=
  beBytes 8 offset ++ beBytes 8 (toUint64 position)

/-- The entry `i` of an index file. -/
def entryAt (buf : Bytes) (i : Nat) : Nat × Int :=
  (beNat (slice buf (i * indexEntryBytes) 8),
    toInt64 (beNat (slice buf (i * indexEntryBytes + 8) 8)))

namespace InMemoryStore

/-- The loop of `LoadCheckpoints` from entry `i` on: it stops at the first entry that is
    not above the last one in offset and position. -/
def loadLoop (buf : Bytes) : (count i : Nat) → Option (Nat × Int) → List (Nat × Int)
  | 0, _, _ => []
  | count + 1, i, last =>
    let e := entryAt buf i
    -- a torn or reordered write shows as an entry that does not ascend
    if last.any fun l => e.1 ≤ l.1 || e.2 ≤ l.2 then []
    else e :: loadLoop buf count (i + 1) (some e)

/-- `LoadCheckpoints`: keep the valid prefix and rewrite the file to exactly that prefix. -/
def loadCheckpoints (s : InMemoryStore) : InMemoryStore :=
  let entries := loadLoop s.indexFile (s.indexFile.length / indexEntryBytes) 0 none
  { s with
    offsets := entries.map Prod.fst
    positions := entries.map Prod.snd
    indexFile := s.indexFile.take (entries.length * indexEntryBytes) }

/-- `Floor`: the checkpoint with the greatest offset at or below the target. -/
def floor (s : InMemoryStore) (offset : Nat) : Option (Nat × Int) :=
  let i := searchAbove s.offsets offset
  if i = 0 then none else some (s.offsets.getD (i - 1) 0, s.positions.getD (i - 1) 0)

/-- `Checkpoint`: every n-th call writes an entry; `o` is the outcome of that write, and a
    failed one is not added to memory. -/
def checkpoint (s : InMemoryStore) (offset : Nat) (position : Int) (o : WriteOutcome) :
    InMemoryStore :=
  let n := s.n + 1
  -- the counter is per session: it starts at 0 when the log is opened
  if s.nthIndex > 0 ∧ n < s.nthIndex then { s with n := n }
  else
    let (file, ok) := fileWrite s.indexFile (entryBytes offset position) o
    if ok then
      { s with
        n := 0
        indexFile := file
        offsets := s.offsets ++ [offset]
        positions := s.positions ++ [position] }
    -- what a failed write left of the entry stays in the file
    else { s with n := 0, indexFile := file }

/-- `Checkpoint` returns nil: the record is counted and dropped, or its entry is written. -/
def Accepts (s : InMemoryStore) (offset : Nat) (position : Int) (o : WriteOutcome) : Prop :=
  (s.nthIndex > 0 ∧ s.n + 1 < s.nthIndex) ∨
    (fileWrite s.indexFile (entryBytes offset position) o).2 = true

instance (s : InMemoryStore) (offset : Nat) (position : Int) (o : WriteOutcome) :
    Decidable (s.Accepts offset position o) :=
  inferInstanceAs (Decidable (_ ∨ _))

end InMemoryStore

/-! ## Entries -/

@[simp] theorem entryBytes_length (offset : Nat) (position : Int) :
    (entryBytes offset position).length = indexEntryBytes := by
  simp [entryBytes, indexEntryBytes]

theorem entryBytes_ne_nil (offset : Nat) (position : Int) : entryBytes offset position ≠ [] := by
  rw [← List.length_pos_iff, entryBytes_length]
  decide

theorem toUint64_lt (p : Int) : toUint64 p < 2 ^ 64 := by
  unfold toUint64
  omega

theorem toInt64_toUint64 {p : Int} (hlow : -2 ^ 63 ≤ p) (hhigh : p < 2 ^ 63) :
    toInt64 (toUint64 p) = p := by
  unfold toInt64 toUint64
  split_ifs <;> omega

theorem addInt64_eq {x y : Int} (hlow : 0 ≤ x + y) (hhigh : x + y ≤ maxFileSize) :
    addInt64 x y = x + y := by
  unfold maxFileSize at hhigh
  exact toInt64_toUint64 (by omega) (by omega)

theorem succUint64_eq {n : Nat} (h : n < maxUint64) : succUint64 n = n + 1 :=
  if_neg (Nat.ne_of_lt h)

theorem toUint64_toInt64 {n : Nat} (h : n < 2 ^ 64) : toUint64 (toInt64 n) = n := by
  unfold toInt64 toUint64
  split_ifs <;> omega

/-- The offset is a `uint64` and the position an `int64`. -/
def InFields (e : Nat × Int) : Prop := e.1 < 2 ^ 64 ∧ -2 ^ 63 ≤ e.2 ∧ e.2 < 2 ^ 63

/-- Whatever the bytes are, they are read as values of the two types. -/
theorem entryAt_inFields (buf : Bytes) (i : Nat) : InFields (entryAt buf i) := by
  have hfield : ∀ pos, beNat (slice buf pos 8) < 2 ^ 64 := by
    intro pos
    have hwidth : (slice buf pos 8).length ≤ 8 := by
      rw [slice_length]
      exact Nat.min_le_left _ _
    exact Nat.lt_of_lt_of_le (beNat_lt _) (Nat.pow_le_pow_right (by decide) hwidth)
  have hpos := hfield (i * indexEntryBytes + 8)
  refine ⟨hfield _, ?_⟩
  -- the conversion to `int64` wraps at half of the range
  simp only [entryAt, toInt64]
  split_ifs <;> omega

/-- An entry that is read is the one that stands in the file. -/
theorem entryBytes_entryAt {buf : Bytes} {i : Nat} (h : (i + 1) * indexEntryBytes ≤ buf.length) :
    entryBytes (entryAt buf i).1 (entryAt buf i).2 =
      slice buf (i * indexEntryBytes) indexEntryBytes := by
  rw [Nat.succ_mul] at h
  have hwidth : indexEntryBytes = 8 + 8 := rfl
  -- eight bytes back and forth, for either field
  have hoff := beBytes_beNat (slice buf (i * indexEntryBytes) 8)
  have hpos := beBytes_beNat (slice buf (i * indexEntryBytes + 8) 8)
  have hlt := beNat_lt (slice buf (i * indexEntryBytes + 8) 8)
  rw [slice_length_of_le (by omega)] at hoff hpos hlt
  rw [entryBytes, entryAt, toUint64_toInt64 hlt, hoff, hpos, ← slice_add, ← hwidth]

/-- The outcomes of `Checkpoint`. -/
inductive CheckpointOutcome (s : InMemoryStore) (offset : Nat) (position : Int)
    (o : WriteOutcome) : InMemoryStore → Prop where
  /-- Counted and dropped. -/
  | skipped : CheckpointOutcome s offset position o { s with n := s.n + 1 }
  | written : CheckpointOutcome s offset position o
      { s with
        n := 0
        indexFile := s.indexFile ++ entryBytes offset position
        offsets := s.offsets ++ [offset]
        positions := s.positions ++ [position] }
  /-- The write failed and left `m` bytes of the entry. -/
  | failed (m) : m < indexEntryBytes → (o.Atomic → m = 0) →
      CheckpointOutcome s offset position o
        { s with n := 0, indexFile := s.indexFile ++ (entryBytes offset position).take m }

theorem checkpoint_outcome (s : InMemoryStore) (offset : Nat) (position : Int)
    (o : WriteOutcome) :
    CheckpointOutcome s offset position o (s.checkpoint offset position o) := by
  unfold InMemoryStore.checkpoint
  -- the counter decides first, then the write
  by_cases hskip : s.nthIndex > 0 ∧ s.n + 1 < s.nthIndex
  · simp only [hskip, and_self, if_true]
    exact .skipped
  · simp only [hskip, if_false]
    cases hok : (fileWrite s.indexFile (entryBytes offset position) o).2 with
    | true =>
      simp only [if_true, (fileWrite_eq_true hok).1]
      exact .written
    | false =>
      obtain ⟨m, hm, hfile, hzero⟩ := fileWrite_eq_false (entryBytes_ne_nil _ _) hok
      rw [entryBytes_length] at hm
      simp only [Bool.false_eq_true, if_false, hfile]
      exact .failed m hm hzero

/-! ## Index files -/

/-- The bytes of a list of entries. -/
def entriesBytes (es : List (Nat × Int)) : Bytes := es.flatMap fun e => entryBytes e.1 e.2

/-- The whole entries of an index file. -/
def fileEntries (buf : Bytes) : List (Nat × Int) :=
  (List.range (buf.length / indexEntryBytes)).map (entryAt buf)

section Files

variable {es : List (Nat × Int)} {buf : Bytes}

theorem entriesBytes_length (es : List (Nat × Int)) :
    (entriesBytes es).length = es.length * indexEntryBytes := by
  induction es with
  | nil => rfl
  | cons e es ih =>
    rw [entriesBytes, List.flatMap_cons, List.length_append, entryBytes_length, List.length_cons,
      Nat.succ_mul, Nat.add_comm]
    exact congrArg (· + indexEntryBytes) ih

theorem entriesBytes_concat (es : List (Nat × Int)) (e : Nat × Int) :
    entriesBytes (es ++ [e]) = entriesBytes es ++ entryBytes e.1 e.2 := by
  simp [entriesBytes]

/-- The first entry of a file. -/
theorem entryAt_zero {e : Nat × Int} (he : InFields e) (buf : Bytes) :
    entryAt (entryBytes e.1 e.2 ++ buf) 0 = e := by
  obtain ⟨hoff, hlow, hhigh⟩ := he
  -- the two fields lie between known parts
  have hfirst := slice_middle [] (beBytes 8 e.1) (beBytes 8 (toUint64 e.2) ++ buf)
  have hsecond := slice_middle (beBytes 8 e.1) (beBytes 8 (toUint64 e.2)) buf
  simp only [beBytes_length, List.length_nil, List.nil_append] at hfirst hsecond
  have hu := toUint64_lt e.2
  rw [entryAt, Nat.zero_mul, Nat.zero_add, entryBytes, List.append_assoc, hfirst, hsecond,
    beNat_beBytes (by omega), beNat_beBytes (by omega), toInt64_toUint64 hlow hhigh]

/-- The other entries are those of the rest of the file. -/
theorem entryAt_succ (e : Nat × Int) (buf : Bytes) (i : Nat) :
    entryAt (entryBytes e.1 e.2 ++ buf) (i + 1) = entryAt buf i := by
  have hshift : (i + 1) * indexEntryBytes = (entryBytes e.1 e.2).length + i * indexEntryBytes := by
    rw [entryBytes_length, Nat.succ_mul, Nat.add_comm]
  rw [entryAt, entryAt, hshift, Nat.add_assoc, slice_append_right, slice_append_right]

theorem fileEntries_cons {e : Nat × Int} (he : InFields e) (buf : Bytes) :
    fileEntries (entryBytes e.1 e.2 ++ buf) = e :: fileEntries buf := by
  have hcount : (entryBytes e.1 e.2 ++ buf).length / indexEntryBytes =
      buf.length / indexEntryBytes + 1 := by
    rw [List.length_append, entryBytes_length, Nat.add_comm]
    exact Nat.add_div_right _ (by decide)
  rw [fileEntries, hcount, List.range_succ_eq_map, List.map_cons, List.map_map, entryAt_zero he]
  exact congrArg (e :: ·) (List.map_congr_left fun i _ => entryAt_succ e buf i)

/-- **Round trip**: the entries of a file that was written entry by entry. -/
theorem fileEntries_entriesBytes (h : ∀ e ∈ es, InFields e) :
    fileEntries (entriesBytes es) = es := by
  induction es with
  | nil => rfl
  | cons e es ih =>
    rw [entriesBytes, List.flatMap_cons, fileEntries_cons (h e List.mem_cons_self)]
    exact congrArg (e :: ·) (ih fun e' he' => h e' (List.mem_cons_of_mem e he'))

/-- A cut inside an entry drops that entry. -/
theorem fileEntries_take (buf : Bytes) (j : Nat) :
    fileEntries (buf.take j) = (fileEntries buf).take (j / indexEntryBytes) := by
  have hcount : min j buf.length / indexEntryBytes =
      min (j / indexEntryBytes) (buf.length / indexEntryBytes) := by
    unfold indexEntryBytes
    omega
  rw [fileEntries, fileEntries, List.length_take, hcount, ← List.map_take, List.take_range]
  refine List.map_congr_left fun i hi => ?_
  -- entry `i` lies before the cut
  have hi' : (i + 1) * indexEntryBytes ≤ j := by
    have hlt := List.mem_range.mp hi
    unfold indexEntryBytes at hlt ⊢
    omega
  have hwidth : indexEntryBytes = 8 + 8 := rfl
  rw [Nat.succ_mul] at hi'
  rw [entryAt, entryAt, slice_take (by omega), slice_take (by omega)]

/-- The first `n` entries are the bytes they were read from. -/
theorem entriesBytes_take {n : Nat} (h : n ≤ buf.length / indexEntryBytes) :
    entriesBytes ((fileEntries buf).take n) = buf.take (n * indexEntryBytes) := by
  have hfits : n * indexEntryBytes ≤ buf.length := by
    unfold indexEntryBytes at h ⊢
    omega
  rw [fileEntries, ← List.map_take, List.take_range, Nat.min_eq_left h]
  clear h
  -- one entry after the other
  induction n with
  | zero => rw [Nat.zero_mul]; rfl
  | succ n ih =>
    have hprev : n * indexEntryBytes ≤ buf.length := by
      rw [Nat.succ_mul] at hfits
      omega
    rw [List.range_succ, List.map_append, List.map_singleton, entriesBytes_concat, ih hprev,
      entryBytes_entryAt hfits, Nat.succ_mul, List.take_add]
    rfl

end Files

/-! ## Loading -/

/-- One checkpoint lies above another in offset and position. -/
def Above (e e' : Nat × Int) : Prop := e.1 < e'.1 ∧ e.2 < e'.2

theorem Above.trans {a b c : Nat × Int} (h : Above a b) (h' : Above b c) : Above a c :=
  ⟨Nat.lt_trans h.1 h'.1, Int.lt_trans h.2 h'.2⟩

instance : IsTrans (Nat × Int) Above := ⟨fun _ _ _ => Above.trans⟩

instance : DecidableRel Above := fun _ _ => inferInstanceAs (Decidable (_ ∧ _))

/-- **Specification of the loop**: behind the last entry kept, it keeps the longest part
    that goes on ascending. -/
theorem loadLoop_isFront (buf : Bytes) (count i : Nat) (last : Option (Nat × Int)) :
    IsFront Above (last.toList ++ (List.range' i count).map (entryAt buf))
      (last.toList ++ InMemoryStore.loadLoop buf count i last) := by
  induction count generalizing i last with
  | zero =>
    refine IsFront.self ?_
    cases last <;> simp
  | succ count ih =>
    rw [List.range'_succ, List.map_cons, InMemoryStore.loadLoop]
    -- the first entry is always kept
    cases last with
    | none => exact ih (i + 1) (some (entryAt buf i))
    | some l =>
      by_cases habove : Above l (entryAt buf i)
      · have hkeep : ((some l).any fun l => decide ((entryAt buf i).1 ≤ l.1) ||
            decide ((entryAt buf i).2 ≤ l.2)) = false := by
          simpa [Above] using habove
        simp only [hkeep]
        exact IsFront.cons habove (ih (i + 1) (some (entryAt buf i)))
      · -- an entry that does not ascend ends the load
        have hstop : ((some l).any fun l => decide ((entryAt buf i).1 ≤ l.1) ||
            decide ((entryAt buf i).2 ≤ l.2)) = true := by
          simp only [Above, not_and_or, Nat.not_lt, Int.not_lt] at habove
          simpa using habove
        simp only [hstop, if_true]
        exact isFront_stop habove

/-- On a whole file it keeps the longest ascending prefix of the entries. -/
theorem loadLoop_front (buf : Bytes) : IsFront Above (fileEntries buf)
    (InMemoryStore.loadLoop buf (buf.length / indexEntryBytes) 0 none) := by
  rw [fileEntries, List.range_eq_range']
  exact loadLoop_isFront buf _ 0 none

/-- **Specification of `LoadCheckpoints`**: the longest ascending prefix of the entries of
    the file, in memory and on disk. -/
theorem loadCheckpoints_eq {s : InMemoryStore} {kept : List (Nat × Int)}
    (h : IsFront Above (fileEntries s.indexFile) kept) :
    s.loadCheckpoints =
      { s with
        offsets := kept.map Prod.fst
        positions := kept.map Prod.snd
        indexFile := entriesBytes kept } := by
  -- the load cuts the file behind the entries it kept
  have hloop := (loadLoop_front s.indexFile).unique h
  have hlen : kept.length ≤ s.indexFile.length / indexEntryBytes := by
    have hle := h.isPrefix.length_le
    rwa [fileEntries, List.length_map, List.length_range] at hle
  have hfile := entriesBytes_take hlen
  rw [← h.eq_take] at hfile
  simp only [InMemoryStore.loadCheckpoints, hloop, hfile]

/-- A part of an entry at the end of the file is not looked at. -/
theorem loadCheckpoints_take (buf : Bytes) (nth : Nat) :
    (newInMemoryStore (buf.take (buf.length / indexEntryBytes * indexEntryBytes))
        nth).loadCheckpoints = (newInMemoryStore buf nth).loadCheckpoints := by
  have hfront := loadLoop_front buf
  have hsame : fileEntries (buf.take (buf.length / indexEntryBytes * indexEntryBytes)) =
      fileEntries buf := by
    rw [fileEntries_take, Nat.mul_div_cancel _ (by decide)]
    exact List.take_of_length_le (by simp [fileEntries])
  rw [loadCheckpoints_eq (s := newInMemoryStore buf nth) hfront,
    loadCheckpoints_eq (s := newInMemoryStore (buf.take _) nth) (hsame.symm ▸ hfront)]
  rfl

/-- The store holds the entries `es`, in memory and on disk. -/
structure Holds (es : List (Nat × Int)) (s : InMemoryStore) : Prop where
  offsets : s.offsets = es.map Prod.fst
  positions : s.positions = es.map Prod.snd
  file : s.indexFile = entriesBytes es
  ascending : es.Pairwise Above

/-- `r` is the entry with the greatest offset at or below `x`, if there is one. -/
def IsFloor (es : List (Nat × Int)) (x : Nat) : Option (Nat × Int) → Prop
  | none => ∀ e ∈ es, x < e.1
  | some e => e ∈ es ∧ e.1 ≤ x ∧ ∀ e' ∈ es, e'.1 ≤ x → e'.1 ≤ e.1

section Holds

variable {es : List (Nat × Int)} {s : InMemoryStore}

/-- `LoadCheckpoints` leaves a store that holds what it kept. -/
theorem holds_loadCheckpoints {kept : List (Nat × Int)}
    (h : IsFront Above (fileEntries s.indexFile) kept) : Holds kept s.loadCheckpoints := by
  rw [loadCheckpoints_eq h]
  exact ⟨rfl, rfl, rfl, h.ascending⟩

/-- Loading a file that was written entry by entry. -/
theorem loadCheckpoints_of_file (hfile : s.indexFile = entriesBytes es)
    (hasc : es.Pairwise Above) (hfields : ∀ e ∈ es, InFields e) :
    s.loadCheckpoints =
      { s with offsets := es.map Prod.fst, positions := es.map Prod.snd } := by
  have hfront : IsFront Above (fileEntries s.indexFile) es := by
    rw [hfile, fileEntries_entriesBytes hfields]
    exact IsFront.self hasc
  rw [loadCheckpoints_eq hfront, ← hfile]

/-- Loading again changes nothing. -/
theorem Holds.loadCheckpoints (h : Holds es s) (hfields : ∀ e ∈ es, InFields e) :
    s.loadCheckpoints = s := by
  rw [loadCheckpoints_of_file h.file h.ascending hfields, ← h.offsets, ← h.positions]

/-- **Specification of `Floor`.** -/
theorem Holds.floor (h : Holds es s) (x : Nat) : IsFloor es x (s.floor x) := by
  have hasc : (es.map Prod.fst).Pairwise (· < ·) :=
    List.pairwise_map.mpr (h.ascending.imp And.left)
  unfold InMemoryStore.floor
  rw [h.offsets, h.positions]
  -- the search finds nothing at or before `x`, or the entry it points at is the floor
  by_cases hzero : searchAbove (es.map Prod.fst) x = 0
  · simp only [hzero, if_true]
    intro e he
    exact lt_of_searchAbove_eq_zero hasc hzero e.1 (List.mem_map_of_mem he)
  · obtain ⟨hle, hgreatest⟩ := searchAbove_greatest hasc hzero
    have hlen := (searchAbove_spec hasc x).1
    rw [List.length_map] at hlen
    set i := searchAbove (es.map Prod.fst) x - 1
    have hi : i < es.length := by omega
    -- the two lists hold the two parts of one entry
    have hoff : (es.map Prod.fst).getD i 0 = es[i].1 := by
      rw [List.getD_eq_getElem _ _ (by simpa using hi), List.getElem_map]
    have hpos : (es.map Prod.snd).getD i 0 = es[i].2 := by
      rw [List.getD_eq_getElem _ _ (by simpa using hi), List.getElem_map]
    rw [hoff] at hle hgreatest
    rw [if_neg hzero, hoff, hpos]
    refine ⟨List.getElem_mem hi, hle, fun e he hex => ?_⟩
    exact hgreatest e.1 (List.mem_map_of_mem he) hex

/-- **Specification of `Checkpoint`** for an entry above the others, when the write is
    atomic. -/
theorem Holds.checkpoint (h : Holds es s) {e : Nat × Int} {o : WriteOutcome}
    (habove : ∀ e' ∈ es, Above e' e) (ho : o.Atomic) :
    ∃ es', Holds es' (s.checkpoint e.1 e.2 o) ∧ (es' = es ∨ es' = es ++ [e]) := by
  have hout := checkpoint_outcome s e.1 e.2 o
  generalize s.checkpoint e.1 e.2 o = s' at hout ⊢
  cases hout with
  | skipped => exact ⟨es, ⟨h.offsets, h.positions, h.file, h.ascending⟩, Or.inl rfl⟩
  | written =>
    refine ⟨es ++ [e], ⟨?_, ?_, ?_, ?_⟩, Or.inr rfl⟩
    · simp [h.offsets]
    · simp [h.positions]
    · simp [h.file, entriesBytes_concat]
    · refine List.pairwise_append.mpr ⟨h.ascending, List.pairwise_singleton .., ?_⟩
      intro a ha b hb
      rw [List.mem_singleton.mp hb]
      exact habove a ha
  -- an atomic failure leaves the file as it was
  | failed m _ hzero =>
    refine ⟨es, ⟨h.offsets, h.positions, ?_, h.ascending⟩, Or.inl rfl⟩
    simp [h.file, hzero ho]

end Holds

/-! ## True checkpoints -/

/-- The bytes of the true checkpoints `cps` of a log. -/
def indexBytes (cs : Checksum) (recs : List Bytes) (cps : List Nat) : Bytes :=
  cps.flatMap fun k => entryBytes k (startOf cs recs k)

/-- The true checkpoint of a record. -/
def trueEntry (cs : Checksum) (recs : List Bytes) (k : Nat) : Nat × Int :=
  (k, (startOf cs recs k : Int))

/-- The store holds the true checkpoints `cps` of the log `recs`, in memory and on disk. -/
structure Indexes (cs : Checksum) (recs : List Bytes) (cps : List Nat) (s : InMemoryStore) :
    Prop where
  offsets : s.offsets = cps
  positions : s.positions = cps.map fun k => (startOf cs recs k : Int)
  file : s.indexFile = indexBytes cs recs cps
  ascending : cps.Pairwise (· < ·)
  lt : ∀ k ∈ cps, k < recs.length

section Indexes

variable {cs : Checksum} {recs : List Bytes} {cps : List Nat} {s : InMemoryStore}

theorem indexBytes_eq (cs : Checksum) (recs : List Bytes) (cps : List Nat) :
    indexBytes cs recs cps = entriesBytes (cps.map (trueEntry cs recs)) := by
  rw [entriesBytes, List.flatMap_map]
  rfl

theorem indexBytes_length (cs : Checksum) (recs : List Bytes) (cps : List Nat) :
    (indexBytes cs recs cps).length = cps.length * indexEntryBytes := by
  rw [indexBytes_eq, entriesBytes_length, List.length_map]

/-- Records stand in the file in the order of their offsets. -/
theorem trueEntry_above {k k' : Nat} (h : k < k') (hk : k < recs.length) :
    Above (trueEntry cs recs k) (trueEntry cs recs k') :=
  ⟨h, Int.ofNat_lt.mpr (startOf_lt h hk)⟩

theorem trueEntries_ascending (hasc : cps.Pairwise (· < ·)) (hlt : ∀ k ∈ cps, k < recs.length) :
    (cps.map (trueEntry cs recs)).Pairwise Above :=
  List.pairwise_map.mpr (hasc.imp_of_mem fun ha _ hab => trueEntry_above hab (hlt _ ha))

/-- True checkpoints are entries like any other. -/
theorem indexes_iff_holds : Indexes cs recs cps s ↔
    Holds (cps.map (trueEntry cs recs)) s ∧ ∀ k ∈ cps, k < recs.length := by
  -- an entry is its offset and the place the offset starts at
  have hfst : (cps.map (trueEntry cs recs)).map Prod.fst = cps := by
    rw [List.map_map]
    exact List.map_id cps
  have hsnd : (cps.map (trueEntry cs recs)).map Prod.snd =
      cps.map fun k => (startOf cs recs k : Int) := List.map_map
  constructor
  · rintro ⟨hoff, hpos, hfile, hasc, hlt⟩
    refine ⟨⟨?_, ?_, ?_, trueEntries_ascending hasc hlt⟩, hlt⟩
    · rw [hoff, hfst]
    · rw [hpos, hsnd]
    · rw [hfile, indexBytes_eq]
  · rintro ⟨⟨hoff, hpos, hfile, hasc⟩, hlt⟩
    refine ⟨?_, ?_, ?_, (List.pairwise_map.mp hasc).imp And.left, hlt⟩
    · rw [hoff, hfst]
    · rw [hpos, hsnd]
    · rw [hfile, indexBytes_eq]

/-- **Specification of `Floor`**: the greatest true checkpoint at or below the target. -/
theorem Indexes.floor (h : Indexes cs recs cps s) (x : Nat) :
    (s.floor x = none ∧ ∀ k ∈ cps, x < k) ∨
      ∃ k ∈ cps, k ≤ x ∧ (∀ k' ∈ cps, k' ≤ x → k' ≤ k) ∧
        s.floor x = some (k, (startOf cs recs k : Int)) := by
  have hfloor := (indexes_iff_holds.mp h).1.floor x
  cases hx : s.floor x with
  | none =>
    rw [hx] at hfloor
    exact Or.inl ⟨rfl, fun k hk => hfloor _ (List.mem_map_of_mem hk)⟩
  | some e =>
    rw [hx] at hfloor
    obtain ⟨hmem, hle, hgreatest⟩ := hfloor
    obtain ⟨k, hk, rfl⟩ := List.mem_map.mp hmem
    exact Or.inr ⟨k, hk, hle, fun k' hk' => hgreatest _ (List.mem_map_of_mem hk'), rfl⟩

/-- Checkpoints stay true in any log that has the checkpointed records where they were. -/
theorem Indexes.transfer (h : Indexes cs recs cps s) {recs' : List Bytes}
    (hpos : ∀ k ∈ cps, startOf cs recs' k = startOf cs recs k) (hlt : ∀ k ∈ cps, k < recs'.length) :
    Indexes cs recs' cps s where
  offsets := h.offsets
  positions := by
    rw [h.positions]
    exact List.map_congr_left fun k hk => by rw [hpos k hk]
  file := by
    rw [h.file, indexBytes, indexBytes, List.flatMap_def, List.flatMap_def]
    exact congrArg _ (List.map_congr_left fun k hk => by rw [hpos k hk])
  ascending := h.ascending
  lt := hlt

/-- Appending records leaves true checkpoints true. -/
theorem Indexes.append (h : Indexes cs recs cps s) (recs' : List Bytes) :
    Indexes cs (recs ++ recs') cps s :=
  h.transfer (fun k hk => startOf_append _ (Nat.le_of_lt (h.lt k hk)))
    fun k hk => by
      rw [List.length_append]
      exact Nat.lt_of_lt_of_le (h.lt k hk) (Nat.le_add_right _ _)

/-- Dropping records behind the last checkpoint leaves true checkpoints true. -/
theorem Indexes.take (h : Indexes cs recs cps s) {m : Nat} (hm : ∀ k ∈ cps, k < m) :
    Indexes cs (recs.take m) cps s :=
  h.transfer (fun k hk => startOf_take (Nat.le_of_lt (hm k hk))) fun k hk => by
    rw [List.length_take]
    have := h.lt k hk
    have := hm k hk
    omega

/-- **Specification of `Checkpoint`** for the next record, when the write is atomic. -/
theorem Indexes.checkpoint (h : Indexes cs recs cps s) {k : Nat} {o : WriteOutcome}
    (ho : o.Atomic) (habove : ∀ k' ∈ cps, k' < k) (hk : k < recs.length) :
    ∃ cps', Indexes cs recs cps' (s.checkpoint k (startOf cs recs k) o) ∧
      (cps' = cps ∨ cps' = cps ++ [k]) := by
  obtain ⟨hholds, hlt⟩ := indexes_iff_holds.mp h
  -- the record is behind all that have a checkpoint
  have htrue : ∀ e ∈ cps.map (trueEntry cs recs), Above e (trueEntry cs recs k) := by
    intro e he
    obtain ⟨k', hk', rfl⟩ := List.mem_map.mp he
    exact trueEntry_above (habove k' hk') (hlt k' hk')
  obtain ⟨es, hes, rfl | rfl⟩ := hholds.checkpoint htrue ho
  · exact ⟨cps, indexes_iff_holds.mpr ⟨hes, hlt⟩, Or.inl rfl⟩
  · refine ⟨cps ++ [k], indexes_iff_holds.mpr ⟨?_, fun k' hk' => ?_⟩, Or.inr rfl⟩
    · rw [List.map_append]
      exact hes
    · rcases List.mem_append.mp hk' with hk' | hk'
      · exact hlt k' hk'
      · rwa [List.mem_singleton.mp hk']

/-- Positions and offsets of checkpoints fit their fields, since files are bounded. -/
theorem trueEntry_inFields (hlt : ∀ k ∈ cps, k < recs.length)
    (hsize : (encodeAll cs recs).length ≤ maxFileSize) :
    ∀ e ∈ cps.map (trueEntry cs recs), InFields e := by
  intro e he
  obtain ⟨k, hk, rfl⟩ := List.mem_map.mp he
  have hstart := startOf_le cs recs k
  have hcount := length_le_encodeAll cs recs
  have hk := hlt k hk
  unfold maxFileSize at hsize
  refine ⟨?_, ?_, ?_⟩ <;> simp only [trueEntry] <;> omega

/-- **Specification of `LoadCheckpoints`** on any sequence of true checkpoints, cut at any
    byte: the strictly ascending front of the entries that are left comes back. -/
theorem Indexes.load_front (hlt : ∀ k ∈ cps, k < recs.length)
    (hsize : (encodeAll cs recs).length ≤ maxFileSize) {j : Nat}
    (hfile : s.indexFile = (indexBytes cs recs cps).take j) :
    ∃ n, Indexes cs recs (cps.take n) s.loadCheckpoints ∧
      (cps.Pairwise (· < ·) → cps.take n = cps.take (j / indexEntryBytes)) := by
  -- a cut through an entry loses that entry
  have hleft : fileEntries s.indexFile =
      (cps.take (j / indexEntryBytes)).map (trueEntry cs recs) := by
    rw [hfile, indexBytes_eq, fileEntries_take,
      fileEntries_entriesBytes (trueEntry_inFields hlt hsize), List.map_take]
  have hfront := loadLoop_front s.indexFile
  set kept := InMemoryStore.loadLoop s.indexFile (s.indexFile.length / indexEntryBytes) 0 none
  have hholds := holds_loadCheckpoints hfront
  rw [hleft] at hfront
  -- what is kept is again a list of true checkpoints
  have hkept : kept = ((cps.take (j / indexEntryBytes)).take kept.length).map
      (trueEntry cs recs) := by
    rw [List.map_take]
    exact hfront.eq_take
  rw [List.take_take] at hkept
  refine ⟨min kept.length (j / indexEntryBytes), indexes_iff_holds.mpr ⟨hkept ▸ hholds, ?_⟩, ?_⟩
  · exact fun k hk => hlt k (List.mem_of_mem_take hk)
  · -- ascending checkpoints are all kept
    intro hasc
    have hasc' := hasc.sublist (List.take_sublist (j / indexEntryBytes) cps)
    have hall := hfront.eq_self
      (trueEntries_ascending hasc' fun k hk => hlt k (List.mem_of_mem_take hk))
    rw [hall, List.length_map, ← List.take_take, List.take_length]

/-- **Specification of `LoadCheckpoints`** on an index file cut at any byte: the entries
    that are left come back. -/
theorem Indexes.load (hasc : cps.Pairwise (· < ·)) (hlt : ∀ k ∈ cps, k < recs.length)
    (hsize : (encodeAll cs recs).length ≤ maxFileSize) {j : Nat}
    (hfile : s.indexFile = (indexBytes cs recs cps).take j) :
    Indexes cs recs (cps.take (j / indexEntryBytes)) s.loadCheckpoints := by
  obtain ⟨n, hidx, hall⟩ := Indexes.load_front hlt hsize hfile
  rwa [← hall hasc]

/-- An index file that was not cut comes back as it is. -/
theorem Indexes.load_all (hasc : cps.Pairwise (· < ·)) (hlt : ∀ k ∈ cps, k < recs.length)
    (hsize : (encodeAll cs recs).length ≤ maxFileSize) (nth : Nat) :
    Indexes cs recs cps (newInMemoryStore (indexBytes cs recs cps) nth).loadCheckpoints := by
  have hentries : (cps.map (trueEntry cs recs)).Pairwise Above := trueEntries_ascending hasc hlt
  have hfile := indexBytes_eq cs recs cps
  rw [loadCheckpoints_of_file (s := newInMemoryStore (indexBytes cs recs cps) nth) hfile hentries
    (trueEntry_inFields hlt hsize)]
  exact indexes_iff_holds.mpr ⟨⟨rfl, rfl, hfile, hentries⟩, hlt⟩

/-- A store that holds true checkpoints loads itself. -/
theorem Indexes.loadCheckpoints (h : Indexes cs recs cps s)
    (hsize : (encodeAll cs recs).length ≤ maxFileSize) : s.loadCheckpoints = s :=
  (indexes_iff_holds.mp h).1.loadCheckpoints (trueEntry_inFields h.lt hsize)

end Indexes

end EventLog.Wal
