import EventLog.Lib.Decimal
import EventLog.Segment.Deletion
import Mathlib.Data.List.Sort

/-!
# Finding the segments of a directory

`Open` lists the directory and takes every entry whose name is a number followed by ".log"
for a segment.  It then opens the file with the canonical name of that number: twenty digits,
padded with zeros.  `strconv.ParseUint` also accepts other spellings, and `IsDir` refuses
directories only, so an entry that is not a segment file can add a segment or repeat one
(`discovery_adds_shortName`).  `discovery_exact_iff` says which listings are read exactly.
-/

namespace EventLog.Segments

open EventLog.Lib EventLog.Wal

/-! ## Names -/

/-- ".log" -/
def segmentSuffix : Bytes := [46, 108, 111, 103]

def baseOffsetDigits : Nat := 20

/-- `SegmentFileName`. -/
def segmentFileName (baseOffset : Nat) : Bytes :=
  paddedDecimal baseOffsetDigits baseOffset ++ segmentSuffix

/-- `strings.TrimSuffix(name, segmentSuffix)`. -/
def trimSuffix (name : Bytes) : Bytes :=
  if segmentSuffix <:+ name then name.take (name.length - segmentSuffix.length) else name

/-- The loop of `strconv.ParseUint(s, 10, 64)`; both of its errors are `none`. -/
def parseUintLoop : Nat → Bytes → Option Nat
  | n, [] => some n
  | n, c :: s =>
    -- a letter is a digit of a larger base, anything else no digit at all
    if ¬IsDigit c then none
    -- the next product would not fit
    else if n ≥ maxUint64 / 10 + 1 then none
    else
      let n := n * 10
      let n₁ := (n + digitVal c) % 2 ^ 64
      if n₁ < n ∨ n₁ > maxUint64 then none else parseUintLoop n₁ s

/-- `strconv.ParseUint(s, 10, 64)`. -/
def parseUint (s : Bytes) : Option Nat := if s = [] then none else parseUintLoop 0 s

/-- What `os.ReadDir` says of the type of an entry. -/
inductive FileKind where
  | regular
  | directory
  /-- A symbolic link, a pipe, a device, … -/
  | other
  deriving DecidableEq, Repr

structure DirEntry where
  name : Bytes
  kind : FileKind
  deriving DecidableEq, Repr

/-- What `os.ReadDir` returns: no name occurs twice. -/
structure Listing where
  entries : List DirEntry
  nodup : (entries.map DirEntry.name).Nodup

/-- The base offset `discoverBaseOffsets` reads off an entry, if it does not skip it. -/
def DirEntry.base (e : DirEntry) : Option Nat :=
  if e.kind = .directory ∨ ¬segmentSuffix <:+ e.name then none else parseUint (trimSuffix e.name)

/-- `discoverBaseOffsets`. -/
def discoverBaseOffsets (l : Listing) : List Nat :=
  (l.entries.filterMap DirEntry.base).insertionSort (· ≤ ·)

/-! ## The parser -/

section Parser

variable {s stem : Bytes} {n b : Nat}

theorem parseUintLoop_eq_some (hn : n < 2 ^ 64) :
    parseUintLoop n s = some b ↔ (∀ c ∈ s, IsDigit c) ∧ decimalFrom n s = b ∧ b < 2 ^ 64 := by
  induction s generalizing n with
  | nil =>
    simp only [parseUintLoop, decimalFrom, List.foldl_nil, Option.some.injEq]
    constructor
    · rintro rfl
      exact ⟨by simp, rfl, hn⟩
    · exact fun h => h.2.1
  | cons c s ih =>
    have hstep : decimalFrom n (c :: s) = decimalFrom (n * 10 + digitVal c) s := rfl
    have hge := le_decimalFrom (n * 10 + digitVal c) s
    rw [parseUintLoop, hstep, List.forall_mem_cons]
    -- a character that is no digit ends the parse with an error
    by_cases hc : IsDigit c
    · have hlt := hc.digitVal_lt
      rw [if_neg (not_not.mpr hc)]
      -- a number that does not fit now does not fit later either
      by_cases hbig : n * 10 + digitVal c < 2 ^ 64
      · rw [if_neg (by simp only [maxUint64]; omega)]
        simp only
        rw [Nat.mod_eq_of_lt hbig, if_neg (by simp only [maxUint64]; omega), ih hbig]
        simp [hc]
      · refine iff_of_false ?_ (by omega)
        -- the two overflow tests of the source: before the multiplication and after the addition
        by_cases hcut : n ≥ maxUint64 / 10 + 1
        · simp [hcut]
        · rw [if_neg hcut, if_pos]
          · simp
          · simp only [maxUint64] at hcut ⊢
            omega
    · rw [if_pos hc]
      simp [hc]

/-- **Specification of `ParseUint`**: a nonempty string of digits, with a value that fits. -/
theorem parseUint_eq_some :
    parseUint s = some b ↔
      s ≠ [] ∧ (∀ c ∈ s, IsDigit c) ∧ decimalValue s = b ∧ b < 2 ^ 64 := by
  unfold parseUint
  split_ifs with hs
  · simp [hs]
  · rw [parseUintLoop_eq_some (by decide)]
    simp [hs, decimalValue]

theorem trimSuffix_append : trimSuffix (stem ++ segmentSuffix) = stem := by
  rw [trimSuffix, if_pos (List.suffix_append _ _), List.length_append, Nat.add_sub_cancel,
    List.take_left]

end Parser

/-! ## Exactness -/

/-- The listing has the file of the segment that starts at `b`. -/
def Listing.HasSegment (l : Listing) (b : Nat) : Prop :=
  b < 2 ^ 64 ∧ ∃ e ∈ l.entries, e.kind = .regular ∧ e.name = segmentFileName b

/-- `bases` are the segments of the listing, ascending and without repeats. -/
structure Exact (l : Listing) (bases : List Nat) : Prop where
  ascending : bases.Pairwise (· < ·)
  mem_iff : ∀ b, b ∈ bases ↔ l.HasSegment b

/-- Whatever is named by a number that fits and ".log", directories apart, is a regular file
    and its number has twenty digits. -/
def Listing.Canonical (l : Listing) : Prop :=
  ∀ e ∈ l.entries, e.kind ≠ .directory → ∀ stem, e.name = stem ++ segmentSuffix → stem ≠ [] →
    (∀ c ∈ stem, IsDigit c) → decimalValue stem < 2 ^ 64 →
    e.kind = .regular ∧ stem.length = baseOffsetDigits

section Exactness

variable {l : Listing} {e e' : DirEntry} {b : Nat} {bases bases' : List Nat}

/-- What an entry has to look like to be taken for the segment at `b`. -/
theorem base_eq_some :
    e.base = some b ↔ e.kind ≠ .directory ∧ ∃ stem, e.name = stem ++ segmentSuffix ∧ stem ≠ [] ∧
      (∀ c ∈ stem, IsDigit c) ∧ decimalValue stem = b ∧ b < 2 ^ 64 := by
  unfold DirEntry.base
  -- a directory or a file of another kind is skipped
  split_ifs with hskip
  · refine iff_of_false (by simp) ?_
    rintro ⟨hdir, stem, hname, -⟩
    rcases hskip with h | h
    · exact hdir h
    · exact h ⟨stem, hname.symm⟩
  · -- a log file is taken if what is left of its name is a number that fits
    simp only [not_or, not_not] at hskip
    obtain ⟨hdir, stem, hstem⟩ := hskip
    rw [← hstem, trimSuffix_append, parseUint_eq_some]
    constructor
    · exact fun h => ⟨hdir, stem, rfl, h⟩
    · rintro ⟨-, stem', hname, h⟩
      rwa [← List.append_cancel_right hname] at h

/-- The canonical name is read back. -/
theorem base_of_segmentFileName (hb : b < 2 ^ 64) (hkind : e.kind = .regular)
    (hname : e.name = segmentFileName b) : e.base = some b := by
  have hdigits : b < 10 ^ baseOffsetDigits := Nat.lt_trans hb (by decide)
  refine base_eq_some.mpr ⟨by rw [hkind]; decide, _, hname, ?_, fun c => paddedDecimal_isDigit,
    decimalValue_paddedDecimal _ _, hb⟩
  rw [← List.length_pos_iff, paddedDecimal_length hdigits]
  decide

/-- A canonical listing gives every segment its own name. -/
theorem Listing.Canonical.segmentFileName (h : l.Canonical) (he : e ∈ l.entries)
    (hbase : e.base = some b) : e.kind = .regular ∧ e.name = segmentFileName b := by
  obtain ⟨hdir, stem, hname, hne, hdigits, hval, hlt⟩ := base_eq_some.mp hbase
  obtain ⟨hkind, hlen⟩ := h e he hdir stem hname hne hdigits (hval ▸ hlt)
  refine ⟨hkind, ?_⟩
  rw [hname, Segments.segmentFileName, ← hval, ← hlen, paddedDecimal_decimalValue hdigits]

/-- If no number is repeated, no two entries give the same one. -/
theorem eq_of_base_eq (h : (l.entries.filterMap DirEntry.base).Nodup) (he : e ∈ l.entries)
    (he' : e' ∈ l.entries) (hb : e.base = some b) (hb' : e'.base = some b) : e = e' := by
  by_contra hne
  have hpair := List.pairwise_filterMap.mp h
  have hsymm : Std.Symm fun a a' : DirEntry => ∀ b, a.base = some b → ∀ b', a'.base = some b' →
      b ≠ b' := ⟨fun a a' hab b hb b' hb' => Ne.symm (hab b' hb' b hb)⟩
  exact hpair.forall he he' hne b hb b hb' rfl

/-- In a canonical listing every segment has one file. -/
theorem Listing.Canonical.nodup (h : l.Canonical) : (l.entries.filterMap DirEntry.base).Nodup := by
  refine List.pairwise_filterMap.mpr ?_
  have hnames : l.entries.Pairwise fun a a' => a.name ≠ a'.name := List.pairwise_map.mp l.nodup
  refine hnames.imp_of_mem fun {a a'} ha ha' hne b hb b' hb' heq => hne ?_
  subst heq
  rw [(h.segmentFileName ha hb).2, (h.segmentFileName ha' hb').2]

/-- Two exact answers are the same. -/
theorem Exact.eq (h : Exact l bases) (h' : Exact l bases') : bases = bases' := by
  have hperm : bases.Perm bases' := (List.perm_ext_iff_of_nodup
    (h.ascending.imp Nat.ne_of_lt) (h'.ascending.imp Nat.ne_of_lt)).mpr fun b => by
      rw [h.mem_iff, h'.mem_iff]
  exact hperm.eq_of_pairwise (fun a b _ _ hab hba => absurd hba (Nat.lt_asymm hab)) h.ascending
    h'.ascending

theorem mem_discoverBaseOffsets :
    b ∈ discoverBaseOffsets l ↔ ∃ e ∈ l.entries, e.base = some b := by
  rw [discoverBaseOffsets, List.mem_insertionSort, List.mem_filterMap]

/-- A canonical listing is read exactly. -/
theorem Listing.Canonical.exact (h : l.Canonical) : Exact l (discoverBaseOffsets l) where
  -- sorted and without a repetition
  ascending := by
    have hnodup : (discoverBaseOffsets l).Nodup :=
      (List.perm_insertionSort _ _).nodup_iff.mpr h.nodup
    exact ((List.pairwise_insertionSort (· ≤ ·) _).and hnodup).imp fun hab =>
      Nat.lt_of_le_of_ne hab.1 hab.2
  mem_iff b := by
    rw [mem_discoverBaseOffsets]
    constructor
    · rintro ⟨e, he, hbase⟩
      obtain ⟨-, -, -, -, -, -, hlt⟩ := base_eq_some.mp hbase
      exact ⟨hlt, e, he, h.segmentFileName he hbase⟩
    · rintro ⟨hlt, e, he, hkind, hname⟩
      exact ⟨e, he, base_of_segmentFileName hlt hkind hname⟩

/-- An entry that is read exactly is canonical: its number is reported, so the canonical file
    is there, and two entries do not give the same number. -/
theorem Exact.canonical (h : Exact l (discoverBaseOffsets l)) : l.Canonical := by
  intro e he hdir stem hname hne hdigits hlt
  have hbase : e.base = some (decimalValue stem) :=
    base_eq_some.mpr ⟨hdir, stem, hname, hne, hdigits, rfl, hlt⟩
  obtain ⟨-, e', he', hkind, hname'⟩ :=
    (h.mem_iff _).mp (mem_discoverBaseOffsets.mpr ⟨e, he, hbase⟩)
  have hnodup : (l.entries.filterMap DirEntry.base).Nodup :=
    (List.perm_insertionSort _ _).nodup_iff.mp (h.ascending.imp Nat.ne_of_lt)
  -- no two entries parse to one offset, so the file is the canonical one of its offset
  obtain rfl := eq_of_base_eq hnodup he he' hbase (base_of_segmentFileName hlt hkind hname')
  refine ⟨hkind, ?_⟩
  rw [hname, segmentFileName] at hname'
  rw [List.append_cancel_right hname', paddedDecimal_length (Nat.lt_trans hlt (by decide))]

/-- **`Open` on a canonical listing**: it opens the segments whose files are there, in the
    order `openDir` opens them, whatever else the directory contains. -/
theorem Listing.Canonical.openDir_bases (h : l.Canonical) {files : List Segment}
    (hnodup : (files.map Segment.baseOffset).Nodup)
    (hfiles : ∀ b, l.HasSegment b ↔ b ∈ files.map Segment.baseOffset) :
    discoverBaseOffsets l =
      (files.insertionSort fun s s' => s.baseOffset ≤ s'.baseOffset).map Segment.baseOffset := by
  set sorted := files.insertionSort fun s s' => s.baseOffset ≤ s'.baseOffset with hsorted
  have hperm : (sorted.map Segment.baseOffset).Perm (files.map Segment.baseOffset) :=
    (List.perm_insertionSort _ _).map _
  have htotal : Std.Total fun s s' : Segment => s.baseOffset ≤ s'.baseOffset :=
    ⟨fun s s' => Nat.le_total _ _⟩
  have htrans : IsTrans Segment fun s s' => s.baseOffset ≤ s'.baseOffset :=
    ⟨fun _ _ _ => Nat.le_trans⟩
  -- both lists are ascending and have the same members
  refine h.exact.eq ⟨?_, fun b => ?_⟩
  · have hle : (sorted.map Segment.baseOffset).Pairwise (· ≤ ·) :=
      List.pairwise_map.mpr (List.pairwise_insertionSort _ files)
    exact (hle.and (hperm.nodup_iff.mpr hnodup)).imp fun hab => Nat.lt_of_le_of_ne hab.1 hab.2
  · rw [hperm.mem_iff, hfiles]

end Exactness

/-- **Discovery is exact exactly for canonical listings.** -/
theorem discovery_exact_iff (l : Listing) : Exact l (discoverBaseOffsets l) ↔ l.Canonical :=
  ⟨Exact.canonical, Listing.Canonical.exact⟩

/-- The segments at 0 and 1000 with the index of the first, and "notes.log". -/
def twoSegments : Listing where
  entries :=
    [⟨segmentFileName 1000, .regular⟩,
      ⟨paddedDecimal 20 0 ++ [46, 105, 110, 100, 101, 120], .regular⟩,
      ⟨[110, 111, 116, 101, 115] ++ segmentSuffix, .regular⟩, ⟨segmentFileName 0, .regular⟩]
  nodup := by decide

example : discoverBaseOffsets twoSegments = [0, 1000] := by decide

/-- The segment at 0, and a regular file "5.log". -/
def shortName : Listing where
  entries := [⟨segmentFileName 0, .regular⟩, ⟨[53] ++ segmentSuffix, .regular⟩]
  nodup := by decide

/-- A segment at 5 is reported; the directory has no file for it. -/
theorem discovery_adds_shortName :
    discoverBaseOffsets shortName = [0, 5] ∧ ¬shortName.HasSegment 5 := by
  refine ⟨by decide, fun ⟨_, e, he, _, hname⟩ => ?_⟩
  have hnone : ∀ e ∈ shortName.entries, e.name ≠ segmentFileName 5 := by decide
  exact hnone e he hname

end EventLog.Segments
