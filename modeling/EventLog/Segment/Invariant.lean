import EventLog.Lib.Pointwise
import EventLog.Segment.System
import EventLog.Wal.Walk

/-!
# The invariant of the segmented log

Every segment keeps the invariant of its log and ends with a whole record, and the
segments own ascending, disjoint ranges of offsets.  A crash may leave a gap between two
ranges; it never makes them overlap.
-/

namespace EventLog.Segments

open EventLog.Lib
open EventLog.Wal

variable {cs : Checksum}

/-! ## Segments -/

/-- The payloads stored in a segment. -/
def Segment.records (cs : Checksum) (s : Segment) : List Bytes := recordsOf cs s.log.writer.file

/-- The log of the segment is in order and ends with a whole record. -/
def SegInv (cs : Checksum) (s : Segment) : Prop :=
  ∃ n₀ cps, LogInv cs n₀ (s.records cs) [] cps s.log ∧ AckedOnce s.log

section Segments

variable {s : Segment}

/-- The records of a log are those of its file. -/
theorem records_eq {n₀ : Nat} {recs : List Bytes} {tail : Bytes} {cps : List Nat}
    (h : LogInv cs n₀ recs tail cps s.log) : s.records cs = recs := by
  rw [Segment.records, h.file, recordsOf_eq h.max_le h.torn]

theorem SegInv.of_logInv {n₀ : Nat} {recs : List Bytes} {cps : List Nat}
    (h : LogInv cs n₀ recs [] cps s.log) (ha : AckedOnce s.log) : SegInv cs s := by
  obtain rfl := records_eq h
  exact ⟨n₀, cps, h, ha⟩

theorem records_fresh (cs : Checksum) (base : Nat) (mtime : Int) :
    (Segment.fresh base mtime).records cs = [] :=
  records_eq (LogInv.empty cs)

theorem SegInv.fresh (cs : Checksum) (base : Nat) (mtime : Int) :
    SegInv cs (Segment.fresh base mtime) :=
  .of_logInv (LogInv.empty cs) AckedOnce.empty

theorem SegInv.nextOffset (h : SegInv cs s) :
    s.nextOffset = s.baseOffset + (s.records cs).length := by
  obtain ⟨n₀, cps, h, -⟩ := h
  rw [Segment.nextOffset, h.next]

/-- A segment with bytes has a record. -/
theorem SegInv.records_ne_nil (h : SegInv cs s) (hsize : 0 < s.size) : s.records cs ≠ [] := by
  obtain ⟨n₀, cps, h, -⟩ := h
  intro hnil
  rw [Segment.size, h.size, hnil] at hsize
  exact absurd hsize (Nat.lt_irrefl 0)

theorem SegInv.contains_iff (h : SegInv cs s) {o : Nat} :
    s.contains o = true ↔ ∃ k d, o = s.baseOffset + k ∧ (s.records cs)[k]? = some d := by
  rw [Segment.contains, Bool.and_eq_true, decide_eq_true_iff, decide_eq_true_iff, h.nextOffset]
  constructor
  · rintro ⟨hge, hlt⟩
    have hk : o - s.baseOffset < (s.records cs).length := by omega
    exact ⟨o - s.baseOffset, _, by omega, List.getElem?_eq_getElem hk⟩
  · rintro ⟨k, d, rfl, hd⟩
    have := (List.getElem?_eq_some_iff.mp hd).1
    omega

/-- Every record of the segment is read back. -/
theorem SegInv.readAt (h : SegInv cs s) {k : Nat} {d : Bytes}
    (hd : (s.records cs)[k]? = some d) : s.readAt cs (s.baseOffset + k) = .ok d := by
  obtain ⟨n₀, cps, h, -⟩ := h
  -- the file ends with the last record, and the index points into it
  have hread := readAt_eq [] h.index h.max_le hd
  rw [← h.file] at hread
  rw [Segment.readAt, if_neg (by omega), Nat.add_sub_cancel_left, hread]

theorem SegInv.of_mem_acked (h : SegInv cs s) {o : Nat} {d : Bytes} (hod : (o, d) ∈ s.acked) :
    ∃ k, o = s.baseOffset + k ∧ (s.records cs)[k]? = some d := by
  obtain ⟨n₀, cps, h, -⟩ := h
  obtain ⟨⟨k, d'⟩, hmem, heq⟩ := List.mem_map.mp hod
  obtain ⟨rfl, rfl⟩ := Prod.mk.inj heq
  exact ⟨k, rfl, (h.acked k d' hmem).1⟩

theorem SegInv.acked_nodup (h : SegInv cs s) : (s.acked.map Prod.fst).Nodup := by
  obtain ⟨-, -, -, ha⟩ := h
  have hmap : s.acked.map Prod.fst = (s.log.acked.map Prod.fst).map (s.baseOffset + ·) := by
    rw [Segment.acked, List.map_map, List.map_map]
    rfl
  rw [hmap]
  exact ha.acked.map fun a b hab => Nat.add_left_cancel hab

/-- **Step lemma of a segment.** -/
theorem SegInv.step (h : SegInv cs s) {e : LogEvent} {log : OpenLog} (t : Int)
    (ht : LogTransition cs s.log e log) (hatomic : e.Atomic) :
    SegInv cs { s with log := log, lastAppend := t } ∧
      ({ s with log := log, lastAppend := t }.records cs = s.records cs ∨
        ∃ data o, e = .reserve data o ∧
          { s with log := log, lastAppend := t }.records cs = s.records cs ++ [data]) := by
  obtain ⟨n₀, cps, h, ha⟩ := h
  -- the outcome was atomic, so no torn record was left behind
  obtain ⟨recs', tail', cps', h', hrecs, htail⟩ := h.step ht hatomic.index fun _ _ _ _ => rfl
  obtain rfl := htail rfl hatomic
  rw [records_eq (s := { s with log := log, lastAppend := t }) h']
  exact ⟨.of_logInv h' (ha.step h ht), hrecs⟩

/-- A step of `Commit` adds no record. -/
theorem SegInv.records_commit (h : SegInv cs s) {e : LogEvent} {log : OpenLog}
    (he : e.isCommit) (ht : LogTransition cs s.log e log) (hatomic : e.Atomic) :
    { s with log := log }.records cs = s.records cs := by
  rcases (h.step s.lastAppend ht hatomic).2 with hrecs | ⟨data, o, rfl, -⟩
  · exact hrecs
  · cases he

/-- The second segment holds the records of the first. -/
structure SameRecords (cs : Checksum) (s s' : Segment) : Prop where
  base : s'.baseOffset = s.baseOffset
  records : s'.records cs = s.records cs
  inv : SegInv cs s → SegInv cs s'

theorem SameRecords.refl (s : Segment) : SameRecords cs s s := ⟨rfl, rfl, id⟩

theorem SameRecords.trans {s s' s'' : Segment} (h : SameRecords cs s s')
    (h' : SameRecords cs s' s'') : SameRecords cs s s'' :=
  ⟨h'.base.trans h.base, h'.records.trans h.records, fun hs => h'.inv (h.inv hs)⟩

theorem SameRecords.nextOffset {s s' : Segment} (h : SameRecords cs s s') (hs : SegInv cs s) :
    s'.nextOffset = s.nextOffset := by
  rw [(h.inv hs).nextOffset, hs.nextOffset, h.base, h.records]

theorem SegInv.sameRecords_commit (h : SegInv cs s) {e : LogEvent} {log : OpenLog}
    (he : e.isCommit) (ht : LogTransition cs s.log e log) (hatomic : e.Atomic) :
    SameRecords cs s { s with log := log } :=
  ⟨rfl, h.records_commit he ht hatomic, fun _ => (h.step s.lastAppend ht hatomic).1⟩

end Segments

/-! ## Routing -/

/-- The first segment lies before the second: its offsets end where the second's start or
    earlier. -/
def Before (s s' : Segment) : Prop :=
  s.baseOffset < s'.baseOffset ∧ s.nextOffset ≤ s'.baseOffset

section Routing

variable {m : Manager} {s : Segment} {o : Nat}

/-- **Specification of `segmentFor`**: the binary search finds the segment that contains
    the offset. -/
theorem segmentFor_eq (hord : m.segments.Pairwise Before) (hs : s ∈ m.segments)
    (ho : s.contains o = true) : m.segmentFor o = some s := by
  have hasc : (m.segments.map Segment.baseOffset).Pairwise (· < ·) :=
    List.pairwise_map.mpr (hord.imp fun h => h.1)
  obtain ⟨hle, hlow, hhigh⟩ := searchAbove_spec hasc o
  obtain ⟨j, hj, hsj⟩ := List.getElem_of_mem hs
  have hbase : ∀ i (hi : i < m.segments.length),
      (m.segments.map Segment.baseOffset).getD i 0 = m.segments[i].baseOffset := fun i hi => by
    rw [List.getD_eq_getElem _ _ (by simpa using hi), List.getElem_map]
  rw [List.length_map] at hle hhigh
  have hrange := ho
  rw [Segment.contains, Bool.and_eq_true, decide_eq_true_iff, decide_eq_true_iff] at hrange
  -- the search stops right behind `s`
  have hi : searchAbove (m.segments.map Segment.baseOffset) o = j + 1 := by
    refine Nat.le_antisymm (Nat.le_of_not_lt fun hlt => ?_) (Nat.lt_of_not_le fun hge => ?_)
    · have hnext := hlow (j + 1) hlt
      have hbefore := List.pairwise_iff_getElem.mp hord j (j + 1) hj (by omega) (by omega)
      rw [hbase (j + 1) (by omega)] at hnext
      rw [hsj] at hbefore
      have := hbefore.2
      omega
    · have habove := hhigh j hge hj
      rw [hbase j hj, hsj] at habove
      omega
  rw [Manager.segmentFor]
  simp only [hi, Nat.add_one_ne_zero, if_false, Nat.add_sub_cancel,
    List.getElem?_eq_getElem hj, hsj, ho, if_true]

theorem of_segmentFor (h : m.segmentFor o = some s) :
    s ∈ m.segments ∧ s.contains o = true := by
  rw [Manager.segmentFor] at h
  split_ifs at h with hzero
  split at h
  · cases h
  · rename_i seg hseg
    split_ifs at h with hcont
    obtain rfl := Option.some.inj h
    exact ⟨List.mem_of_getElem? hseg, hcont⟩

end Routing

/-! ## The manager -/

structure ManagerInv (cs : Checksum) (m : Manager) : Prop where
  logs : ∀ s ∈ m.segments, SegInv cs s
  ordered : m.segments.Pairwise Before

/-- Some segment holds the record at the global offset. -/
def Manager.Stores (cs : Checksum) (m : Manager) (o : Nat) (d : Bytes) : Prop :=
  ∃ s ∈ m.segments, ∃ k, o = s.baseOffset + k ∧ (s.records cs)[k]? = some d

section Manager

variable {m : Manager} {o : Nat} {d : Bytes}

/-- Every stored record is read back at its global offset. -/
theorem ManagerInv.readAt (h : ManagerInv cs m) {s : Segment} {k : Nat} (hs : s ∈ m.segments)
    (hd : (s.records cs)[k]? = some d) : m.readAt cs (s.baseOffset + k) = .ok d := by
  have hinv := h.logs s hs
  have hcont := hinv.contains_iff.mpr ⟨k, d, rfl, hd⟩
  rw [Manager.readAt, segmentFor_eq h.ordered hs hcont]
  exact hinv.readAt hd

/-- What a read returns is stored at the offset. -/
theorem ManagerInv.of_readAt (h : ManagerInv cs m) (hread : m.readAt cs o = .ok d) :
    m.Stores cs o d := by
  rw [Manager.readAt] at hread
  cases hseg : m.segmentFor o with
  | none =>
    rw [hseg] at hread
    simp only at hread
    split_ifs at hread
  | some s =>
    rw [hseg] at hread
    -- the segment that answers has the record, so the read returned it
    obtain ⟨hs, hcont⟩ := of_segmentFor hseg
    obtain ⟨k, d', rfl, hd'⟩ := (h.logs s hs).contains_iff.mp hcont
    have heq := (h.logs s hs).readAt hd'
    rw [show s.readAt cs _ = _ from hread] at heq
    obtain rfl := Except.ok.inj heq
    exact ⟨s, hs, k, rfl, hd'⟩

/-- No offset holds two records. -/
theorem ManagerInv.stores_unique (h : ManagerInv cs m) {d' : Bytes} (hd : m.Stores cs o d)
    (hd' : m.Stores cs o d') : d = d' := by
  obtain ⟨s, hs, k, rfl, hk⟩ := hd
  obtain ⟨s', hs', k', ho, hk'⟩ := hd'
  -- both are what a read of `o` returns
  have hread := h.readAt hs hk
  rw [ho, h.readAt hs' hk'] at hread
  exact (Except.ok.inj hread).symm

theorem ManagerInv.of_mem_acked (h : ManagerInv cs m) (hod : (o, d) ∈ m.acked) :
    m.Stores cs o d := by
  obtain ⟨s, hs, hod⟩ := List.mem_flatMap.mp hod
  obtain ⟨k, rfl, hd⟩ := (h.logs s hs).of_mem_acked hod
  exact ⟨s, hs, k, rfl, hd⟩

theorem segments_eq_cons (m : Manager) :
    m.segments = m.front.head?.getD m.active :: m.segments.tail := by
  rw [Manager.segments]
  cases m.front <;> rfl

theorem head?_bases (m : Manager) :
    (m.segments.map Segment.baseOffset).head? = some m.earliestOffset := by
  rw [segments_eq_cons]
  rfl

/-- No segment starts before the earliest offset. -/
theorem ManagerInv.earliestOffset_le (h : ManagerInv cs m) {s : Segment} (hs : s ∈ m.segments) :
    m.earliestOffset ≤ s.baseOffset := by
  have hord := h.ordered
  rw [segments_eq_cons] at hord hs
  rcases List.mem_cons.mp hs with rfl | hs
  · exact le_rfl
  · exact ((List.pairwise_cons.mp hord).1 s hs).1.le

/-- No segment ends behind the next offset. -/
theorem ManagerInv.nextOffset_le (h : ManagerInv cs m) {s : Segment} (hs : s ∈ m.segments) :
    s.nextOffset ≤ m.nextOffset := by
  rcases List.mem_append.mp hs with hs | hs
  · -- the segments before the active one end where a later one starts, at the latest
    have hbefore := (List.pairwise_append.mp h.ordered).2.2 s hs m.active List.mem_cons_self
    exact hbefore.2.trans (Nat.le_add_right _ _)
  · rw [List.mem_singleton.mp hs]
    exact le_rfl

/-- No offset is acknowledged twice, in one segment or in two. -/
theorem ManagerInv.acked_nodup (h : ManagerInv cs m) : (m.acked.map Prod.fst).Nodup := by
  rw [Manager.acked, List.map_flatMap, List.nodup_flatMap]
  refine ⟨fun s hs => (h.logs s hs).acked_nodup, ?_⟩
  -- the offsets of two segments lie apart
  refine h.ordered.imp_of_mem fun {s s'} hs hs' hbefore => ?_
  refine List.disjoint_left.mpr ?_
  intro o ho ho'
  obtain ⟨⟨o₁, d₁⟩, hmem, rfl⟩ := List.mem_map.mp ho
  obtain ⟨⟨o₂, d₂⟩, hmem', heq⟩ := List.mem_map.mp ho'
  obtain ⟨k, hk, hd⟩ := (h.logs s hs).of_mem_acked hmem
  obtain ⟨k', hk', hd'⟩ := (h.logs s' hs').of_mem_acked hmem'
  have hlt := (List.getElem?_eq_some_iff.mp hd).1
  have hnext := (h.logs s hs).nextOffset
  have hle := hbefore.2
  simp only at heq
  omega

end Manager

/-! ## Steps -/

section Steps

variable {m m' : Manager}

theorem ManagerInv.init (cs : Checksum) (cfg : Settings) (mtime : Int) :
    ManagerInv cs ⟨cfg, [], Segment.fresh 0 mtime⟩ where
  logs := fun s hs => by
    obtain rfl := List.mem_singleton.mp hs
    exact SegInv.fresh cs 0 mtime
  ordered := List.pairwise_singleton _ _

theorem Manager.active_mem (m : Manager) : m.active ∈ m.segments :=
  List.mem_append_right _ List.mem_cons_self

/-- Replacing the active segment by one with the same base. -/
theorem ManagerInv.setActive (h : ManagerInv cs m) {s : Segment} (hs : SegInv cs s)
    (hbase : s.baseOffset = m.active.baseOffset) : ManagerInv cs { m with active := s } where
  logs := fun s' hs' => by
    rcases List.mem_append.mp hs' with hs' | hs'
    · exact h.logs s' (List.mem_append_left _ hs')
    · rwa [List.mem_singleton.mp hs']
  ordered := by
    obtain ⟨hfront, -, hlast⟩ := List.pairwise_append.mp h.ordered
    -- the active segment is the last, so its end is free to move
    refine List.pairwise_append.mpr ⟨hfront, List.pairwise_singleton _ _, fun s' hs' t ht => ?_⟩
    have hbefore := hlast s' hs' m.active List.mem_cons_self
    obtain rfl := List.mem_singleton.mp ht
    rwa [Before, hbase]

/-- A roll starts the new segment where the old one ends; the old one is not empty. -/
theorem ManagerInv.rolled (h : ManagerInv cs m) {mtime : Int} (hr : Rolled m mtime m') :
    ManagerInv cs m' := by
  cases hr with
  | kept hlt => exact h
  | rolled hfull =>
    -- a full segment is not empty, so the new base offset is higher
    have hactive := h.logs m.active m.active_mem
    have hpos := m.cfg.maxSegmentBytes_pos
    have hne := List.length_pos_iff.mpr (hactive.records_ne_nil (by omega))
    have hnext := hactive.nextOffset
    refine ⟨fun s hs => ?_, List.pairwise_append.mpr
      ⟨h.ordered, List.pairwise_singleton _ _, fun s hs t ht => ?_⟩⟩
    · rcases List.mem_append.mp hs with hs | hs
      · exact h.logs s hs
      · rw [List.mem_singleton.mp hs]
        exact SegInv.fresh cs _ mtime
    · obtain rfl := List.mem_singleton.mp ht
      change s.baseOffset < m.active.nextOffset ∧ s.nextOffset ≤ m.active.nextOffset
      rcases List.mem_append.mp hs with hs | hs
      · have hbefore := (List.pairwise_append.mp h.ordered).2.2 s hs _ List.mem_cons_self
        have h1 := hbefore.1
        have h2 := hbefore.2
        omega
      · obtain rfl := List.mem_singleton.mp hs
        omega

/-- Replacing every segment by one with the same base that ends no later. -/
theorem ManagerInv.of_forall₂ (h : ManagerInv cs m)
    (hsegs : List.Forall₂ (fun s s' : Segment => s'.baseOffset = s.baseOffset ∧
      s'.nextOffset ≤ s.nextOffset ∧ (SegInv cs s → SegInv cs s')) m.segments m'.segments) :
    ManagerInv cs m' where
  logs := fun s' hs' => by
    obtain ⟨s, hs, -, -, hinv⟩ := exists_of_mem_right hsegs hs'
    exact hinv (h.logs s hs)
  ordered := by
    -- a crash may shorten a segment, and what ended before the next one still does
    refine pairwise_of_forall₂ (fun {s t s' t'} hs ht hbefore => ?_) hsegs h.ordered
    rw [Before, hs.1, ht.1]
    exact ⟨hbefore.1, hs.2.1.trans hbefore.2⟩

/-- The next offset is where the last segment ends. -/
theorem nextOffset_of_forall₂ (hsegs : List.Forall₂
    (fun s s' : Segment => s'.nextOffset = s.nextOffset) m.segments m'.segments) :
    m'.nextOffset = m.nextOffset := by
  have hends : m'.segments.map Segment.nextOffset = m.segments.map Segment.nextOffset :=
    (map_eq_map_iff_of_forall₂ (P := fun _ => True) hsegs
      fun s _ s' h => iff_true_intro h).mpr fun _ _ => trivial
  simp only [Manager.segments, List.map_append, List.map_singleton] at hends
  exact List.singleton_inj.mp (List.append_inj' hends rfl).2

/-- Segments that are replaced by segments with the same records stay in order. -/
theorem ManagerInv.congr (h : ManagerInv cs m)
    (hsegs : List.Forall₂ (SameRecords cs) m.segments m'.segments) : ManagerInv cs m' := by
  have hlogs : List.Forall₂ (fun s _ => SegInv cs s) m.segments m'.segments :=
    List.forall₂_iff_get.mpr ⟨hsegs.length_eq, fun i h₁ _ => h.logs _ (List.get_mem _ _)⟩
  refine h.of_forall₂ (List.Forall₂.mp (fun s s' hs hrec => ?_) hlogs hsegs)
  exact ⟨hrec.base, Nat.le_of_eq (hrec.nextOffset hs), hrec.inv⟩

/-- Some of the segments of a log in order are in order. -/
theorem ManagerInv.of_sublist (h : ManagerInv cs m) (hsub : m'.segments.Sublist m.segments) :
    ManagerInv cs m' where
  logs := fun s hs => h.logs s (hsub.subset hs)
  ordered := h.ordered.sublist hsub

theorem segments_setSegment {i : Nat} {s s' : Segment} (h : m.segments[i]? = some s) :
    (m.setSegment i s').segments = m.segments.set i s' := by
  have hlt := (List.getElem?_eq_some_iff.mp h).1
  rw [Manager.segments, List.length_append, List.length_singleton] at hlt
  unfold Manager.setSegment
  split_ifs with hfront
  · rw [Manager.segments, Manager.segments, List.set_append_left _ _ hfront]
  · have hi : i - m.front.length = 0 := by omega
    rw [Manager.segments, Manager.segments, List.set_append_right _ _ (by omega), hi]
    rfl

/-- A step of `Commit` in one segment. -/
theorem ManagerInv.committed (h : ManagerInv cs m) {i : Nat} {s : Segment} {e : LogEvent}
    {log : OpenLog} (hs : m.segments[i]? = some s) (he : e.isCommit)
    (ht : LogTransition cs s.log e log) (hatomic : e.Atomic) :
    ManagerInv cs (m.setSegment i { s with log := log }) := by
  have hinv := h.logs s (List.mem_of_getElem? hs)
  refine h.congr ?_
  rw [segments_setSegment hs]
  exact forall₂_set SameRecords.refl hs (hinv.sameRecords_commit he ht hatomic)

/-! ## Opening after a crash -/

/-- What `Open` makes of one segment: it holds the records that end inside what the crash
    left of the file. -/
structure Recovered (cs : Checksum) (cut : Nat → Cut) (s s' : Segment) : Prop where
  base : s'.baseOffset = s.baseOffset
  acked : s'.log.acked = s.log.acked
  inv : SegInv cs s'
  records : ∃ n, n ≤ (s.records cs).length ∧ s'.records cs = (s.records cs).take n ∧
    (∀ k, k ≤ (s.records cs).length →
      startOf cs (s.records cs) k ≤ (cut s.baseOffset).log → k ≤ n) ∧
    startOf cs (s.records cs) n ≤ (cut s.baseOffset).log

theorem Recovered.nextOffset_le {cut : Nat → Cut} {s s' : Segment} (h : Recovered cs cut s s')
    (hs : SegInv cs s) : s'.nextOffset ≤ s.nextOffset := by
  obtain ⟨n, hn, hrecs, -⟩ := h.records
  rw [h.inv.nextOffset, hs.nextOffset, h.base, hrecs, List.length_take]
  omega

/-- A segment opens after every crash that keeps its synced part. -/
theorem SegInv.reopen {s : Segment} (h : SegInv cs s) {cut : Nat → Cut}
    (hcut : s.log.synced ≤ (cut s.baseOffset).log) :
    ∃ s', s.reopen cs (cut s.baseOffset) = .ok s' ∧ Recovered cs cut s s' := by
  obtain ⟨n₀, cps, h, ha⟩ := h
  obtain ⟨n, log, hn, hkept, hfits, hopen, hacked, hcommits, -, hlog⟩ :=
    h.reopen hcut (cut s.baseOffset).index
  -- nobody waits for a commit after a crash
  have honce : AckedOnce log := ⟨by rw [hcommits]; exact List.nodup_nil,
    by rw [hacked]; exact ha.acked, by rw [hcommits]; simp⟩
  refine ⟨{ s with log := log, lastAppend := (cut s.baseOffset).mtime }, ?_, rfl, hacked,
    .of_logInv hlog honce, n, hn, records_eq hlog, hkept, hfits⟩
  rw [Segment.reopen, hopen]

/-- **Run lemma of the loop of `Open`**: it succeeds if every segment opens. -/
theorem openAll_eq {f : Segment → Except RecoverError Segment} {R : Segment → Segment → Prop}
    {ss : List Segment} (h : ∀ s ∈ ss, ∃ s', f s = .ok s' ∧ R s s') :
    ∃ ss', Manager.openAll f ss = .ok ss' ∧ List.Forall₂ R ss ss' := by
  induction ss with
  | nil => exact ⟨[], rfl, .nil⟩
  | cons s ss ih =>
    obtain ⟨s', hs', hrec⟩ := h s List.mem_cons_self
    obtain ⟨ss', hss', hrest⟩ := ih fun t ht => h t (List.mem_cons_of_mem _ ht)
    exact ⟨s' :: ss', by rw [Manager.openAll, hs', hss'], .cons hrec hrest⟩

/-- What `Open` makes of the whole log. -/
structure Reopened (cs : Checksum) (cut : Nat → Cut) (m m' : Manager) : Prop where
  front : List.Forall₂ (Recovered cs cut) m.front m'.front
  active : Recovered cs cut m.active m'.active

theorem Reopened.segments {cut : Nat → Cut} (h : Reopened cs cut m m') :
    List.Forall₂ (Recovered cs cut) m.segments m'.segments :=
  List.rel_append h.front (.cons h.active .nil)

theorem Reopened.inv {cut : Nat → Cut} (hr : Reopened cs cut m m') (h : ManagerInv cs m) :
    ManagerInv cs m' := by
  refine h.of_forall₂ ?_
  -- each segment is in order before the crash, which bounds where it ends after it
  refine List.Forall₂.mp (Q := fun s _ => SegInv cs s) (fun s s' hs hrec =>
    ⟨hrec.base, hrec.nextOffset_le hs, fun _ => hrec.inv⟩) ?_ hr.segments
  exact List.forall₂_iff_get.mpr
    ⟨hr.segments.length_eq, fun i h₁ _ => h.logs _ (List.get_mem _ _)⟩

/-- **`Open` after a crash** succeeds and recovers every segment. -/
theorem ManagerInv.reopen (h : ManagerInv cs m) {cut : Nat → Cut} (hcut : m.MaySurvive cut) :
    ∃ m', m.reopen cs cut = .ok m' ∧ Reopened cs cut m m' := by
  obtain ⟨front, hfront, hrec⟩ := openAll_eq fun s hs =>
    (h.logs s (List.mem_append_left _ hs)).reopen (hcut s (List.mem_append_left _ hs))
  obtain ⟨active, hactive, hrec'⟩ := (h.logs m.active m.active_mem).reopen
    (hcut m.active m.active_mem)
  refine ⟨{ m with front := front, active := active }, ?_, hrec, hrec'⟩
  rw [Manager.reopen, hfront, hactive]

/-- What `Open` returned is what it makes of the log. -/
theorem ManagerInv.reopened (h : ManagerInv cs m) {cut : Nat → Cut} (hcut : m.MaySurvive cut)
    (hopen : m.reopen cs cut = .ok m') : Reopened cs cut m m' := by
  obtain ⟨m'', hm, hr⟩ := h.reopen hcut
  rw [hopen] at hm
  obtain rfl := Except.ok.inj hm
  exact hr

/-! ## Whole steps -/

/-- **Step lemma**: every step whose file writes are all-or-nothing keeps the invariant. -/
theorem ManagerInv.step {sys sys' : System} {e : Event} (h : ManagerInv cs sys.manager)
    (ht : Transition cs sys e sys') (hatomic : e.Atomic) : ManagerInv cs sys'.manager := by
  cases ht with
  | appended data o now mtime m₁ log t hrolled ht =>
    have h₁ := h.rolled hrolled
    have hactive := (h₁.logs m₁.active m₁.active_mem).step t ht hatomic
    exact h₁.setActive hactive.1 rfl
  | committed i e s log hs he ht => exact h.committed hs he ht hatomic
  | readFailed offset => exact h
  | read offset data hread => exact h
  | crashed cut m' hcut hopen => exact (h.reopened hcut hopen).inv h

end Steps

end EventLog.Segments
