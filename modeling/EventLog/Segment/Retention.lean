import EventLog.Lib.Run
import EventLog.Segment.Live
import Mathlib.Data.List.TakeWhile

/-!
# What a retention pass removes

`RunRetention` walks the sealed segments from the oldest on and stops at the first one that
is still within the window, or at the cap.  `runRetention_exact` says which segments that
detaches, whatever the state of the manager.

That no record goes too early is a property of runs: a segment's `lastAppend` must not be
before the append of any of its records.  `TimedLog` runs the log against a clock and keeps
the time of every append; a pass reads the clock before it takes the lock, so its `now` may
be in the past.
-/

namespace EventLog.Segments

open EventLog.Lib
open EventLog.Wal

/-! ## One pass -/

/-- A list cut at a cap; no cap if it is not positive. -/
def capped {α : Type*} (limit : Int) (l : List α) : List α :=
  if limit > 0 then l.take limit.toNat else l

/-- The oldest sealed segments, as far as all of them were last appended to at or before the
    start of the retention window, cut at `MaxDeletesPerRun`. -/
def Manager.aged (m : Manager) (now : Int) : List Segment :=
  capped m.cfg.maxDeletesPerRun
    (m.front.takeWhile (·.lastAppend ≤ now - m.cfg.retention))

/-- **Specification of the victim loop**, started with `count` victims. -/
theorem victimLoop_eq (cutoff limit : Int) (count : Nat) (ss : List Segment) :
    Manager.victimLoop cutoff limit count ss =
      count + (if limit > 0 then (ss.takeWhile (·.lastAppend ≤ cutoff)).take (limit.toNat - count)
        else ss.takeWhile (·.lastAppend ≤ cutoff)).length := by
  induction ss generalizing count with
  | nil => simp [Manager.victimLoop]
  | cons s ss ih =>
    rw [Manager.victimLoop, List.takeWhile_cons]
    -- the loop stops at the first segment that is young enough, or at the limit
    by_cases hlive : s.lastAppend > cutoff
    · have hnot : ¬decide (s.lastAppend ≤ cutoff) = true := by simpa using hlive
      rw [if_pos hlive, if_neg hnot]
      simp
    have hold : decide (s.lastAppend ≤ cutoff) = true := by simpa using hlive
    rw [if_neg hlive, if_pos hold]
    by_cases hfull : limit > 0 ∧ count ≥ limit
    · have hzero : limit.toNat - count = 0 := by omega
      rw [if_pos hfull, if_pos hfull.1, hzero]
      rfl
    rw [if_neg hfull, ih]
    -- one segment more is counted, of as many as are left
    by_cases hlimit : limit > 0
    · have hsucc : limit.toNat - count = limit.toNat - (count + 1) + 1 := by omega
      rw [if_pos hlimit, if_pos hlimit, hsucc, List.take_succ_cons, List.length_cons]
      omega
    · rw [if_neg hlimit, if_neg hlimit, List.length_cons]
      omega

variable {cs : Checksum} {m m' : Manager}

theorem aged_isPrefix (m : Manager) (now : Int) : m.aged now <+: m.front := by
  rw [Manager.aged, capped]
  split_ifs
  · exact (List.take_prefix _ _).trans (List.takeWhile_prefix _)
  · exact List.takeWhile_prefix _

/-- **Specification of `RunRetention`.** -/
theorem runRetention_eq (m : Manager) (now : Int) :
    m.runRetention now = { m with front := m.front.drop (m.aged now).length } := by
  have hcount : Manager.victimLoop (now - m.cfg.retention) m.cfg.maxDeletesPerRun 0 m.front =
      (m.aged now).length := by
    rw [victimLoop_eq, Nat.zero_add, Nat.sub_zero]
    rfl
  rw [Manager.runRetention, hcount]

/-- The aged segments are the ones detached. -/
theorem front_eq_aged_append (m : Manager) (now : Int) :
    m.front = m.aged now ++ (m.runRetention now).front := by
  obtain ⟨rest, hrest⟩ := aged_isPrefix m now
  rw [runRetention_eq]
  simp only
  conv_lhs => rw [← hrest]
  rw [← hrest, List.drop_left]

theorem segments_eq_aged_append (m : Manager) (now : Int) :
    m.segments = m.aged now ++ (m.runRetention now).segments := by
  rw [Manager.segments, Manager.segments, ← List.append_assoc, ← front_eq_aged_append,
    runRetention_eq]

/-- An aged segment was last appended to before the window. -/
theorem lastAppend_le_of_mem_aged {now : Int} {s : Segment} (h : s ∈ m.aged now) :
    s.lastAppend ≤ now - m.cfg.retention := by
  rw [Manager.aged, capped] at h
  split_ifs at h
  · simpa using List.mem_takeWhile_imp (List.mem_of_mem_take h)
  · simpa using List.mem_takeWhile_imp h

/-! ## Reads after a pass -/

/-- The bases ascend. -/
def Manager.Ascending (m : Manager) : Prop := (m.segments.map Segment.baseOffset).Pairwise (· < ·)

/-- Routing only looks at the last segment that starts at the offset or before. -/
theorem segmentFor_of_suffix {vs : List Segment} (hasc : m.Ascending)
    (hsegs : m.segments = vs ++ m'.segments) {o : Nat} (ho : m'.earliestOffset ≤ o) :
    m.segmentFor o = m'.segmentFor o := by
  have hbases : m.segments.map Segment.baseOffset =
      vs.map Segment.baseOffset ++ m'.segments.map Segment.baseOffset := by
    rw [hsegs, List.map_append]
  rw [Manager.Ascending, hbases] at hasc
  -- the first segment that is left starts at the offset or before
  have hpos : 0 < searchAbove (m'.segments.map Segment.baseOffset) o := by
    refine Nat.pos_of_ne_zero fun hzero => ?_
    have habove := (searchAbove_spec (List.pairwise_append.mp hasc).2.1 o).2.2 0
      (Nat.le_of_eq hzero) (by rw [segments_eq_cons]; simp)
    rw [segments_eq_cons] at habove
    exact absurd habove (Nat.not_lt.mpr ho)
  have hsearch := searchAbove_append hasc hpos
  rw [← hbases, List.length_map] at hsearch
  -- the search ends at the same segment, shifted by those that are gone
  have hlast : m.segments[searchAbove (m.segments.map Segment.baseOffset) o - 1]? =
      m'.segments[searchAbove (m'.segments.map Segment.baseOffset) o - 1]? := by
    rw [hsegs, List.getElem?_append_right (by rw [← hsegs]; omega), ← hsegs, hsearch]
    congr 1
    omega
  simp only [Manager.segmentFor]
  rw [if_neg (by omega), if_neg (by omega), hlast]

/-- The first base is the least. -/
theorem Manager.Ascending.earliestOffset_le (hasc : m.Ascending) {s : Segment}
    (hs : s ∈ m.segments) : m.earliestOffset ≤ s.baseOffset := by
  rw [Manager.Ascending, segments_eq_cons, List.map_cons, List.pairwise_cons] at hasc
  rw [segments_eq_cons] at hs
  rcases List.mem_cons.mp hs with rfl | hs
  · exact le_rfl
  · exact (hasc.1 _ (List.mem_map_of_mem hs)).le

/-- Reads from the new first segment on do not see that older ones are gone. -/
theorem readAt_of_suffix {vs : List Segment} (hasc : m.Ascending)
    (hsegs : m.segments = vs ++ m'.segments) {o : Nat} (ho : m'.earliestOffset ≤ o) :
    m'.readAt cs o = m.readAt cs o := by
  have hfirst : m'.front.head?.getD m'.active ∈ m.segments := by
    rw [hsegs, segments_eq_cons m']
    exact List.mem_append_right _ List.mem_cons_self
  have hle : m.earliestOffset ≤ o := (hasc.earliestOffset_le hfirst).trans ho
  rw [Manager.readAt, Manager.readAt, segmentFor_of_suffix hasc hsegs ho]
  cases m'.segmentFor o with
  | some s => rfl
  -- both managers answer out of range or end of file by the same comparison
  | none =>
    simp only
    rw [if_neg (by omega), if_neg (by omega)]

/-- What a pass does to the manager. -/
structure PassExact (cs : Checksum) (m : Manager) (now : Int) : Prop where
  /-- The aged segments are detached, the others stay in order. -/
  segments : m.segments = m.aged now ++ (m.runRetention now).segments
  active : (m.runRetention now).active = m.active
  contiguous : Contiguous m → Contiguous (m.runRetention now)
  readAt : m.Ascending → ∀ o, (m.runRetention now).earliestOffset ≤ o →
    (m.runRetention now).readAt cs o = m.readAt cs o

theorem passExact (cs : Checksum) (m : Manager) (now : Int) : PassExact cs m now where
  segments := segments_eq_aged_append m now
  active := by rw [runRetention_eq]
  contiguous := fun hc => hc.of_suffix (segments_eq_aged_append m now)
  readAt := fun hasc _ ho => readAt_of_suffix hasc (segments_eq_aged_append m now) ho

/-! ## The clock -/

/-- The log, what the clock shows, and when each record was appended. -/
structure TimedLog where
  manager : Manager
  clock : Int
  times : List (Nat × Int)

inductive TimedEvent where
  /-- The clock moves on. -/
  | tick (now : Int)
  /-- Phase 1 of an `Append`, which reads the clock. -/
  | append (data : Bytes) (o : WriteOutcome) (mtime : Int)
  /-- A step of a goroutine in phase 2, in segment `i`. -/
  | commit (i : Nat) (e : LogEvent)
  /-- A pass that read the clock at `now`. -/
  | runRetention (now : Int)
  /-- `Close`, then `Open`. -/
  | restart (cfg : Config) (mtime : Nat → Int)
  /-- A crash, and `Open` on what it left. -/
  | crash (cut : Nat → Cut)

/-- No file write leaves a part of what was to be written. -/
def TimedEvent.Atomic : TimedEvent → Prop
  | .append _ o _ => o.Atomic
  | .commit _ e => e.Atomic
  | _ => True

/-- No segment was last appended to before one of its records was appended. -/
def Manager.NotBefore (m : Manager) (times : List (Nat × Int)) : Prop :=
  ∀ s ∈ m.segments, ∀ p ∈ times, s.contains p.1 = true → p.2 ≤ s.lastAppend

instance (m : Manager) (times : List (Nat × Int)) : Decidable (m.NotBefore times) :=
  inferInstanceAs (Decidable (∀ s ∈ m.segments, ∀ p ∈ times, _ → _))

/-- One step; `none` when the event is not enabled.  The modification time of a segment that
    is opened is not earlier than its last append. -/
def TimedLog.step (cs : Checksum) (L : TimedLog) : TimedEvent → Option TimedLog
  | .tick now => if L.clock ≤ now then some { L with clock := now } else none
  | .append data o mtime =>
    let p := L.manager.appendStep cs data o L.clock mtime
    some { L with manager := p.1, times := L.times ++ p.2.map fun r => (r.1, L.clock) }
  | .commit i e => do
    let m ← L.manager.commitStep cs i e
    some { L with manager := m }
  | .runRetention now =>
    if now ≤ L.clock then some { L with manager := L.manager.runRetention now } else none
  | .restart cfg mtime =>
    match L.manager.restart cs cfg mtime with
    | .error _ => none
    | .ok m => if m.NotBefore L.times then some { L with manager := m } else none
  | .crash cut => do
    guard (L.manager.MaySurvive cut)
    match L.manager.reopen cs cut with
    | .error _ => none
    | .ok m =>
      if m.NotBefore L.times then
        -- the offsets of lost records are given out again
        some { L with manager := m, times := L.times.filter fun p => (m.segmentFor p.1).isSome }
      else none

/-- Every record has one time, which its segment is not before. -/
structure TimedInv (cs : Checksum) (L : TimedLog) : Prop where
  inv : ManagerInv cs L.manager
  past : ∀ p ∈ L.times, p.2 ≤ L.clock
  below : ∀ p ∈ L.times, p.1 < L.manager.nextOffset
  unique : ∀ o t t', (o, t) ∈ L.times → (o, t') ∈ L.times → t = t'
  timed : ∀ s ∈ L.manager.segments, ∀ o, s.contains o = true → ∃ t, (o, t) ∈ L.times
  notBefore : L.manager.NotBefore L.times

section Timed

variable {L L' : TimedLog}

theorem contains_iff {s : Segment} {o : Nat} :
    s.contains o = true ↔ s.baseOffset ≤ o ∧ o < s.nextOffset := by
  rw [Segment.contains, Bool.and_eq_true, decide_eq_true_iff, decide_eq_true_iff]

/-- Segments that are replaced by segments that own the same offsets. -/
theorem TimedInv.congr (h : TimedInv cs L) (hinv : ManagerInv cs m)
    (hsegs : List.Forall₂ (fun s s' : Segment => s'.baseOffset = s.baseOffset ∧
      s'.nextOffset = s.nextOffset) L.manager.segments m.segments)
    (hnot : m.NotBefore L.times) : TimedInv cs { L with manager := m } where
  inv := hinv
  past := h.past
  below := by
    simp only [nextOffset_of_forall₂ (hsegs.imp fun _ _ hs => hs.2)]
    exact h.below
  unique := h.unique
  timed := fun s' hs' o ho => by
    obtain ⟨s, hs, hbase, hend⟩ := exists_of_mem_right hsegs hs'
    rw [contains_iff, hbase, hend, ← contains_iff] at ho
    exact h.timed s hs o ho
  notBefore := hnot

/-- A new segment owns no offset yet. -/
theorem TimedInv.rolled (h : TimedInv cs L) {mtime : Int} (hr : Rolled L.manager mtime m) :
    TimedInv cs { L with manager := m } := by
  have hinv := h.inv.rolled hr
  cases hr with
  | kept hlt => exact h
  | rolled hfull =>
    -- the new segment contains no offset yet
    have hfresh : ∀ {s o}, s ∈ [Segment.fresh L.manager.active.nextOffset mtime] →
        s.contains o = true → False := fun {s o} hs ho => by
      rw [List.mem_singleton.mp hs, contains_iff] at ho
      have hend : (Segment.fresh L.manager.active.nextOffset mtime).nextOffset =
        L.manager.active.nextOffset := rfl
      have hbase : (Segment.fresh L.manager.active.nextOffset mtime).baseOffset =
        L.manager.active.nextOffset := rfl
      omega
    refine ⟨hinv, h.past, h.below, h.unique, fun s hs o ho => ?_, fun s hs p hp ho => ?_⟩
    · rcases List.mem_append.mp hs with hs | hs
      · exact h.timed s hs o ho
      · exact (hfresh hs ho).elim
    · rcases List.mem_append.mp hs with hs | hs
      · exact h.notBefore s hs p hp ho
      · exact (hfresh hs ho).elim

/-- The active segment is replaced by one that owns the same offsets. -/
theorem TimedInv.setActive (h : TimedInv cs L) {s : Segment} (hseg : SegInv cs s)
    (hbase : s.baseOffset = L.manager.active.baseOffset)
    (hnext : s.nextOffset = L.manager.active.nextOffset)
    (hlast : s.lastAppend = L.manager.active.lastAppend) :
    TimedInv cs { L with manager := { L.manager with active := s } } := by
  have hsegs : List.Forall₂ (fun s s' : Segment => s'.baseOffset = s.baseOffset ∧
      s'.nextOffset = s.nextOffset) L.manager.segments { L.manager with active := s }.segments :=
    List.rel_append (List.forall₂_same.mpr fun _ _ => ⟨rfl, rfl⟩) (.cons ⟨hbase, hnext⟩ .nil)
  refine h.congr (h.inv.setActive hseg hbase) hsegs fun t ht p hp ho => ?_
  -- a sealed segment, or the active one
  rcases List.mem_append.mp ht with ht | ht
  · exact h.notBefore t (List.mem_append_left _ ht) p hp ho
  · obtain rfl := List.mem_singleton.mp ht
    rw [contains_iff, hbase, hnext, ← contains_iff] at ho
    rw [hlast]
    exact h.notBefore _ L.manager.active_mem p hp ho

/-- A record is appended at the next offset, now. -/
theorem TimedInv.grown (h : TimedInv cs L) {s : Segment} (hseg : SegInv cs s)
    (hbase : s.baseOffset = L.manager.active.baseOffset)
    (hnext : s.nextOffset = L.manager.active.nextOffset + 1) (hlast : s.lastAppend = L.clock) :
    TimedInv cs { L with
      manager := { L.manager with active := s }
      times := L.times ++ [(L.manager.nextOffset, L.clock)] } := by
  have hend : L.manager.nextOffset = L.manager.active.nextOffset := rfl
  have hmem : ∀ {p : Nat × Int}, p ∈ L.times ++ [(L.manager.nextOffset, L.clock)] →
      p ∈ L.times ∨ p = (L.manager.nextOffset, L.clock) :=
    fun hp => (List.mem_append.mp hp).imp id List.mem_singleton.mp
  have hpast : ∀ p ∈ L.times ++ [(L.manager.nextOffset, L.clock)], p.2 ≤ L.clock :=
    fun p hp => by
      rcases hmem hp with hp | rfl
      · exact h.past p hp
      · exact Int.le_refl _
  refine ⟨h.inv.setActive hseg hbase, hpast, fun p hp => ?_, fun o t t' ht ht' => ?_,
    fun t ht o ho => ?_, fun t ht p hp ho => ?_⟩
  · change p.1 < s.nextOffset
    rcases hmem hp with hp | rfl
    · have := h.below p hp
      omega
    · simp only
      omega
  -- the offset is new, so it has no other time
  · -- two old entries, one of each, or the new one twice
    rcases hmem ht with hm | heq <;> rcases hmem ht' with hm' | heq'
    · exact h.unique o t t' hm hm'
    · have := h.below _ hm
      have := (Prod.mk.inj heq').1
      simp only at *
      omega
    · have := h.below _ hm'
      have := (Prod.mk.inj heq).1
      simp only at *
      omega
    · rw [(Prod.mk.inj heq).2, (Prod.mk.inj heq').2]
  · rcases List.mem_append.mp ht with ht | ht
    · obtain ⟨u, hu⟩ := h.timed t (List.mem_append_left _ ht) o ho
      exact ⟨u, List.mem_append_left _ hu⟩
    · obtain rfl := List.mem_singleton.mp ht
      rw [contains_iff, hbase, hnext] at ho
      -- an offset from before, or the new one
      rcases Nat.lt_or_ge o L.manager.active.nextOffset with hlt | hge
      · obtain ⟨u, hu⟩ := h.timed _ L.manager.active_mem o (contains_iff.mpr ⟨ho.1, hlt⟩)
        exact ⟨u, List.mem_append_left _ hu⟩
      · obtain rfl : o = L.manager.nextOffset := by omega
        exact ⟨L.clock, List.mem_append_right _ List.mem_cons_self⟩
  · rcases List.mem_append.mp ht with ht | ht
    · rcases hmem hp with hp | rfl
      · exact h.notBefore t (List.mem_append_left _ ht) p hp ho
      · -- a sealed segment ends before the next offset
        have hbefore := (List.pairwise_append.mp h.inv.ordered).2.2 t ht _ List.mem_cons_self
        have h1 := (contains_iff.mp ho).2
        have h2 := hbefore.2
        have h3 : L.manager.active.baseOffset ≤ L.manager.nextOffset := Nat.le_add_right _ _
        simp only at h1
        omega
    · obtain rfl := List.mem_singleton.mp ht
      rw [hlast]
      exact hpast p hp

/-- Phase 1 of an `Append`. -/
theorem TimedInv.append (h : TimedInv cs L) {data : Bytes} {o : WriteOutcome} (ho : o.Atomic)
    {mtime : Int} (hstep : L.step cs (.append data o mtime) = some L') : TimedInv cs L' := by
  have hout := reserve_appendOutcome cs L.manager data o L.clock mtime
  simp only [TimedLog.step, Manager.appendStep] at hstep
  generalize L.manager.reserve cs data o L.clock mtime = p at hout hstep
  obtain ⟨m', res⟩ := p
  cases hout with
  -- a failed append may have rolled the segment
  | failed m₁ log e hrolled hlog =>
    simp only [List.map_nil, List.append_nil] at hstep
    obtain rfl := Option.some.inj hstep
    have h₁ := h.rolled hrolled
    have hseg := (h₁.inv.logs _ m₁.active_mem).reserve ho m₁.active.lastAppend hlog
    rcases reserve_nextOffset hlog with ⟨-, -, hnext⟩ | ⟨seq, hok, -⟩
    · exact h₁.setActive hseg.1 rfl (by simp only [Segment.nextOffset, hnext]) rfl
    · cases hok
  -- the record gets the time of the clock, which is the last append of its segment
  | reserved m₁ log localOffset seq hrolled hlog =>
    obtain rfl := Option.some.inj hstep
    have h₁ := h.rolled hrolled
    have hseg := (h₁.inv.logs _ m₁.active_mem).reserve ho L.clock hlog
    rcases reserve_nextOffset hlog with ⟨e, herr, -⟩ | ⟨seq', hok, hnext⟩
    · cases herr
    · obtain ⟨rfl, -⟩ := Prod.mk.inj (Except.ok.inj hok)
      exact h₁.grown hseg.1 rfl (by simp only [Segment.nextOffset, hnext]; omega) rfl

/-- `Open` after a crash: the records that are left keep their times. -/
theorem TimedInv.crashed (h : TimedInv cs L) {cut : Nat → Cut} (hr : Reopened cs cut L.manager m)
    (hnot : m.NotBefore L.times) :
    TimedInv cs { L with
      manager := m
      times := L.times.filter fun p => (m.segmentFor p.1).isSome } := by
  have hinv := hr.inv h.inv
  have hsub : ∀ {p}, p ∈ L.times.filter (fun p => (m.segmentFor p.1).isSome) → p ∈ L.times :=
    fun hp => (List.mem_filter.mp hp).1
  refine ⟨hinv, fun p hp => h.past p (hsub hp), fun p hp => ?_,
    fun o t t' ht ht' => h.unique o t t' (hsub ht) (hsub ht'), fun s' hs' o ho => ?_,
    fun s' hs' p hp ho => hnot s' hs' p (hsub hp) ho⟩
  · -- a time is kept if its offset is still there
    obtain ⟨s, hs⟩ := Option.isSome_iff_exists.mp (List.mem_filter.mp hp).2
    exact (hinv.segmentFor_range hs).2
  · -- what is there after the crash was there before, with its time
    obtain ⟨s, hs, hrec⟩ := exists_of_mem_right hr.segments hs'
    have hle := hrec.nextOffset_le (h.inv.logs s hs)
    have hrange := contains_iff.mp ho
    rw [hrec.base] at hrange
    obtain ⟨t, ht⟩ := h.timed s hs o (contains_iff.mpr ⟨hrange.1, by omega⟩)
    refine ⟨t, List.mem_filter.mpr ⟨ht, ?_⟩⟩
    rw [segmentFor_eq hinv.ordered hs' ho]
    rfl

/-- **Step lemma.** -/
theorem TimedInv.step (h : TimedInv cs L) {e : TimedEvent} (he : e.Atomic)
    (hstep : L.step cs e = some L') : TimedInv cs L' := by
  cases e with
  -- the clock only moves on
  | tick now =>
    simp only [TimedLog.step] at hstep
    split_ifs at hstep with hle
    obtain rfl := Option.some.inj hstep
    exact { h with past := fun p hp => Int.le_trans (h.past p hp) hle }
  | append data o mtime => exact h.append he hstep
  | commit i e =>
    obtain ⟨m, hm, hstep⟩ := Option.bind_eq_some_iff.mp hstep
    obtain ⟨seg, log, hseg, hcommit, ht, rfl⟩ := of_commitStep hm
    obtain rfl := Option.some.inj hstep
    have hinv := h.inv.logs seg (List.mem_of_getElem? hseg)
    have hnext := (hinv.sameRecords_commit hcommit ht he).nextOffset hinv
    have hsegs : List.Forall₂ (fun s s' : Segment => s'.baseOffset = s.baseOffset ∧
        s'.nextOffset = s.nextOffset ∧ s'.lastAppend = s.lastAppend) L.manager.segments
        (L.manager.setSegment i { seg with log := log }).segments := by
      rw [segments_setSegment hseg]
      exact forall₂_set (fun s => ⟨rfl, rfl, rfl⟩) hseg ⟨rfl, hnext, rfl⟩
    -- the commit moves neither the range nor the last append of its segment
    refine h.congr (h.inv.committed hseg hcommit ht he)
      (hsegs.imp fun _ _ hs => ⟨hs.1, hs.2.1⟩) fun s' hs' p hp ho => ?_
    obtain ⟨s, hs, hbase, hend, hlast⟩ := exists_of_mem_right hsegs hs'
    rw [contains_iff, hbase, hend, ← contains_iff] at ho
    rw [hlast]
    exact h.notBefore s hs p hp ho
  | runRetention now =>
    simp only [TimedLog.step] at hstep
    split_ifs at hstep
    obtain rfl := Option.some.inj hstep
    have hsegs := segments_eq_aged_append L.manager now
    have hsub : ∀ s ∈ (L.manager.runRetention now).segments, s ∈ L.manager.segments :=
      fun s hs => by rw [hsegs]; exact List.mem_append_right _ hs
    -- what is left was there before
    exact ⟨h.inv.of_sublist (hsegs ▸ List.sublist_append_right _ _), h.past, h.below, h.unique,
      fun s hs => h.timed s (hsub s hs), fun s hs => h.notBefore s (hsub s hs)⟩
  | restart cfg mtime =>
    obtain ⟨m, hopen, hinv, hsegs, -⟩ := h.inv.restart cfg mtime
    simp only [TimedLog.step, hopen] at hstep
    split_ifs at hstep with hnot
    obtain rfl := Option.some.inj hstep
    exact h.congr hinv (hsegs.imp fun _ _ hs => ⟨hs.1.base, hs.2⟩) hnot
  | crash cut =>
    simp only [TimedLog.step, Option.bind_eq_bind, Option.bind_eq_some_iff,
      Option.guard_eq_some'] at hstep
    obtain ⟨-, hcut, hstep⟩ := hstep
    obtain ⟨m, hopen, hr⟩ := h.inv.reopen hcut
    rw [hopen] at hstep
    simp only at hstep
    split_ifs at hstep with hnot
    obtain rfl := Option.some.inj hstep
    exact h.crashed hr hnot

end Timed

/-! ## Runs -/

/-- `Open` on a new directory when the clock shows `clock`. -/
def TimedLog.init (m : Manager) (clock : Int) : TimedLog := ⟨m, clock, []⟩

theorem TimedInv.init {cfg : Config} {mtime clock : Int} {m₀ : Manager}
    (hcreate : Manager.create cs cfg mtime = .ok m₀) : TimedInv cs (TimedLog.init m₀ clock) := by
  rw [Manager.create, Segment.create_eq] at hcreate
  obtain rfl := Except.ok.inj hcreate
  refine ⟨ManagerInv.init cs _ mtime, by simp [TimedLog.init], by simp [TimedLog.init],
    by simp [TimedLog.init], fun s hs o ho => ?_, fun s hs p hp => by cases hp⟩
  rw [List.mem_singleton.mp hs, contains_iff] at ho
  exact absurd ho.2 (Nat.not_lt_zero o)

/-- **What a retention pass removes.**  In every state of the manager a pass detaches exactly
    the aged segments, up to the cap, and changes nothing else; reads from the new earliest
    offset on are the same.  In every run against a clock every record of a detached segment
    was appended at one time, at least `Retention` before the pass read the clock. -/
theorem runRetention_exact (cs : Checksum) (cfg : Config) (mtime clock : Int)
    (es : List TimedEvent) {m₀ : Manager} {L : TimedLog}
    (hcreate : Manager.create cs cfg mtime = .ok m₀) (hatomic : ∀ e ∈ es, e.Atomic)
    (hrun : run (TimedLog.step cs) (TimedLog.init m₀ clock) es = some L) :
    (∀ m now, PassExact cs m now) ∧ L.manager.Ascending ∧
      ∀ now, now ≤ L.clock → ∀ s ∈ L.manager.aged now, ∀ o, s.contains o = true →
        ∃ t, (∀ t', (o, t') ∈ L.times ↔ t' = t) ∧
          t + L.manager.cfg.retention ≤ now := by
  have hinv : TimedInv cs L := run_invariant (fun _ _ _ h he hstep => h.step he hstep)
    (TimedInv.init hcreate) (along_of_forall hatomic) hrun
  refine ⟨passExact cs, List.pairwise_map.mpr (hinv.inv.ordered.imp fun h => h.1),
    fun now _ s hs o ho => ?_⟩
  have hmem : s ∈ L.manager.segments := by
    rw [segments_eq_aged_append L.manager now]
    exact List.mem_append_left _ hs
  -- the record has exactly one time, and its segment was appended to no earlier
  obtain ⟨t, ht⟩ := hinv.timed s hmem o ho
  have hle := hinv.notBefore s hmem (o, t) ht ho
  have hold := lastAppend_le_of_mem_aged hs
  refine ⟨t, fun t' => ⟨fun ht' => hinv.unique o t' t ht' ht, fun heq => heq ▸ ht⟩, ?_⟩
  simp only at hle
  omega

/-- Two records in two segments; twelve nanoseconds after the first append only the first
    segment has expired. -/
def twoAges : List TimedEvent :=
  [.append [7] .ok 0, .tick 5, .append [8] .ok 5, .tick 12]

theorem runRetention_exact_twoAges : ∃ m₀ L,
    Manager.create byteSum ⟨1, 10, 0⟩ 0 = .ok m₀ ∧
      run (TimedLog.step byteSum) (TimedLog.init m₀ 0) twoAges = some L ∧
      (L.manager.aged 12).map Segment.baseOffset = [0] ∧
      (L.manager.runRetention 12).earliestOffset = 1 ∧
      ∀ s ∈ L.manager.aged 12, ∀ o, s.contains o = true →
        ∃ t, (∀ t', (o, t') ∈ L.times ↔ t' = t) ∧ t + L.manager.cfg.retention ≤ 12 := by
  refine ⟨_, _, rfl, rfl, by decide, by decide, ?_⟩
  refine (runRetention_exact byteSum ⟨1, 10, 0⟩ 0 0 twoAges rfl ?_ rfl).2.2 12 (by decide)
  simp [twoAges, TimedEvent.Atomic, WriteOutcome.Atomic]

end EventLog.Segments
