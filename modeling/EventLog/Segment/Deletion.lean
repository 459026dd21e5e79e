import EventLog.Segment.Retention
import Mathlib.Data.List.Sort

/-!
# Deletions that fail

`RunRetention` detaches its victims first and then deletes their files one by one; a `Close`
or `Remove` that fails is counted and skipped.  The files of such a segment stay in the
directory, and the next `Open` finds them.

A deletion that fails while a later one succeeds leaves a hole: the older segment comes back
without the newer one.  `deletions_leave_no_hole_iff` says that nothing else goes wrong: the
log is sound after every `Open` exactly when no file was removed while an older one was left.
-/

namespace EventLog.Segments

open EventLog.Lib
open EventLog.Wal

/-! ## The directory -/

/-- How the deletion of one segment goes. -/
structure Deletion where
  /-- Whether the files can be closed. -/
  closeOk : Bool
  /-- Whether the flush of `Close` succeeds, and its index writes. -/
  syncOk : Bool
  idx : Nat → WriteOutcome
  /-- Whether `os.Remove` of the log file succeeds. -/
  removeOk : Bool

/-- `Close` of a segment. -/
def Segment.close (s : Segment) (syncOk : Bool) (idx : Nat → WriteOutcome) : Segment :=
  { s with log := s.log.close syncOk idx }

/-- `NewSegment` on the files of a segment as they are. -/
def Segment.openFiles (cs : Checksum) (s : Segment) (mtime : Int) :
    Except RecoverError Segment :=
  s.reopen cs ⟨s.log.writer.file.length, s.log.writer.store.indexFile.length, mtime⟩

/-- Whether `Close` of a segment returns nil: it fails if it has to flush and cannot. -/
def Segment.closes (s : Segment) (closeOk syncOk : Bool) : Bool :=
  let flush := s.log.writer.writeSeq > s.log.writer.syncedSeq && !s.log.writer.syncErr
  closeOk && (syncOk || !flush)

/-- Whether the log file is removed: `Close` returned nil, and so did `Remove`. -/
def Deletion.removes (d : Deletion) (s : Segment) : Bool :=
  s.closes d.closeOk d.syncOk && d.removeOk

/-- The manager, the detached segments whose log files are still there, and every payload a
    producer got an offset for. -/
structure Directory where
  manager : Manager
  leftover : List Segment
  appended : List (Nat × Bytes)

inductive DirEvent where
  /-- Phase 1 of an `Append`. -/
  | append (data : Bytes) (o : WriteOutcome) (now mtime : Int)
  /-- A step of a goroutine in phase 2, in segment `i`. -/
  | commit (i : Nat) (e : LogEvent)
  /-- A pass; deletions are given by base offset. -/
  | runRetention (now : Int) (del : Nat → Deletion)
  /-- `Close`, then `Open`. -/
  | restart (cfg : Config) (mtime : Nat → Int)

/-- No file write leaves a part of what was to be written. -/
def DirEvent.Atomic : DirEvent → Prop
  | .append _ o _ _ => o.Atomic
  | .commit _ e => e.Atomic
  | .runRetention _ del => ∀ base x, ((del base).idx x).Atomic
  | .restart .. => True

/-- The victims whose log files stay. -/
def undeleted (del : Nat → Deletion) (victims : List Segment) : List Segment :=
  (victims.filter fun s => !(del s.baseOffset).removes s).map fun s =>
    s.close (del s.baseOffset).syncOk (del s.baseOffset).idx

/-- `Open`: the segments in the directory by ascending base offset; the last one is active. -/
def openDir (cs : Checksum) (cfg : Config) (mtime : Nat → Int) (files : List Segment) :
    Option Manager :=
  let bases := files.insertionSort fun s s' => s.baseOffset ≤ s'.baseOffset
  match Manager.openAll (fun s => s.openFiles cs (mtime s.baseOffset)) bases with
  | .error _ => none
  | .ok segments =>
    match segments.getLast? with
    | none =>
      match Manager.create cs cfg (mtime 0) with
      | .error _ => none
      | .ok m => some m
    | some active => some { cfg := cfg.settings, front := segments.dropLast, active := active }

/-- One step; `none` when the event is not enabled. -/
def Directory.step (cs : Checksum) (D : Directory) : DirEvent → Option Directory
  | .append data o now mtime =>
    let p := D.manager.appendStep cs data o now mtime
    some { D with manager := p.1, appended := D.appended ++ p.2 }
  | .commit i e => do
    let m ← D.manager.commitStep cs i e
    some { D with manager := m }
  | .runRetention now del =>
    some { D with
      manager := D.manager.runRetention now
      leftover := D.leftover ++ undeleted del (D.manager.aged now) }
  | .restart cfg mtime =>
    let closed := D.manager.segments.map fun s => s.close true fun _ => .ok
    match openDir cs cfg mtime (D.leftover ++ closed) with
    | none => none
    | some m => some { manager := m, leftover := [], appended := D.appended }

/-- No log file is removed while that of an older segment stays. -/
def OldestFirst (D : Directory) : DirEvent → Prop
  | .runRetention now del => ∀ s ∈ D.manager.aged now, (del s.baseOffset).removes s = true →
      D.leftover = [] ∧ ∀ t ∈ D.manager.aged now, t.baseOffset < s.baseOffset →
        (del t.baseOffset).removes t = true
  | _ => True

instance (D : Directory) : DecidablePred (OldestFirst D)
  | .runRetention .. => inferInstanceAs (Decidable (∀ s ∈ _, _ → _ ∧ ∀ t ∈ _, _ → _))
  | .append .. | .commit .. | .restart .. => inferInstanceAs (Decidable True)

/-- Segments are contiguous, and every offset below `NextOffset` is read back as it was
    appended or reported as out of retention. -/
def Directory.Sound (cs : Checksum) (D : Directory) : Prop :=
  Contiguous D.manager ∧ ∀ o, o < D.manager.nextOffset →
    (∃ d, D.manager.readAt cs o = .ok d ∧ (o, d) ∈ D.appended) ∨
      ∃ earliest, D.manager.readAt cs o = .error (.outOfRetention o earliest)

/-- `Close` and `Open` now make a sound log. -/
def Directory.OpensSound (cs : Checksum) (D : Directory) : Prop :=
  ∀ cfg mtime, ∃ D', D.step cs (.restart cfg mtime) = some D' ∧ D'.Sound cs

variable {cs : Checksum} {m m' : Manager} {D D' : Directory}

/-! ## Closing and opening files -/

theorem SameRecords.contains {s s' : Segment} (h : SameRecords cs s s') (hs : SegInv cs s)
    (o : Nat) : s'.contains o = s.contains o := by
  rw [Segment.contains, Segment.contains, h.nextOffset hs, h.base]

/-- `Close` flushes and records checkpoints; it adds and drops no record. -/
theorem SegInv.close {s : Segment} (h : SegInv cs s) (syncOk : Bool) {idx : Nat → WriteOutcome}
    (hidx : ∀ x, (idx x).Atomic) : SameRecords cs s (s.close syncOk idx) := by
  obtain ⟨n₀, cps, hlog, honce⟩ := h
  obtain ⟨cps', hclosed⟩ := hlog.close syncOk hidx
  have hrecs : (s.close syncOk idx).records cs = s.records cs :=
    records_eq (s := s.close syncOk idx) hclosed
  exact ⟨rfl, hrecs, fun _ => .of_logInv hclosed ⟨honce.commits, honce.acked, honce.fresh⟩⟩

/-- `NewSegment` finds all records of files that were not cut. -/
theorem SegInv.openFiles {s : Segment} (h : SegInv cs s) (mtime : Int) :
    ∃ s', s.openFiles cs mtime = .ok s' ∧ SameRecords cs s s' := by
  -- a crash that cuts nothing
  set whole : Nat → Cut := fun _ =>
    ⟨s.log.writer.file.length, s.log.writer.store.indexFile.length, mtime⟩
  have hsynced : s.log.synced ≤ (whole s.baseOffset).log := by
    obtain ⟨n₀, cps, hlog, -⟩ := h
    exact hlog.synced_le
  obtain ⟨s', hs', hrec⟩ := h.reopen hsynced
  refine ⟨s', hs', hrec.base, ?_, fun _ => hrec.inv⟩
  obtain ⟨n, hn, hrecs, hkept, -⟩ := hrec.records
  have hall : startOf cs (s.records cs) (s.records cs).length ≤ s.log.writer.file.length := by
    obtain ⟨n₀, cps, hlog, -⟩ := h
    exact hlog.startOf_le_file _
  rw [hrecs, Nat.le_antisymm hn (hkept _ le_rfl hall), List.take_length]

/-! ## The log as the directory has it -/

/-- The manager with more segments in front. -/
def Manager.prepend (m : Manager) (vs : List Segment) : Manager :=
  { m with front := vs ++ m.front }

theorem segments_prepend (m : Manager) (vs : List Segment) :
    (m.prepend vs).segments = vs ++ m.segments :=
  List.append_assoc _ _ _

theorem reserve_prepend (m : Manager) (vs : List Segment) (data : Bytes) (o : WriteOutcome)
    (now mtime : Int) :
    (m.prepend vs).reserve cs data o now mtime =
      ((m.reserve cs data o now mtime).1.prepend vs, (m.reserve cs data o now mtime).2) := by
  unfold Manager.reserve
  -- a roll looks at the active segment only, which older files do not change
  by_cases hfull : m.active.size ≥ m.cfg.maxSegmentBytes
  · have hfull' : (m.prepend vs).active.size ≥ (m.prepend vs).cfg.maxSegmentBytes := hfull
    rw [if_pos hfull, if_pos hfull']
    simp only [Manager.roll, Segment.create_eq]
    -- the new segment is the same, and so is what is written to it
    have hbase : (m.prepend vs).active.nextOffset = m.active.nextOffset := rfl
    rw [hbase]
    generalize (Segment.fresh m.active.nextOffset mtime).reserve cs data o now = p
    obtain ⟨seg, e | ⟨off, seq⟩⟩ := p <;> simp [Manager.prepend]
  · have hfull' : ¬(m.prepend vs).active.size ≥ (m.prepend vs).cfg.maxSegmentBytes := hfull
    rw [if_neg hfull, if_neg hfull']
    simp only
    have hactive : (m.prepend vs).active = m.active := rfl
    rw [hactive]
    generalize m.active.reserve cs data o now = p
    obtain ⟨seg, e | ⟨off, seq⟩⟩ := p <;> rfl

theorem setSegment_prepend (m : Manager) (vs : List Segment) (i : Nat) (s : Segment) :
    (m.prepend vs).setSegment (vs.length + i) s = (m.setSegment i s).prepend vs := by
  unfold Manager.setSegment Manager.prepend
  simp only [List.length_append]
  by_cases hi : i < m.front.length
  · rw [if_pos (by omega), if_pos hi, List.set_append_right _ _ (by omega),
      Nat.add_sub_cancel_left]
  · rw [if_neg (by omega), if_neg hi]

theorem appendStep_prepend (m : Manager) (vs : List Segment) (data : Bytes) (o : WriteOutcome)
    (now mtime : Int) :
    (m.prepend vs).appendStep cs data o now mtime =
      ((m.appendStep cs data o now mtime).1.prepend vs,
        (m.appendStep cs data o now mtime).2) := by
  unfold Manager.appendStep
  rw [reserve_prepend]
  rcases m.reserve cs data o now mtime with ⟨m', err | offset⟩ <;> rfl

theorem commitStep_prepend (m : Manager) (vs : List Segment) (i : Nat) (e : LogEvent) :
    (m.prepend vs).commitStep cs (vs.length + i) e =
      (m.commitStep cs i e).map fun m' => m'.prepend vs := by
  unfold Manager.commitStep
  rw [segments_prepend, List.getElem?_append_right (Nat.le_add_right _ _),
    Nat.add_sub_cancel_left]
  simp only [setSegment_prepend]
  rcases m.segments[i]? with _ | seg
  · rfl
  · rcases h : seg.commitStep cs e with _ | seg' <;> simp [h]

/-- All segments whose files are in the directory. -/
def Directory.whole (D : Directory) : Manager := D.manager.prepend D.leftover

theorem segments_whole (D : Directory) :
    D.whole.segments = D.leftover ++ D.manager.segments :=
  segments_prepend _ _

/-- **`Open`** finds all segments in the directory, in order. -/
theorem restart_spec (h : ManagerInv cs D.whole) (cfg : Config) (mtime : Nat → Int) :
    ∃ m', D.step cs (.restart cfg mtime) = some ⟨m', [], D.appended⟩ ∧
      List.Forall₂ (SameRecords cs) D.whole.segments m'.segments := by
  set files := D.leftover ++ D.manager.segments.map fun s => s.close true fun _ => .ok with hfiles
  have hlogs := h.logs
  have hordered := h.ordered
  rw [segments_whole] at hlogs hordered ⊢
  -- closing writes what is buffered and loses nothing
  have hclosed : List.Forall₂ (SameRecords cs) (D.leftover ++ D.manager.segments) files := by
    refine List.rel_append (List.forall₂_same.mpr fun s _ => .refl s) ?_
    rw [List.forall₂_map_right_iff]
    exact List.forall₂_same.mpr fun s hs =>
      (hlogs s (List.mem_append_right _ hs)).close true indexWrites_atomic
  -- the file names are already in order
  have hsorted : files.Pairwise fun s s' => s.baseOffset ≤ s'.baseOffset :=
    pairwise_of_forall₂ (fun hs ht hbefore => by
      rw [hs.base, ht.base]
      exact Nat.le_of_lt hbefore.1) hclosed hordered
  obtain ⟨segs, hopen, hopened⟩ := openAll_eq fun s (hs : s ∈ files) => by
    obtain ⟨s₀, hs₀, hsame⟩ := exists_of_mem_right hclosed hs
    exact (hsame.inv (hlogs s₀ hs₀)).openFiles (mtime s.baseOffset)
  have hsegs := forall₂_trans (R := SameRecords cs) SameRecords.trans hclosed hopened
  -- there is at least the active segment
  have hne : segs ≠ [] := by
    rintro rfl
    simp [Manager.segments] at hsegs
  -- the last of them becomes the active segment again
  refine ⟨⟨cfg.settings, segs.dropLast, segs.getLast hne⟩, ?_, ?_⟩
  · simp only [Directory.step, openDir, ← hfiles, hsorted.insertionSort_eq, hopen,
      List.getLast?_eq_getLast_of_ne_nil hne]
  · have hall : Manager.segments ⟨cfg.settings, segs.dropLast, segs.getLast hne⟩ = segs :=
      List.dropLast_append_getLast hne
    rw [hall]
    exact hsegs

/-! ## What the events keep -/

/-- `Append` acts on all segments in the directory as on those of a manager. -/
theorem append_whole {data : Bytes} {o : WriteOutcome} {now mtime : Int}
    (hstep : D.step cs (.append data o now mtime) = some D') :
    LiveLog.step cs ⟨D.whole, D.appended⟩ (.append data o now mtime) =
      some ⟨D'.whole, D'.appended⟩ := by
  obtain rfl := Option.some.inj hstep
  rw [LiveLog.step, Directory.whole, appendStep_prepend]
  rfl

/-- So does `Commit`. -/
theorem commit_whole {i : Nat} {e : LogEvent} (hstep : D.step cs (.commit i e) = some D') :
    LiveLog.step cs ⟨D.whole, D.appended⟩ (.commit (D.leftover.length + i) e) =
      some ⟨D'.whole, D'.appended⟩ := by
  obtain ⟨m, hm, hstep⟩ := Option.bind_eq_some_iff.mp hstep
  obtain rfl := Option.some.inj hstep
  rw [LiveLog.step, Directory.whole, commitStep_prepend, hm]
  rfl

/-- A pass without the closing of the files it leaves. -/
def Directory.kept (D : Directory) (now : Int) (del : Nat → Deletion) : Manager :=
  (D.manager.runRetention now).prepend
    (D.leftover ++ (D.manager.aged now).filter fun s => !(del s.baseOffset).removes s)

theorem kept_sublist (D : Directory) (now : Int) (del : Nat → Deletion) :
    (D.kept now del).segments.Sublist D.whole.segments := by
  rw [Directory.kept, segments_prepend, segments_whole, segments_eq_aged_append D.manager now,
    List.append_assoc]
  exact (List.Sublist.refl _).append (List.filter_sublist.append (List.Sublist.refl _))

/-- **Specification of a pass**: some segments are gone, the others have their records. -/
theorem runRetention_whole {now : Int} {del : Nat → Deletion} (h : ManagerInv cs D.whole)
    (hdel : ∀ base x, ((del base).idx x).Atomic)
    (hstep : D.step cs (.runRetention now del) = some D') :
    List.Forall₂ (SameRecords cs) (D.kept now del).segments D'.whole.segments ∧
      D'.appended = D.appended := by
  obtain rfl := Option.some.inj hstep
  refine ⟨?_, rfl⟩
  have hlogs := (h.of_sublist (kept_sublist D now del)).logs
  rw [Directory.kept, segments_prepend] at hlogs ⊢
  rw [segments_whole]
  -- what was left before and what stays live is untouched; the rest is closed on the way
  refine List.rel_append (List.rel_append (List.forall₂_same.mpr fun s _ => .refl s) ?_)
    (List.forall₂_same.mpr fun s _ => .refl s)
  rw [undeleted, List.forall₂_map_right_iff]
  refine List.forall₂_same.mpr fun s hs => (hlogs s ?_).close _ (hdel _)
  exact List.mem_append_left _ (List.mem_append_right _ hs)

/-- The segments in the directory by what a pass does to them. -/
theorem ManagerInv.parts (h : ManagerInv cs D.whole) (now : Int) :
    (D.manager.aged now).Pairwise Before ∧
      (∀ t ∈ D.leftover, ∀ s ∈ D.manager.aged now, Before t s) ∧
      ∀ s ∈ D.manager.aged now, ∀ u ∈ (D.manager.runRetention now).segments, Before s u := by
  have hord := h.ordered
  rw [segments_whole, segments_eq_aged_append D.manager now] at hord
  obtain ⟨-, hrest, hleft⟩ := List.pairwise_append.mp hord
  obtain ⟨hvictims, -, hlive⟩ := List.pairwise_append.mp hrest
  exact ⟨hvictims, fun t ht s hs => hleft t ht s (List.mem_append_left _ hs), hlive⟩

/-- If only a first part of a list passes the test, the rest of it is what fails. -/
theorem filter_not_eq_dropWhile {α : Type*} {p : α → Bool} {l : List α}
    (h : l.Pairwise fun a b => p b = true → p a = true) :
    (l.filter fun a => !p a) = l.dropWhile p := by
  induction l with
  | nil => rfl
  | cons a l ih =>
    obtain ⟨hfirst, hrest⟩ := List.pairwise_cons.mp h
    -- the removed ones come first, so filtering them out drops a front part
    by_cases ha : p a = true
    · rw [List.filter_cons_of_neg (by simp [ha]), List.dropWhile_cons_of_pos ha, ih hrest]
    · rw [List.dropWhile_cons_of_neg ha, List.filter_eq_self.mpr]
      rintro b hb
      rcases List.mem_cons.mp hb with rfl | hb
      · simp [ha]
      · simpa using fun hpb => ha (hfirst b hb hpb)

/-- A pass that deletes the oldest files first takes a first part of the log away. -/
theorem exists_append_kept {now : Int} {del : Nat → Deletion} (h : ManagerInv cs D.whole)
    (hold : OldestFirst D (.runRetention now del)) :
    ∃ vs, D.whole.segments = vs ++ (D.kept now del).segments := by
  set p : Segment → Bool := fun s => (del s.baseOffset).removes s with hp
  set victims := D.manager.aged now with hvictims
  have hsegs := segments_eq_aged_append D.manager now
  -- removed oldest first, what stays of the aged segments is a suffix of them
  have hfilter : (victims.filter fun s => !p s) = victims.dropWhile p :=
    filter_not_eq_dropWhile ((h.parts now).1.imp_of_mem fun ht hs hbefore hps =>
      (hold _ hs hps).2 _ ht hbefore.1)
  refine ⟨victims.takeWhile p, ?_⟩
  rw [segments_whole, Directory.kept, segments_prepend, hfilter, hsegs, ← hvictims]
  rcases hgone : victims.takeWhile p with - | ⟨s, ss⟩
  · have hall := List.takeWhile_append_dropWhile (p := p) (l := victims)
    rw [hgone, List.nil_append] at hall
    rw [hall, List.nil_append, List.append_assoc]
  · -- something was removed, so nothing was left before
    have hs : s ∈ victims.takeWhile p := by simp [hgone]
    have hps : p s = true := List.mem_takeWhile_imp hs
    have hempty := (hold s (List.takeWhile_subset _ hs) hps).1
    rw [← hgone, hempty, List.nil_append, List.nil_append, ← List.append_assoc,
      List.takeWhile_append_dropWhile]

/-- **Step lemma**: the segments in the directory represent a growing log as long as files
    are deleted oldest first. -/
theorem LiveInv.directoryStep {e : DirEvent} (h : LiveInv cs ⟨D.whole, D.appended⟩)
    (he : e.Atomic) (hold : OldestFirst D e) (hstep : D.step cs e = some D') :
    LiveInv cs ⟨D'.whole, D'.appended⟩ := by
  cases e with
  | append data o now mtime =>
    have he' : (LiveEvent.append data o now mtime).Atomic := he
    exact h.step he' (step_liveTransition (append_whole hstep))
  | commit i e =>
    have he' : (LiveEvent.commit (D.leftover.length + i) e).Atomic := he
    exact h.step he' (step_liveTransition (commit_whole hstep))
  -- a suffix of the log stays, by the order of the deletions
  | runRetention now del =>
    obtain ⟨l, hrep, happ⟩ := h
    obtain ⟨vs, hvs⟩ := exists_append_kept hrep.inv hold
    obtain ⟨hsame, happended⟩ := runRetention_whole hrep.inv he hstep
    obtain ⟨earliest, hle, -, hrep'⟩ := hrep.of_suffix hvs
    exact ⟨_, hrep'.congr hsame, fun o d => by rw [happended]; exact happ o d⟩
  -- a restart opens what is in the directory, with the same records
  | restart cfg mtime =>
    obtain ⟨l, hrep, happ⟩ := h
    obtain ⟨m', hstep', hsame⟩ := restart_spec hrep.inv cfg mtime
    obtain rfl := Option.some.inj (hstep'.symm.trans hstep)
    exact ⟨l, hrep.congr hsame, happ⟩

/-- What `Open` makes of such segments is sound. -/
theorem LiveInv.opensSound (h : LiveInv cs ⟨D.whole, D.appended⟩) : D.OpensSound cs := by
  intro cfg mtime
  obtain ⟨l, hrep, happ⟩ := h
  obtain ⟨m', hstep, hsame⟩ := restart_spec hrep.inv cfg mtime
  have hrep' : Represents cs m' l := hrep.congr hsame
  refine ⟨_, hstep, hrep'.contiguous, fun o ho => ?_⟩
  have ho' : o < l.payloads.length := hrep'.next ▸ ho
  simp only [hrep'.readAt, GrowingLog.readAt]
  -- below the earliest offset the read is out of range, from there on it finds the payload
  by_cases hout : o < l.earliest
  · rw [if_pos hout]
    exact .inr ⟨_, rfl⟩
  · have hd : l.payloads[o]? = some l.payloads[o] := List.getElem?_eq_getElem ho'
    rw [if_neg hout, hd]
    exact .inl ⟨_, rfl, (happ o _).mpr hd⟩

/-- An offset between two segments in the directory that is in none of them cannot be read
    after `Open`: the answer is `io.EOF`. -/
theorem not_opensSound_of_hole (h : ManagerInv cs D.whole) {t u : Segment} {o : Nat}
    (ht : t ∈ D.whole.segments) (hto : t.baseOffset ≤ o) (hu : u ∈ D.whole.segments)
    (hou : o < u.baseOffset) (hhole : ∀ s ∈ D.whole.segments, s.contains o = false) :
    ¬D.OpensSound cs := by
  intro hsound
  obtain ⟨D', hstep, -, hread⟩ := hsound ⟨0, 0, 0⟩ fun _ => 0
  obtain ⟨m', hstep', hsame⟩ := restart_spec h ⟨0, 0, 0⟩ fun _ => 0
  obtain rfl := Option.some.inj (hstep'.symm.trans hstep)
  have hinv := h.congr hsame
  -- the reopened log claims to hold `o`: it starts before and ends behind it
  have hearliest : m'.earliestOffset ≤ o := by
    obtain ⟨t', ht', hsame'⟩ := exists_of_mem_left hsame ht
    exact (hinv.earliestOffset_le ht').trans (hsame'.base ▸ hto)
  have hnext : o < m'.nextOffset := by
    obtain ⟨u', hu', hsame'⟩ := exists_of_mem_left hsame hu
    have hle := hinv.nextOffset_le hu'
    rw [Segment.nextOffset, hsame'.base] at hle
    omega
  -- but no segment has it
  have hnone : m'.segmentFor o = none := by
    rw [Option.eq_none_iff_forall_ne_some]
    intro s' hs'
    obtain ⟨hmem, hcont⟩ := of_segmentFor hs'
    obtain ⟨s, hs, hsame'⟩ := exists_of_mem_right hsame hmem
    rw [hsame'.contains (h.logs s hs), hhole s hs] at hcont
    cases hcont
  have hEOF : m'.readAt cs o = .error (.wal .eof) := by
    rw [Manager.readAt, hnone]
    exact if_neg (by omega)
  rcases hread o hnext with ⟨d, hd, -⟩ | ⟨earliest, hout⟩
  · cases hEOF.symm.trans hd
  · cases hEOF.symm.trans hout

/-- Neither segment holds the offset at which the other starts. -/
def Apart (s s' : Segment) : Prop :=
  s.contains s'.baseOffset = false ∧ s'.contains s.baseOffset = false

instance : Std.Symm Apart := ⟨fun _ _ h => h.symm⟩

theorem Before.apart {s s' : Segment} (h : Before s s') : Apart s s' := by
  obtain ⟨hbase, hnext⟩ := h
  simp only [Apart, Segment.contains, Bool.and_eq_false_iff, decide_eq_false_iff_not]
  omega

/-- A removed segment starts at an offset that is in no segment that stays. -/
theorem contains_of_mem_kept {now : Int} {del : Nat → Deletion} (h : ManagerInv cs D.whole)
    {s : Segment} (hs : s ∈ D.manager.aged now) (hremoved : (del s.baseOffset).removes s = true)
    {r : Segment} (hr : r ∈ (D.kept now del).segments) : r.contains s.baseOffset = false := by
  obtain ⟨hvictims, hleft, hlive⟩ := h.parts now
  rw [Directory.kept, segments_prepend] at hr
  -- left by an earlier pass, left by this one, or still live
  rcases List.mem_append.mp hr with hr | hr
  · rcases List.mem_append.mp hr with hr | hr
    · exact (hleft r hr s hs).apart.1
    · obtain ⟨hr, hstays⟩ := List.mem_filter.mp hr
      have hne : r ≠ s := by
        rintro rfl
        rw [hremoved] at hstays
        cases hstays
      exact ((hvictims.imp Before.apart).forall hr hs hne).1
  · exact (hlive s hs r hr).apart.2

/-- **A deletion out of order leaves a hole** where the removed segment was. -/
theorem not_opensSound {e : DirEvent} (h : ManagerInv cs D.whole) (he : e.Atomic)
    (hold : ¬OldestFirst D e) (hstep : D.step cs e = some D') : ¬D'.OpensSound cs := by
  cases e with
  | append | commit | restart => exact absurd trivial hold
  | runRetention now del =>
    simp only [OldestFirst] at hold
    push Not at hold
    obtain ⟨s, hs, hremoved, hkept⟩ := hold
    obtain ⟨-, hleft, hlive⟩ := h.parts now
    obtain ⟨hsame, -⟩ := runRetention_whole h he hstep
    have hinv := h.of_sublist (kept_sublist D now del)
    have hsegs : (D.kept now del).segments = _ := segments_prepend _ _
    -- an older segment stays, left by an earlier pass or by this one
    have holder : ∃ t ∈ (D.kept now del).segments, t.baseOffset ≤ s.baseOffset := by
      rw [hsegs]
      by_cases hempty : D.leftover = []
      · obtain ⟨t, ht, hlt, hstays⟩ := hkept hempty
        refine ⟨t, List.mem_append_left _ (List.mem_append_right _ ?_), Nat.le_of_lt hlt⟩
        exact List.mem_filter.mpr ⟨ht, by simpa using hstays⟩
      · obtain ⟨t, ht⟩ := List.exists_mem_of_ne_nil _ hempty
        exact ⟨t, List.mem_append_left _ (List.mem_append_left _ ht),
          Nat.le_of_lt (hleft t ht s hs).1⟩
    -- and so does the active one
    have hactive : (D.manager.runRetention now).active ∈ (D.kept now del).segments := by
      rw [hsegs]
      exact List.mem_append_right _ (Manager.active_mem _)
    obtain ⟨t, ht, hle⟩ := holder
    obtain ⟨t', ht', hsame₁⟩ := exists_of_mem_left hsame ht
    obtain ⟨u', hu', hsame₂⟩ := exists_of_mem_left hsame hactive
    refine not_opensSound_of_hole (hinv.congr hsame) ht' (hsame₁.base ▸ hle) hu' ?_ fun r' hr' => ?_
    · rw [hsame₂.base]
      exact (hlive s hs _ (Manager.active_mem _)).1
    · obtain ⟨r, hr, hsame₃⟩ := exists_of_mem_right hsame hr'
      rw [hsame₃.contains (hinv.logs r hr)]
      exact contains_of_mem_kept h hs hremoved hr

/-- **When failed deletions leave no hole.**  In every run from a new directory, the log that
    `Open` would make is sound at every moment exactly when no file was removed while that of
    an older segment stayed. -/
theorem deletions_leave_no_hole_iff (cs : Checksum) (cfg : Config) (mtime : Int)
    (es : List DirEvent) {m₀ : Manager} {D : Directory}
    (hcreate : Manager.create cs cfg mtime = .ok m₀) (hatomic : ∀ e ∈ es, DirEvent.Atomic e)
    (hrun : run (Directory.step cs) ⟨m₀, [], []⟩ es = some D) :
    (∀ es₁ D₁, es₁ <+: es → run (Directory.step cs) ⟨m₀, [], []⟩ es₁ = some D₁ →
      D₁.OpensSound cs) ↔ Along (Directory.step cs) OldestFirst ⟨m₀, [], []⟩ es := by
  refine run_property_iff (F := fun _ e => e.Atomic)
    (I := fun D => LiveInv cs ⟨D.whole, D.appended⟩)
    (fun D h => h.opensSound)
    (fun D e D' h he hold hstep => h.directoryStep he hold hstep)
    (fun D e D' h he hold hstep => ?_)
    (LiveInv.init hcreate) (along_of_forall hatomic) hrun
  obtain ⟨l, hrep, -⟩ := h
  exact not_opensSound hrep.inv he hold hstep

/-- A deletion in which everything succeeds, or only the removal of the file fails. -/
def deletion (removeOk : Bool) : Deletion := ⟨true, true, fun _ => .ok, removeOk⟩

/-- Three records in three segments, and a pass that deletes the first two. -/
def threeSegments (del : Nat → Deletion) : List DirEvent :=
  [.append [7] .ok 0 0, .append [8] .ok 0 0, .append [9] .ok 0 0, .runRetention 100 del]

/-- The second file cannot be removed: the log starts at its segment. -/
theorem deletions_leave_no_hole_secondStays : ∃ m₀ D,
    Manager.create byteSum ⟨1, 10, 0⟩ 0 = .ok m₀ ∧
      run (Directory.step byteSum) ⟨m₀, [], []⟩
        (threeSegments fun base => deletion (base = 0)) = some D ∧
      D.leftover.map Segment.baseOffset = [1] ∧ D.OpensSound byteSum := by
  refine ⟨_, _, rfl, rfl, by decide, ?_⟩
  refine (deletions_leave_no_hole_iff byteSum ⟨1, 10, 0⟩ 0
    (threeSegments fun base => deletion (base = 0)) rfl ?_ rfl).mpr (by decide) _ _
    List.prefix_rfl rfl
  simp [threeSegments, deletion, DirEvent.Atomic, WriteOutcome.Atomic]

/-- The first file cannot be removed, the second is: after `Open` there is a gap, and offset
    1 is reported as the end of the log. -/
theorem hole_after_failedDeletion : ∃ m₀ D,
    Manager.create byteSum ⟨1, 10, 0⟩ 0 = .ok m₀ ∧
      run (Directory.step byteSum) ⟨m₀, [], []⟩
        (threeSegments (fun base => deletion (base = 1)) ++
          [.restart ⟨1, 10, 0⟩ fun _ => 0]) = some D ∧
      D.manager.segments.map Segment.baseOffset = [0, 2] ∧ ¬Contiguous D.manager ∧
      1 < D.manager.nextOffset ∧ (1, [8]) ∈ D.appended ∧
      D.manager.readAt byteSum 1 = .error (.wal .eof) :=
  ⟨_, _, rfl, rfl, by decide, by decide, by decide, by decide, by decide⟩

end EventLog.Segments
