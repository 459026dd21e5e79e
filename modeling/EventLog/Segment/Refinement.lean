import EventLog.Lib.Simulation
import EventLog.Segment.Contiguity

/-!
# The segmented log refines a growing list

Seen by one client and without I/O failures, the segmented log is a list of payloads that
only grows, of which retention hides a front part: `GrowingLog`.  Segments, routing,
framing, checkpoints, rolls and recovery do not show.

`Refines` relates a manager to the list it stands for.  Every operation keeps it and gives
the answer the list gives (`refines_simulates`), so every run of the manager is a run of
the list.
-/

namespace EventLog.Segments

open EventLog.Lib
open EventLog.Wal

/-! ## The abstract log -/

/-- A list that only grows; the elements before `earliest` are no longer available. -/
structure GrowingLog (α : Type*) where
  payloads : List α
  earliest : Nat
  earliest_le : earliest ≤ payloads.length

namespace GrowingLog

variable {α : Type*}

def empty : GrowingLog α := ⟨[], 0, le_rfl⟩

def append (l : GrowingLog α) (a : α) : GrowingLog α where
  payloads := l.payloads ++ [a]
  earliest := l.earliest
  earliest_le := l.earliest_le.trans (by simp)

def retain (l : GrowingLog α) (earliest : Nat) (h : earliest ≤ l.payloads.length) :
    GrowingLog α :=
  { l with earliest := earliest, earliest_le := h }

/-- A log is below another if it is an earlier state of it. -/
instance : Preorder (GrowingLog α) where
  le l l' := l.payloads <+: l'.payloads ∧ l.earliest ≤ l'.earliest
  le_refl l := ⟨List.prefix_rfl, le_rfl⟩
  le_trans _ _ _ h h' := ⟨h.1.trans h'.1, h.2.trans h'.2⟩

theorem le_append (l : GrowingLog α) (a : α) : l ≤ l.append a :=
  ⟨List.prefix_append _ _, le_rfl⟩

theorem le_retain {l : GrowingLog α} {earliest : Nat} {h : earliest ≤ l.payloads.length}
    (hle : l.earliest ≤ earliest) : l ≤ l.retain earliest h :=
  ⟨List.prefix_rfl, hle⟩

theorem length_le {l l' : GrowingLog α} (h : l ≤ l') : l.payloads.length ≤ l'.payloads.length :=
  h.1.length_le

/-- What a read answers. -/
def readAt (l : GrowingLog Bytes) (offset : Nat) : Except ReadAtError Bytes :=
  if offset < l.earliest then .error (.outOfRetention offset l.earliest)
  else
    match l.payloads[offset]? with
    | some data => .ok data
    | none => .error (.wal .eof)

end GrowingLog

/-! ## Operations and answers -/

/-- What a client asks of the log; times are those of the clock and of the files. -/
inductive Op where
  | append (data : Bytes) (now mtime : Int)
  | runRetention (now : Int)
  | readAt (offset : Nat)
  /-- `Close`, then `Open`. -/
  | restart (cfg : Config) (mtime : Nat → Int)

inductive Reply where
  | append (r : Except AppendError Nat)
  | readAt (r : Except ReadAtError Bytes)
  | done
  deriving DecidableEq

/-- The error of an append above the record limit. -/
def tooLarge (data : Bytes) : AppendError :=
  .write (.reserve (.tooLarge data.length MaxRecordSize))

/-- The payload an operation adds to the log. -/
def Op.payload : Op → Option Bytes
  | .append data _ _ => if data.length ≤ MaxRecordSize then some data else none
  | _ => none

/-- One operation of the manager; `none` when the file system fails it. -/
def Manager.perform (cs : Checksum) (m : Manager) : Op → Option (Manager × Reply)
  | .append data now mtime =>
    match m.append cs data .ok true (fun _ => .ok) now mtime with
    | (m', .ok offset) => some (m', .append (.ok offset))
    -- the only error that is not one of the file system
    | (m', .error (.write (.reserve (.tooLarge n max)))) =>
      some (m', .append (.error (.write (.reserve (.tooLarge n max)))))
    | (_, .error _) => none
  | .runRetention now => some (m.runRetention now, .done)
  | .readAt offset => some (m, .readAt (m.readAt cs offset))
  | .restart cfg mtime =>
    match m.restart cs cfg mtime with
    | .error _ => none
    | .ok m' => some (m', .done)

/-- One operation of the abstract log.  How much retention drops is left open. -/
inductive LogStep : GrowingLog Bytes → Op → GrowingLog Bytes → Reply → Prop where
  | appended (l data now mtime) : data.length ≤ MaxRecordSize →
      LogStep l (.append data now mtime) (l.append data) (.append (.ok l.payloads.length))
  | refused (l data now mtime) : MaxRecordSize < data.length →
      LogStep l (.append data now mtime) l (.append (.error (tooLarge data)))
  | retained (l now earliest) (h : earliest ≤ l.payloads.length) : l.earliest ≤ earliest →
      LogStep l (.runRetention now) (l.retain earliest h) .done
  | read (l offset) : LogStep l (.readAt offset) l (.readAt (l.readAt offset))
  | restarted (l cfg mtime) : LogStep l (.restart cfg mtime) l .done

theorem LogStep.le {l l' : GrowingLog Bytes} {op : Op} {r : Reply} (h : LogStep l op l' r) :
    l ≤ l' := by
  cases h with
  | appended data => exact l.le_append data
  | retained now earliest h hle => exact GrowingLog.le_retain hle
  | refused | read | restarted => exact le_rfl

/-- The list grows by the payloads within the record limit and by nothing else. -/
theorem LogStep.payloads {l l' : GrowingLog Bytes} {op : Op} {r : Reply}
    (h : LogStep l op l' r) : l'.payloads = l.payloads ++ op.payload.toList := by
  cases h with
  | appended data now mtime hle => rw [Op.payload, if_pos hle]; rfl
  | refused data now mtime hlt => rw [Op.payload, if_neg (by omega)]; simp
  | retained | read | restarted => simp [Op.payload, GrowingLog.retain]

/-! ## The simulation relation -/

/-- The manager holds the records of the list: segments are contiguous up to its end, and
    each record is the list's at its global offset. -/
structure Represents (cs : Checksum) (m : Manager) (l : GrowingLog Bytes) : Prop where
  inv : ManagerInv cs m
  contiguous : Contiguous m
  next : m.nextOffset = l.payloads.length
  earliest : m.earliestOffset = l.earliest
  stored : ∀ s ∈ m.segments, ∀ k d, (s.records cs)[k]? = some d →
    l.payloads[s.baseOffset + k]? = some d

/-- The manager stands for the list: it holds its records, and no flush is under way. -/
structure Refines (cs : Checksum) (m : Manager) (l : GrowingLog Bytes) : Prop
    extends Represents cs m l where
  quiet : m.active.log.writer.Quiet
  commits : m.active.log.commits = []

variable {cs : Checksum} {m m' : Manager} {l : GrowingLog Bytes}

theorem Represents.init (cs : Checksum) (cfg : Settings) (mtime : Int) :
    Represents cs ⟨cfg, [], Segment.fresh 0 mtime⟩ .empty where
  inv := ManagerInv.init cs cfg mtime
  contiguous := List.isChain_singleton _
  next := rfl
  earliest := rfl
  stored := fun s hs k d hd => by
    obtain rfl := List.mem_singleton.mp hs
    rw [records_fresh] at hd
    cases hd

theorem Refines.init (cs : Checksum) (cfg : Settings) (mtime : Int) :
    Refines cs ⟨cfg, [], Segment.fresh 0 mtime⟩ .empty :=
  ⟨Represents.init cs cfg mtime, ⟨rfl, rfl, rfl⟩, rfl⟩

/-- A segment that owns an offset starts at the earliest offset or later and ends at the
    next one or earlier. -/
theorem ManagerInv.segmentFor_range (h : ManagerInv cs m) {o : Nat} {s : Segment}
    (hseg : m.segmentFor o = some s) : m.earliestOffset ≤ o ∧ o < m.nextOffset := by
  obtain ⟨hs, hcont⟩ := of_segmentFor hseg
  rw [Segment.contains, Bool.and_eq_true, decide_eq_true_iff, decide_eq_true_iff] at hcont
  exact ⟨(h.earliestOffset_le hs).trans hcont.1, hcont.2.trans_le (h.nextOffset_le hs)⟩

/-- **Reads** answer what the list answers, at every offset. -/
theorem Represents.readAt (h : Represents cs m l) (o : Nat) : m.readAt cs o = l.readAt o := by
  rw [GrowingLog.readAt, ← h.earliest]
  by_cases hlow : o < m.earliestOffset
  · -- no segment owns an offset before the first one
    have hnone : m.segmentFor o = none :=
      Option.eq_none_iff_forall_ne_some.mpr fun s hs => by
        have := (h.inv.segmentFor_range hs).1
        omega
    rw [if_pos hlow, Manager.readAt, hnone]
    exact if_pos hlow
  rw [if_neg hlow]
  by_cases hhigh : o < m.nextOffset
  · -- inside the range the segments leave no gap
    obtain ⟨s, hs, k, d, rfl, hd⟩ := h.inv.exists_record h.contiguous (by omega) hhigh
    rw [h.inv.readAt hs hd, h.stored s hs k d hd]
  · -- at the end no segment owns the offset, and the list has nothing there
    have hnone : m.segmentFor o = none :=
      Option.eq_none_iff_forall_ne_some.mpr fun s hs => by
        have := (h.inv.segmentFor_range hs).2
        omega
    have hend : l.payloads[o]? = none := by
      rw [List.getElem?_eq_none_iff, ← h.next]
      omega
    rw [Manager.readAt, hnone, hend]
    exact if_neg hlow

/-- Segments that are replaced by segments with the same records do not show. -/
theorem Represents.congr (h : Represents cs m l)
    (hsegs : List.Forall₂ (SameRecords cs) m.segments m'.segments) : Represents cs m' l := by
  have hends : m'.segments.map Segment.nextOffset = m.segments.map Segment.nextOffset :=
    (map_eq_map_iff_of_forall₂ (P := fun _ => True) hsegs fun s hs s' hrec => iff_true_intro
      (hrec.nextOffset (h.inv.logs s hs))).mpr fun _ _ => trivial
  have hbases : m'.segments.map Segment.baseOffset = m.segments.map Segment.baseOffset :=
    (map_eq_map_iff_of_forall₂ (P := fun _ => True) hsegs
      fun s _ s' hrec => iff_true_intro hrec.base).mpr fun _ _ => trivial
  -- the sealed segments and the active one end where they did
  simp only [Manager.segments, List.map_append, List.map_singleton] at hends
  obtain ⟨hfront, hactive⟩ := List.append_inj' hends rfl
  refine ⟨h.inv.congr hsegs, h.contiguous.congr hfront hbases, ?_, ?_, fun s' hs' k d hd => ?_⟩
  · rw [← h.next]
    exact List.singleton_inj.mp hactive
  · -- the first base is the earliest offset of either manager
    rw [← h.earliest]
    apply Option.some.inj
    rw [← head?_bases, ← head?_bases]
    exact congrArg List.head? hbases
  · obtain ⟨s, hs, hbase, hrecs, -⟩ := exists_of_mem_right hsegs hs'
    rw [hbase]
    rw [hrecs] at hd
    exact h.stored s hs k d hd

/-! ## Appends -/

/-- A roll does not show. -/
theorem Represents.rolled (h : Represents cs m l) {mtime : Int} (hr : Rolled m mtime m') :
    Represents cs m' l := by
  have hinv := h.inv.rolled hr
  have hcont := h.contiguous.rolled hr
  cases hr with
  | kept hlt => exact h
  | rolled hfull =>
    refine ⟨hinv, hcont, h.next, ?_, fun s hs k d hd => ?_⟩
    · rw [← h.earliest, Manager.earliestOffset, Manager.earliestOffset]
      cases m.front <;> rfl
    · -- the new segment is empty
      rcases List.mem_append.mp hs with hs | hs
      · exact h.stored s hs k d hd
      · obtain rfl := List.mem_singleton.mp hs
        rw [records_fresh] at hd
        cases hd

theorem Refines.rolled (h : Refines cs m l) {mtime : Int} (hr : Rolled m mtime m') :
    Refines cs m' l := by
  have h' := h.toRepresents.rolled hr
  cases hr with
  | kept hlt => exact h
  | rolled hfull => exact ⟨h', ⟨rfl, rfl, rfl⟩, rfl⟩

/-- The active segment grew by one record. -/
theorem Represents.grown (h : Represents cs m l) {s : Segment} {data : Bytes}
    (hseg : SegInv cs s) (hbase : s.baseOffset = m.active.baseOffset)
    (hrecs : s.records cs = m.active.records cs ++ [data]) :
    Represents cs { m with active := s } (l.append data) := by
  have hactive := h.inv.logs m.active m.active_mem
  have hend : m.active.baseOffset + (m.active.records cs).length = l.payloads.length := by
    rw [← h.next, Manager.nextOffset, hactive.nextOffset]
  -- bases and earliest offset stay, the end moves by one
  refine ⟨h.inv.setActive hseg hbase, h.contiguous.congr rfl ?_, ?_, ?_, fun s' hs k d hd => ?_⟩
  · simp only [Manager.segments, List.map_append, List.map_singleton, hbase]
  · simp only [Manager.nextOffset, hseg.nextOffset, hrecs, hbase, GrowingLog.append,
      List.length_append, List.length_singleton]
    omega
  · rw [GrowingLog.append, ← h.earliest, Manager.earliestOffset, Manager.earliestOffset]
    cases m.front with
    | nil => exact hbase
    | cons => rfl
  · simp only [GrowingLog.append]
    have hold : ∀ {o}, l.payloads[o]? = some d → (l.payloads ++ [data])[o]? = some d :=
      fun ho => by rwa [List.getElem?_append_left (List.getElem?_eq_some_iff.mp ho).1]
    -- a sealed segment, or the active one
    rcases List.mem_append.mp hs with hs | hs
    · exact hold (h.stored s' (List.mem_append_left _ hs) k d hd)
    · obtain rfl := List.mem_singleton.mp hs
      rw [hrecs] at hd
      rw [hbase]
      -- the record is an old one of the active segment or the new one
      by_cases hk : k < (m.active.records cs).length
      · rw [List.getElem?_append_left hk] at hd
        exact hold (h.stored m.active m.active_mem k d hd)
      · have hlt := (List.getElem?_eq_some_iff.mp hd).1
        rw [List.length_append, List.length_singleton] at hlt
        obtain rfl : k = (m.active.records cs).length := by omega
        simpa [hend] using hd

/-- A `Write` to the active segment succeeded. -/
theorem Refines.written (h : Refines cs m l) {data : Bytes} {n₀ : Nat} {cps : List Nat}
    {log : OpenLog} (now : Int)
    (hlog : LogInv cs n₀ (m.active.records cs ++ [data]) [] cps log)
    (hq : log.writer.Quiet) (hc : log.commits = []) (ha : log.acked = m.active.log.acked) :
    Refines cs { m with active := { m.active with log := log, lastAppend := now } }
      (l.append data) := by
  have hseg : SegInv cs { m.active with log := log, lastAppend := now } := by
    obtain ⟨-, -, -, honce⟩ := h.inv.logs m.active m.active_mem
    exact .of_logInv hlog ⟨by rw [hc]; exact List.nodup_nil, by rw [ha]; exact honce.acked,
      by rw [hc]; simp⟩
  exact ⟨h.grown hseg rfl (records_eq hlog), hq, hc⟩

/-- The outcomes of `Append`: the file system refuses only a record that would take the
    file past the largest file size. -/
inductive Appends (cs : Checksum) (m : Manager) (l : GrowingLog Bytes) (data : Bytes) :
    Manager × Except AppendError Nat → Prop where
  | appended (m' : Manager) : data.length ≤ MaxRecordSize → Refines cs m' (l.append data) →
      Appends cs m l data (m', .ok l.payloads.length)
  | refused (m' : Manager) : MaxRecordSize < data.length → Refines cs m' l →
      Appends cs m l data (m', .error (tooLarge data))
  | full (m' : Manager) : data.length ≤ MaxRecordSize →
      (maxFileSize : Int) < m.cfg.maxSegmentBytes + (encode cs data).length →
      Appends cs m l data (m', .error (.write (.reserve .write)))

/-- After the check the active segment has room for a record. -/
theorem Rolled.size_lt {mtime : Int} (hr : Rolled m mtime m') :
    (m'.active.size : Int) < m.cfg.maxSegmentBytes := by
  cases hr with
  | kept hlt => exact hlt
  | rolled hfull => exact m.cfg.maxSegmentBytes_pos

/-- Index writes that succeed are all-or-nothing. -/
theorem indexWrites_atomic (x : Nat) : ((fun _ => .ok : Nat → WriteOutcome) x).Atomic :=
  trivial

/-- **Specification of `Append`.** -/
theorem Refines.append (h : Refines cs m l) (data : Bytes) (now mtime : Int) :
    Appends cs m l data (m.append cs data .ok true (fun _ => .ok) now mtime) := by
  obtain ⟨m₁, heq, hrolled⟩ := exists_rolled cs m mtime
  have h₁ := h.rolled hrolled
  have hsize := hrolled.size_lt
  obtain ⟨n₀, cps, hlog, -⟩ := h₁.inv.logs m₁.active m₁.active_mem
  have hend : m₁.active.baseOffset + (m₁.active.records cs).length = l.payloads.length := by
    rw [← h₁.next, Manager.nextOffset, (h₁.inv.logs m₁.active m₁.active_mem).nextOffset]
  -- the three answers of the writer: too large, no room in the file, written
  have hwrite := hlog.write h₁.quiet h₁.commits data indexWrites_atomic
  unfold Manager.append Segment.append
  simp only [heq]
  generalize m₁.active.log.write cs data .ok true _ = p at hwrite ⊢
  cases hwrite with
  | tooLarge hlt => exact .refused m₁ hlt h₁
  | full hle hfull =>
    refine .full _ hle ?_
    -- after the roll the active file is below the segment size
    rw [Segment.size, hlog.size] at hsize
    rw [hlog.file, List.append_nil] at hfull
    omega
  | written cps' log hle hlog' hq hc ha =>
    simp only [hend]
    exact .appended _ hle (h₁.written now hlog' hq hc ha)

/-! ## Retention -/

/-- Retention drops a front part of the segments, never the active one. -/
theorem runRetention_segments (m : Manager) (now : Int) :
    ∃ victims, m.segments = victims ++ (m.runRetention now).segments := by
  refine ⟨m.front.take (Manager.victimLoop (now - m.cfg.retention) m.cfg.maxDeletesPerRun 0
    m.front), ?_⟩
  simp only [Manager.segments, Manager.runRetention]
  rw [← List.append_assoc, List.take_append_drop]

/-- The last segments of a log hide a front part of its list. -/
theorem Represents.of_suffix (h : Represents cs m l) {vs : List Segment}
    (hsegs : m.segments = vs ++ m'.segments) :
    ∃ earliest, ∃ hle : earliest ≤ l.payloads.length, l.earliest ≤ earliest ∧
      Represents cs m' (l.retain earliest hle) := by
  have hsub : ∀ s ∈ m'.segments, s ∈ m.segments := fun s hs => by
    rw [hsegs]
    exact List.mem_append_right _ hs
  -- the active segment is the last of both
  have hactive : m.active = m'.active := by
    rw [Manager.segments, Manager.segments, ← List.append_assoc] at hsegs
    exact List.singleton_inj.mp (List.append_inj' hsegs rfl).2
  have hnext : m'.nextOffset = l.payloads.length := by
    rw [← h.next, Manager.nextOffset, Manager.nextOffset, hactive]
  -- the first segment left is one of the old ones, and ends at the next offset or earlier
  have hfirst : m'.front.head?.getD m'.active ∈ m'.segments := by
    rw [segments_eq_cons m']
    exact List.mem_cons_self
  have hlow := h.inv.earliestOffset_le (hsub _ hfirst)
  have hhigh := h.inv.nextOffset_le (hsub _ hfirst)
  rw [h.earliest] at hlow
  rw [h.next] at hhigh
  have hinv : ManagerInv cs m' := h.inv.of_sublist (hsegs ▸ List.sublist_append_right _ _)
  exact ⟨m'.earliestOffset, (Nat.le_add_right _ _).trans hhigh, hlow, hinv,
    h.contiguous.of_suffix hsegs, hnext, rfl, fun s hs => h.stored s (hsub s hs)⟩

/-- **Retention** hides a front part of the list. -/
theorem Represents.runRetention (h : Represents cs m l) (now : Int) :
    ∃ earliest, ∃ hle : earliest ≤ l.payloads.length, l.earliest ≤ earliest ∧
      Represents cs (m.runRetention now) (l.retain earliest hle) := by
  obtain ⟨victims, hsegs⟩ := runRetention_segments m now
  exact h.of_suffix hsegs

theorem Refines.runRetention (h : Refines cs m l) (now : Int) :
    ∃ earliest, ∃ hle : earliest ≤ l.payloads.length, l.earliest ≤ earliest ∧
      Refines cs (m.runRetention now) (l.retain earliest hle) := by
  obtain ⟨earliest, hle, hlow, h'⟩ := h.toRepresents.runRetention now
  exact ⟨earliest, hle, hlow, h', h.quiet, h.commits⟩

/-! ## Closing and opening -/

/-- What `Close` and `Open` make of one segment: the same records, and no flush. -/
structure Restarted (cs : Checksum) (s s' : Segment) : Prop where
  base : s'.baseOffset = s.baseOffset
  records : s'.records cs = s.records cs
  inv : SegInv cs s'
  quiet : s'.log.writer.Quiet
  commits : s'.log.commits = []

theorem Restarted.sameRecords {s s' : Segment} (h : Restarted cs s s') : SameRecords cs s s' :=
  ⟨h.base, h.records, fun _ => h.inv⟩

theorem SegInv.restart {s : Segment} (h : SegInv cs s) (mtime : Int) :
    ∃ s', s.restart cs true (fun _ => .ok) mtime = .ok s' ∧ Restarted cs s s' := by
  obtain ⟨n₀, cps, hlog, honce⟩ := h
  obtain ⟨cps', log, hopen, hacked, hcommits, hlog'⟩ := hlog.restart true
    indexWrites_atomic
  have honce' : AckedOnce log := ⟨by rw [hcommits]; exact List.nodup_nil,
    by rw [hacked]; exact honce.acked, by rw [hcommits]; simp⟩
  refine ⟨{ s with log := log, lastAppend := mtime }, ?_, rfl, records_eq hlog',
    .of_logInv hlog' honce', reopen_quiet hopen, hcommits⟩
  rw [Segment.restart, hopen]

/-- What `Close` and `Open` make of the whole log. -/
theorem ManagerInv.restart (h : ManagerInv cs m) (cfg : Config) (mtime : Nat → Int) :
    ∃ m', m.restart cs cfg mtime = .ok m' ∧ ManagerInv cs m' ∧
      List.Forall₂ (fun s s' => Restarted cs s s' ∧ s'.nextOffset = s.nextOffset)
        m.segments m'.segments ∧ Restarted cs m.active m'.active := by
  have hseg : ∀ s ∈ m.segments, ∃ s',
      s.restart cs true (fun _ => .ok) (mtime s.baseOffset) = .ok s' ∧
      Restarted cs s s' ∧ s'.nextOffset = s.nextOffset := fun s hs => by
    -- a close and an open, with nothing lost in between
    obtain ⟨s', hs', hrec⟩ := (h.logs s hs).restart (mtime s.baseOffset)
    exact ⟨s', hs', hrec, hrec.sameRecords.nextOffset (h.logs s hs)⟩
  obtain ⟨front, hfront, hfronts⟩ := openAll_eq fun s hs => hseg s (List.mem_append_left _ hs)
  obtain ⟨active, hactive, hrestarted⟩ := hseg m.active m.active_mem
  have hsegs := List.rel_append hfronts (.cons hrestarted .nil)
  refine ⟨{ cfg := cfg.settings, front := front, active := active }, ?_, ?_, hsegs,
    hrestarted.1⟩
  · rw [Manager.restart, hfront, hactive]
  · exact h.congr (hsegs.imp fun s s' hrec => hrec.1.sameRecords)

/-- **Closing and opening** succeeds, stops every flush and does not show, whatever the new
    configuration. -/
theorem Represents.restart (h : Represents cs m l) (cfg : Config) (mtime : Nat → Int) :
    ∃ m', m.restart cs cfg mtime = .ok m' ∧ Refines cs m' l := by
  obtain ⟨m', hopen, -, hsegs, hrestarted⟩ := h.inv.restart cfg mtime
  refine ⟨m', hopen, h.congr ?_, hrestarted.quiet, hrestarted.commits⟩
  exact hsegs.imp fun s s' hrec => hrec.1.sameRecords

/-! ## The refinement -/

/-- **Step lemma**: every operation of the manager is one of the list, with its answer. -/
theorem refines_simulates (cs : Checksum) :
    Simulates (Manager.perform cs) LogStep (Refines cs) := by
  intro m l op m' r h hperform
  cases op with
  | append data now mtime =>
    have happ := h.append data now mtime
    simp only [Manager.perform] at hperform
    generalize m.append cs data .ok true (fun _ => .ok) now mtime = p at happ hperform
    -- a record the file has no room for is left out of `perform`
    cases happ with
    | appended m₁ hle h₁ =>
      obtain ⟨rfl, rfl⟩ := Prod.mk.inj (Option.some.inj hperform)
      exact ⟨l.append data, .appended l data now mtime hle, h₁⟩
    | refused m₁ hlt h₁ =>
      obtain ⟨rfl, rfl⟩ := Prod.mk.inj (Option.some.inj hperform)
      exact ⟨l, .refused l data now mtime hlt, h₁⟩
    | full m₁ hle hfull => cases hperform
  | runRetention now =>
    obtain ⟨rfl, rfl⟩ := Prod.mk.inj (Option.some.inj hperform)
    obtain ⟨earliest, hle, hlow, h'⟩ := h.runRetention now
    exact ⟨l.retain earliest hle, .retained l now earliest hle hlow, h'⟩
  -- a read answers as the list does
  | readAt offset =>
    obtain ⟨rfl, rfl⟩ := Prod.mk.inj (Option.some.inj hperform)
    refine ⟨l, ?_, h⟩
    rw [h.readAt offset]
    exact .read l offset
  | restart cfg mtime =>
    obtain ⟨m₁, hm₁, h₁⟩ := h.toRepresents.restart cfg mtime
    simp only [Manager.perform, hm₁] at hperform
    obtain ⟨rfl, rfl⟩ := Prod.mk.inj (Option.some.inj hperform)
    exact ⟨l, .restarted l cfg mtime, h₁⟩

/-- **Run lemma**: a run of the manager is a run of the list. -/
theorem refines_of_trace {ops : List Op} {rs : List Reply} (h : Refines cs m l)
    (hrun : trace (Manager.perform cs) m ops = some (m', rs)) :
    ∃ l', Behaves LogStep l ops l' rs ∧ Refines cs m' l' ∧ l ≤ l' ∧
      l'.payloads = l.payloads ++ ops.filterMap Op.payload := by
  obtain ⟨l', hl', h'⟩ := (refines_simulates cs).behaves h hrun
  exact ⟨l', hl', h', hl'.le LogStep.le,
    hl'.eq_append (f := GrowingLog.payloads) (g := Op.payload) LogStep.payloads⟩

/-- An append above the record limit fails; it may roll, which does not show. -/
theorem Refines.perform_tooLarge (h : Refines cs m l) {data : Bytes}
    (hlt : MaxRecordSize < data.length) (now mtime : Int) :
    ∃ m', m.perform cs (.append data now mtime) =
      some (m', .append (.error (tooLarge data))) ∧ Refines cs m' l := by
  have happ := h.append data now mtime
  simp only [Manager.perform]
  generalize m.append cs data .ok true (fun _ => .ok) now mtime = p at happ
  cases happ with
  | refused m₁ hlt h₁ => exact ⟨m₁, rfl, h₁⟩
  -- such a record is neither taken nor tried
  | appended m₁ hle | full m₁ hle => omega

/-- The file system fails only an append that takes a file past the largest file size. -/
theorem Refines.perform_eq_none (h : Refines cs m l) {op : Op} (hnone : m.perform cs op = none) :
    ∃ data now mtime, op = .append data now mtime ∧
      (maxFileSize : Int) < m.cfg.maxSegmentBytes + (encode cs data).length := by
  cases op with
  | append data now mtime =>
    have happ := h.append data now mtime
    simp only [Manager.perform] at hnone
    generalize m.append cs data .ok true (fun _ => .ok) now mtime = p at happ hnone
    -- the only answer `perform` does not give
    cases happ with
    | full m₁ hle hfull => exact ⟨data, now, mtime, rfl, hfull⟩
    | appended | refused => cases hnone
  | runRetention now | readAt offset => cases hnone
  | restart cfg mtime =>
    obtain ⟨m₁, hm₁, -⟩ := h.toRepresents.restart cfg mtime
    simp only [Manager.perform, hm₁] at hnone
    cases hnone

/-- **The segmented log refines a growing list.**  The list of a run holds the payloads
    within the record limit in order; the manager answers every operation as the list
    does, and in every state reached

    * segments are contiguous, and span what the list says is available;
    * a read at any offset answers what the list answers;
    * an append above the record limit fails and changes neither end;
    * nothing fails but a write past the largest file size;
    * no later state has an earlier end. -/
theorem manager_refines_growingLog (cs : Checksum) (cfg : Config) (mtime : Int)
    (ops : List Op) {m₀ m : Manager} {rs : List Reply}
    (hopen : Manager.create cs cfg mtime = .ok m₀)
    (hrun : trace (Manager.perform cs) m₀ ops = some (m, rs)) :
    ∃ l : GrowingLog Bytes,
      Behaves LogStep .empty ops l rs ∧ l.payloads = ops.filterMap Op.payload ∧
      m.earliestOffset = l.earliest ∧ m.nextOffset = l.payloads.length ∧
      (m.segments.map Segment.baseOffset).Pairwise (· < ·) ∧ Contiguous m ∧
      (∀ o, m.readAt cs o = l.readAt o) ∧
      (∀ data now mtime, MaxRecordSize < data.length →
        ∃ m', m.perform cs (.append data now mtime) =
            some (m', .append (.error (tooLarge data))) ∧
          m'.earliestOffset = m.earliestOffset ∧ m'.nextOffset = m.nextOffset) ∧
      (∀ op, m.perform cs op = none → ∃ data now mtime, op = .append data now mtime ∧
        (maxFileSize : Int) < m.cfg.maxSegmentBytes + (encode cs data).length) ∧
      ∀ ops' m' rs', trace (Manager.perform cs) m ops' = some (m', rs') →
        m.earliestOffset ≤ m'.earliestOffset ∧ m.nextOffset ≤ m'.nextOffset := by
  rw [Manager.create, Segment.create_eq] at hopen
  obtain rfl := Except.ok.inj hopen
  obtain ⟨l, hl, h, -, hpayloads⟩ := refines_of_trace (Refines.init cs cfg.settings mtime) hrun
  refine ⟨l, hl, hpayloads, h.earliest, h.next, ?_, h.contiguous, h.readAt,
    fun data now mtime hlt => ?_, fun op => h.perform_eq_none, fun ops' m' rs' hrun' => ?_⟩
  · exact List.pairwise_map.mpr (h.inv.ordered.imp fun hbefore => hbefore.1)
  · obtain ⟨m', hm', h'⟩ := h.perform_tooLarge hlt now mtime
    exact ⟨m', hm', h'.earliest.trans h.earliest.symm, h'.next.trans h.next.symm⟩
  · -- the abstract list only grows, and so do the two ends
    obtain ⟨l', -, h', hle, -⟩ := refines_of_trace h hrun'
    rw [h.earliest, h'.earliest, h.next, h'.next]
    exact ⟨hle.2, GrowingLog.length_le hle⟩

/-- Two segments, the first of which expires; then the log is closed, opened with another
    configuration and appended to. -/
def growAndExpire : List Op :=
  [.append [7] 0 0, .append [8] 5 5, .runRetention 3, .readAt 0, .readAt 1,
    .restart ⟨100, 0, 0⟩ fun _ => 0, .append [9] 6 6]

/-- What the client is told. -/
def growAndExpireReplies : List Reply :=
  [.append (.ok 0), .append (.ok 1), .done, .readAt (.error (.outOfRetention 0 1)),
    .readAt (.ok [8]), .done, .append (.ok 2)]

theorem manager_refines_growingLog_growAndExpire : ∃ m₀ m,
    Manager.create byteSum ⟨1, 1, 0⟩ 0 = .ok m₀ ∧
      trace (Manager.perform byteSum) m₀ growAndExpire = some (m, growAndExpireReplies) ∧
      ∃ l : GrowingLog Bytes, l.payloads = [[7], [8], [9]] ∧
        ∀ o, m.readAt byteSum o = l.readAt o := by
  obtain ⟨m₀, m, rs, hopen, hrun, hrs⟩ : ∃ m₀ m rs,
      Manager.create byteSum ⟨1, 1, 0⟩ 0 = .ok m₀ ∧
        trace (Manager.perform byteSum) m₀ growAndExpire = some (m, rs) ∧
        rs = growAndExpireReplies :=
    ⟨_, _, _, rfl, rfl, by decide⟩
  subst hrs
  obtain ⟨l, -, hpayloads, -, -, -, -, hread, -⟩ :=
    manager_refines_growingLog byteSum ⟨1, 1, 0⟩ 0 growAndExpire hopen hrun
  exact ⟨m₀, m, hopen, hrun, l, hpayloads.trans (by decide), hread⟩

end EventLog.Segments
