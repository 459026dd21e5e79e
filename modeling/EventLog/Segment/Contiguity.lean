import EventLog.Segment.Durability

/-!
# Gaps between segments

A roll starts the new segment where the old one ends, so segments are contiguous until a
crash cuts one.  `roll` does not flush the segment it seals: its last records may still
wait for their fsync when records of the next segment are acknowledged.  A crash that
drops them leaves a gap that no later append fills, and a consumer that walks the log
stops there.

Contiguity survives a crash exactly when every sealed segment keeps its whole records.
-/

namespace EventLog.Segments

open EventLog.Lib
open EventLog.Wal

variable {cs : Checksum} {m m' : Manager}

/-- Each segment ends where the next one starts. -/
def Contiguous (m : Manager) : Prop :=
  m.segments.IsChain fun s s' => s.nextOffset = s'.baseOffset

instance (m : Manager) : Decidable (Contiguous m) :=
  inferInstanceAs (Decidable (m.segments.IsChain _))

/-! ## Reading a contiguous log -/

/-- In a contiguous log every offset from the earliest to the next is stored. -/
theorem ManagerInv.exists_record (h : ManagerInv cs m) (hc : Contiguous m) {o : Nat}
    (hlow : m.earliestOffset ≤ o) (hhigh : o < m.nextOffset) :
    ∃ s ∈ m.segments, ∃ k d, o = s.baseOffset + k ∧ (s.records cs)[k]? = some d := by
  have hlast : ∀ hne, m.segments.getLast hne = m.active := fun hne => by
    simp only [Manager.segments, List.getLast_append_singleton]
  rw [Contiguous, segments_eq_cons] at hc
  -- each segment starts where the one before ends, so one of them has `o` in its range
  obtain ⟨s, hs, hstart, hstop⟩ := exists_mem_of_isChain hc hlow (by
    simp only [← segments_eq_cons, hlast]
    exact hhigh)
  rw [← segments_eq_cons] at hs
  have hinv := h.logs s hs
  refine ⟨s, hs, hinv.contains_iff.mp ?_⟩
  rw [Segment.contains, Bool.and_eq_true, decide_eq_true_iff, decide_eq_true_iff]
  exact ⟨hstart, hstop⟩

/-- Every offset of the log is read back. -/
theorem ManagerInv.exists_readAt (h : ManagerInv cs m) (hc : Contiguous m) {o : Nat}
    (hlow : m.earliestOffset ≤ o) (hhigh : o < m.nextOffset) :
    ∃ d, m.readAt cs o = .ok d := by
  obtain ⟨s, hs, k, d, rfl, hd⟩ := h.exists_record hc hlow hhigh
  exact ⟨d, h.readAt hs hd⟩

/-- **Run lemma of a reader**: if every offset from the cursor to `o` can be read, so
    many calls of `Next` return them in order, `o` last. -/
theorem drive_eq {r : Reader} {n : Nat} {d : Bytes}
    (hread : ∀ i, i < n → ∃ d', m.readAt cs (r.offset + i) = .ok d')
    (hlast : m.readAt cs (r.offset + n) = .ok d) :
    ∃ l, r.drive cs m (n + 1) = (l ++ [(d, r.offset + n)], none) := by
  -- the induction is the loop of reads, which starts over one offset further
  induction n generalizing r with
  | zero =>
    rw [Nat.add_zero] at hlast
    refine ⟨[], ?_⟩
    rw [Reader.drive, Reader.next, hlast]
    rfl
  | succ n ih =>
    obtain ⟨d', hd'⟩ := hread 0 (Nat.succ_pos n)
    obtain ⟨l, hl⟩ := ih (r := ⟨r.offset + 1⟩)
      (fun i hi => by
        have := hread (i + 1) (by omega)
        rwa [Nat.add_right_comm, Nat.add_assoc])
      (by rwa [Nat.add_right_comm, Nat.add_assoc])
    refine ⟨(d', r.offset) :: l, ?_⟩
    rw [Nat.add_zero] at hd'
    rw [Reader.drive, Reader.next, hd']
    simp only [hl, List.cons_append]
    rw [Nat.add_right_comm, Nat.add_assoc]

/-! ## Steps -/

theorem contiguous_iff :
    Contiguous m ↔ m.front.map Segment.nextOffset = (m.segments.map Segment.baseOffset).tail := by
  rw [← List.map_tail]
  exact isChain_concat_iff

/-- Contiguity only depends on where segments start and sealed ones end. -/
theorem Contiguous.congr (hc : Contiguous m)
    (hfront : m'.front.map Segment.nextOffset = m.front.map Segment.nextOffset)
    (hbases : m'.segments.map Segment.baseOffset = m.segments.map Segment.baseOffset) :
    Contiguous m' := by
  rw [contiguous_iff] at hc ⊢
  rw [hfront, hbases, hc]

theorem Contiguous.rolled (hc : Contiguous m) {mtime : Int} (hr : Rolled m mtime m') :
    Contiguous m' := by
  cases hr with
  | kept => exact hc
  | rolled =>
    refine List.isChain_append.mpr ⟨hc, List.isChain_singleton _, fun s hs s' hs' => ?_⟩
    rw [List.getLast?_concat, Option.mem_some] at hs
    obtain rfl : m.active = s := hs
    obtain rfl : Segment.fresh m.active.nextOffset mtime = s' := by simpa using hs'
    rfl

/-- The last segments of a contiguous log are contiguous. -/
theorem Contiguous.of_suffix (hc : Contiguous m) {vs : List Segment}
    (hsegs : m.segments = vs ++ m'.segments) : Contiguous m' := by
  rw [Contiguous, hsegs] at hc
  exact hc.right_of_append

/-- A commit step moves no segment. -/
theorem Contiguous.committed (hc : Contiguous m) {i : Nat} {s s' : Segment}
    (hs : m.segments[i]? = some s) (hbase : s'.baseOffset = s.baseOffset)
    (hnext : s'.nextOffset = s.nextOffset) : Contiguous (m.setSegment i s') := by
  obtain ⟨hi, rfl⟩ := List.getElem?_eq_some_iff.mp hs
  -- neither the base offsets nor the ends change
  have hmap : ∀ {f : Segment → Nat}, f s' = f m.segments[i] →
      (m.setSegment i s').segments.map f = m.segments.map f := fun {f} hf => by
    rw [segments_setSegment hs, List.map_set, hf,
      ← List.getElem_map f (h := by simpa using hi), List.set_getElem_self]
  have hfront : ∀ m : Manager, m.front.map Segment.nextOffset =
      (m.segments.map Segment.nextOffset).dropLast := fun m => by
    rw [Manager.segments, List.map_append, List.map_singleton, List.dropLast_concat]
  refine hc.congr ?_ (hmap hbase)
  rw [hfront, hfront, hmap hnext]

/-- A recovered segment ends where it did exactly when its whole records were kept. -/
theorem Recovered.nextOffset_eq_iff {cut : Nat → Cut} {s s' : Segment}
    (hr : Recovered cs cut s s') (hs : SegInv cs s) :
    s'.nextOffset = s.nextOffset ↔ s.size ≤ (cut s.baseOffset).log := by
  -- a prefix of the records came back: all those whose bytes survived
  obtain ⟨n, hn, hrecs, hkept, hfits⟩ := hr.records
  have hsize : s.size = startOf cs (s.records cs) (s.records cs).length := by
    obtain ⟨n₀, cps, h, -⟩ := hs
    rw [Segment.size, h.size, startOf_length]
  have hnext : s'.nextOffset = s.baseOffset + n := by
    rw [hr.inv.nextOffset, hr.base, hrecs, List.length_take_of_le hn]
  rw [hnext, hs.nextOffset, hsize]
  constructor
  · intro heq
    obtain rfl : n = (s.records cs).length := by omega
    exact hfits
  · intro hle
    have := hkept _ le_rfl hle
    omega

/-- **Contiguity survives a crash exactly when every sealed segment keeps its records.** -/
theorem Reopened.contiguous_iff {cut : Nat → Cut} (hr : Reopened cs cut m m')
    (h : ManagerInv cs m) (hc : Contiguous m) :
    Contiguous m' ↔ ∀ s ∈ m.front, s.size ≤ (cut s.baseOffset).log := by
  have hbases : m'.segments.map Segment.baseOffset = m.segments.map Segment.baseOffset :=
    (map_eq_map_iff_of_forall₂ (P := fun _ => True) hr.segments
      fun s _ s' hs => iff_true_intro hs.base).mpr fun _ _ => trivial
  rw [Segments.contiguous_iff, hbases, ← Segments.contiguous_iff.mp hc]
  refine map_eq_map_iff_of_forall₂ hr.front fun s hs s' hrec => ?_
  exact hrec.nextOffset_eq_iff (h.logs s (List.mem_append_left _ hs))

/-- A crash keeps the whole records of every sealed segment. -/
def KeepsSealed (sys : System) : Event → Prop
  | .crash cut => ∀ s ∈ sys.manager.front, s.size ≤ (cut s.baseOffset).log
  | _ => True

instance (sys : System) : DecidablePred (KeepsSealed sys)
  | .crash _ => inferInstanceAs (Decidable (∀ s ∈ sys.manager.front, _))
  | .append .. | .commit .. | .read .. => inferInstanceAs (Decidable True)

/-- **Step lemma.** -/
theorem Contiguous.step {sys sys' : System} {e : Event} (hc : Contiguous sys.manager)
    (h : ManagerInv cs sys.manager) (ht : Transition cs sys e sys') (hatomic : e.Atomic)
    (hkeep : KeepsSealed sys e) : Contiguous sys'.manager := by
  cases ht with
  | appended data o now mtime m₁ log t hrolled ht =>
    -- a roll starts at the end of the active segment, and an append moves that end only
    refine (hc.rolled hrolled).congr rfl ?_
    simp only [Manager.segments, List.map_append, List.map_singleton]
  | committed i e s log hs he ht =>
    have hinv := h.logs s (List.mem_of_getElem? hs)
    exact hc.committed hs rfl ((hinv.sameRecords_commit he ht hatomic).nextOffset hinv)
  | readFailed offset => exact hc
  | read offset data hread => exact hc
  -- a crash keeps the chain exactly if it keeps the sealed segments whole
  | crashed cut m' hcut hopen =>
    exact ((h.reopened hcut hopen).contiguous_iff h hc).mpr hkeep

/-! ## Runs -/

/-- A consumer that starts at the earliest offset is handed the record `d` at `o` by its
    last call of `Next`, and no call before reported an error. -/
def Reaches (cs : Checksum) (m : Manager) (o : Nat) (d : Bytes) : Prop :=
  ∃ n l, (newReader m).drive cs m n = (l ++ [(d, o)], none)

/-- In a contiguous log a consumer reaches every stored record. -/
theorem ManagerInv.reaches (h : ManagerInv cs m) (hc : Contiguous m) {s : Segment} {k : Nat}
    {d : Bytes} (hs : s ∈ m.segments) (hd : (s.records cs)[k]? = some d) :
    Reaches cs m (s.baseOffset + k) d := by
  have hlow := h.earliestOffset_le hs
  have hhigh := h.nextOffset_le hs
  have hnext := (h.logs s hs).nextOffset
  have hk := (List.getElem?_eq_some_iff.mp hd).1
  have hoff : m.earliestOffset + (s.baseOffset + k - m.earliestOffset) = s.baseOffset + k := by
    omega
  -- every offset on the way is readable, so the reader does not stop before this one
  obtain ⟨l, hl⟩ := drive_eq (r := newReader m)
    (n := s.baseOffset + k - m.earliestOffset) (d := d)
    (fun i hi => h.exists_readAt hc (Nat.le_add_right _ _)
      (show m.earliestOffset + i < _ by omega))
    (by rw [newReader, hoff]; exact h.readAt hs hd)
  rw [newReader, hoff] at hl
  exact ⟨_, l, hl⟩

/-- **Run lemma**: segments stay contiguous as long as crashes keep the sealed ones. -/
theorem contiguous_of_run {cfg : Config} {mtime : Int} {es : List Event} {sys₀ sys : System}
    (hinit : System.init cs cfg mtime = some sys₀) (hatomic : ∀ e ∈ es, e.Atomic)
    (hkeep : Along (System.step cs) KeepsSealed sys₀ es)
    (hrun : run (System.step cs) sys₀ es = some sys) :
    ManagerInv cs sys.manager ∧ Contiguous sys.manager := by
  -- a new log is one empty segment
  have hinit' : Contiguous sys₀.manager := by
    rw [System.init_eq] at hinit
    obtain rfl := Option.some.inj hinit
    exact List.isChain_singleton _
  exact run_invariant (I := fun t : System => ManagerInv cs t.manager ∧ Contiguous t.manager)
    (fun s e s' hs he hstep => by
      have ht := step_transition hstep
      exact ⟨hs.1.step ht he.1, hs.2.step hs.1 ht he.1 he.2⟩)
    ⟨managerInv_of_init hinit, hinit'⟩ ((along_of_forall hatomic).and hkeep) hrun

/-- **When there is no gap.**  In every run whose crashes keep the whole records of sealed
    segments, segments are contiguous and a consumer reaches every acknowledged record;
    and the next crash leaves no gap exactly if it keeps them too. -/
theorem contiguous_of_keepsSealed (cs : Checksum) (cfg : Config) (mtime : Int)
    (es : List Event) {sys₀ sys : System} (hinit : System.init cs cfg mtime = some sys₀)
    (hatomic : ∀ e ∈ es, e.Atomic) (hkeep : Along (System.step cs) KeepsSealed sys₀ es)
    (hrun : run (System.step cs) sys₀ es = some sys) :
    Contiguous sys.manager ∧
      (∀ o d, (o, d) ∈ sys.manager.acked → Reaches cs sys.manager o d) ∧
      ∀ cut, sys.manager.MaySurvive cut → ∃ m', sys.manager.reopen cs cut = .ok m' ∧
        (Contiguous m' ↔ ∀ s ∈ sys.manager.front, s.size ≤ (cut s.baseOffset).log) := by
  obtain ⟨h, hc⟩ := contiguous_of_run hinit hatomic hkeep hrun
  refine ⟨hc, fun o d hod => ?_, fun cut hcut => ?_⟩
  · obtain ⟨s, hs, k, rfl, hd⟩ := h.of_mem_acked hod
    exact h.reaches hc hs hd
  · obtain ⟨m', hm', hr⟩ := h.reopen hcut
    exact ⟨m', hm', hr.contiguous_iff h hc⟩

/-- A consumer whose first call fails reaches nothing. -/
theorem not_reaches {e : ReadAtError} (h : m.readAt cs m.earliestOffset = .error e) (o : Nat)
    (d : Bytes) : ¬Reaches cs m o d := by
  rintro ⟨n, l, hl⟩
  cases n with
  | zero => simp [Reader.drive] at hl
  | succ n => simp [Reader.drive, Reader.next, newReader, h] at hl

/-- Two records in two segments; only the second is flushed, and acknowledged. -/
def sealUnsynced : List Event :=
  [.append [7] .ok 0 0, .append [8] .ok 0 0] ++ commitAlone 1 0

/-- A crash that keeps both records. -/
theorem contiguous_of_keepsSealed_keepBoth : ∃ sys₀ sys,
    System.init byteSum ⟨1, 0, 0⟩ 0 = some sys₀ ∧
      run (System.step byteSum) sys₀ (sealUnsynced ++ [.crash fun _ => ⟨6, 0, 0⟩]) = some sys ∧
      (1, [8]) ∈ sys.manager.acked ∧ Reaches byteSum sys.manager 1 [8] := by
  refine ⟨_, _, rfl, rfl, by decide, ?_⟩
  refine (contiguous_of_keepsSealed byteSum ⟨1, 0, 0⟩ 0
    (sealUnsynced ++ [.crash fun _ => ⟨6, 0, 0⟩]) rfl ?_ (by decide) rfl).2.1 1 [8]
    (by decide)
  simp [sealUnsynced, commitAlone, Event.Atomic, LogEvent.Atomic, WriteOutcome.Atomic]

/-- A crash that drops the record of the sealed segment, which no `Sync` covered: there is
    a gap, and a consumer reports the end of the log before the acknowledged record. -/
theorem gap_after_crash : ∃ sys₀ sys,
    System.init byteSum ⟨1, 0, 0⟩ 0 = some sys₀ ∧
      (∀ e ∈ sealUnsynced ++ [.crash fun base => ⟨if base = 0 then 0 else 6, 0, 0⟩], e.Atomic) ∧
      run (System.step byteSum) sys₀
        (sealUnsynced ++ [.crash fun base => ⟨if base = 0 then 0 else 6, 0, 0⟩]) = some sys ∧
      ¬Contiguous sys.manager ∧ (1, [8]) ∈ sys.manager.acked ∧
      ((newReader sys.manager).next byteSum sys.manager).2 = .error (.wal .eof) ∧
      ¬Reaches byteSum sys.manager 1 [8] := by
  refine ⟨_, _, rfl, ?_, rfl, by decide, by decide, by decide,
    not_reaches (e := .wal .eof) (by decide) 1 [8]⟩
  simp [sealUnsynced, commitAlone, Event.Atomic, LogEvent.Atomic, WriteOutcome.Atomic]

end EventLog.Segments
