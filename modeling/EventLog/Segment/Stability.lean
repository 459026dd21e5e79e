import EventLog.Segment.Durability

/-!
# Read stability

`Reserve` makes a record visible to readers before any fsync covers it.  A crash may drop
a record that was already read, and its offset is then given to the next append: two
successful reads at one offset return different payloads, and a consumer that committed
the offset never sees the record acknowledged there later.

Only the active segment gives out offsets.  Reads are stable in every run whose crashes
keep, of the active segment, what was read from it.  A record dropped from a sealed
segment leaves a gap, which no later record fills.
-/

namespace EventLog.Segments

open EventLog.Lib
open EventLog.Wal

variable {cs : Checksum} {m m' : Manager} {o : Nat} {d : Bytes}

/-! ## Offsets that were read -/

/-- The offset holds the record, or it lies before the active segment and holds none. -/
def Settled (cs : Checksum) (m : Manager) (o : Nat) (d : Bytes) : Prop :=
  m.Stores cs o d ∨ o < m.active.baseOffset ∧ ∀ d', ¬m.Stores cs o d'

/-- What a settled offset holds is the record it is settled at. -/
theorem Settled.eq (hs : Settled cs m o d) (h : ManagerInv cs m) {d' : Bytes}
    (hd' : m.Stores cs o d') : d = d' := by
  rcases hs with hd | ⟨-, hnone⟩
  · exact h.stores_unique hd hd'
  · exact absurd hd' (hnone d')

/-- Offsets that hold a record lie before the next offset. -/
theorem Settled.lt_nextOffset (hs : Settled cs m o d) (h : ManagerInv cs m) :
    o < m.nextOffset := by
  rcases hs with ⟨s, hs, k, rfl, hd⟩ | ⟨hlt, -⟩
  · have hk := (List.getElem?_eq_some_iff.mp hd).1
    have hnext := (h.logs s hs).nextOffset
    have := h.nextOffset_le hs
    omega
  · exact hlt.trans_le (Nat.le_add_right _ _)

/-- Every record is kept, and none is added before the active segment. -/
structure Grows (cs : Checksum) (m m' : Manager) : Prop where
  base_le : m.active.baseOffset ≤ m'.active.baseOffset
  kept : ∀ o d, m.Stores cs o d → m'.Stores cs o d
  old : ∀ o d, o < m.active.baseOffset → m'.Stores cs o d → m.Stores cs o d

theorem Settled.grows (hs : Settled cs m o d) (hg : Grows cs m m') : Settled cs m' o d := by
  rcases hs with hd | ⟨hlt, hnone⟩
  · exact .inl (hg.kept o d hd)
  · exact .inr ⟨hlt.trans_le hg.base_le, fun d' hd' => hnone d' (hg.old o d' hlt hd')⟩

/-! ## Steps without a crash -/

/-- A segment stores what it stored; the active one may store more. -/
theorem grows_of_rolled {mtime : Int} {log : OpenLog} {t : Int} (hr : Rolled m mtime m')
    (hrecs : ∀ (k : Nat) d, (m'.active.records cs)[k]? = some d →
      ({ m'.active with log := log, lastAppend := t }.records cs)[k]? = some d) :
    Grows cs m { m' with active := { m'.active with log := log, lastAppend := t } } := by
  -- a roll keeps all segments and adds one behind them
  have hbase : m.active.baseOffset ≤ m'.active.baseOffset := by
    cases hr with
    | kept => exact le_rfl
    | rolled => exact Nat.le_add_right _ _
  have hmem : ∀ s, s ∈ m'.front → s ∈ m.segments := fun s hs => by
    cases hr with
    | kept => exact List.mem_append_left _ hs
    | rolled => exact hs
  have hmem' : ∀ s, s ∈ m.segments → s ∈ m'.front ∨ s = m'.active := fun s hs => by
    cases hr with
    | kept => exact (List.mem_append.mp hs).imp id List.mem_singleton.mp
    | rolled => exact .inl hs
  refine ⟨hbase, fun o d => ?_, fun o d hlt => ?_⟩
  · rintro ⟨s, hs, k, rfl, hd⟩
    rcases hmem' s hs with hs | rfl
    · exact ⟨s, List.mem_append_left _ hs, k, rfl, hd⟩
    · exact ⟨_, List.mem_append_right _ List.mem_cons_self, k, rfl, hrecs k d hd⟩
  · rintro ⟨s, hs, k, rfl, hd⟩
    rcases List.mem_append.mp hs with hs | hs
    · exact ⟨s, hmem s hs, k, rfl, hd⟩
    · -- a record of the active segment does not lie before it
      obtain rfl := List.mem_singleton.mp hs
      simp only at hlt
      omega

/-- A segment is replaced by one with the same records. -/
theorem grows_of_setSegment {i : Nat} {s s' : Segment} (hs : m.segments[i]? = some s)
    (hbase : s'.baseOffset = s.baseOffset) (hrecs : s'.records cs = s.records cs) :
    Grows cs m (m.setSegment i s') := by
  have hsegs : List.Forall₂ (fun t t' : Segment => t'.baseOffset = t.baseOffset ∧
      t'.records cs = t.records cs) m.segments (m.setSegment i s').segments := by
    rw [segments_setSegment hs]
    exact forall₂_set (fun t => ⟨rfl, rfl⟩) hs ⟨hbase, hrecs⟩
  refine ⟨?_, fun o d => ?_, fun o d _ => ?_⟩
  · -- the last segment is still the last one
    have hlast : m.active.baseOffset = (m.setSegment i s').active.baseOffset := by
      have hbases := (map_eq_map_iff_of_forall₂ (P := fun _ => True) hsegs
        fun t _ t' ht => iff_true_intro ht.1).mpr fun _ _ => trivial
      simp only [Manager.segments, List.map_append, List.map_singleton] at hbases
      exact (List.append_inj_right' hbases rfl |> List.singleton_inj.mp).symm
    exact hlast.le
  · -- each segment has its records, before and after
    rintro ⟨t, ht, k, rfl, hd⟩
    obtain ⟨t', ht', hb, hr⟩ := exists_of_mem_left hsegs ht
    exact ⟨t', ht', k, by rw [hb], by rwa [hr]⟩
  · rintro ⟨t', ht', k, rfl, hd⟩
    obtain ⟨t, ht, hb, hr⟩ := exists_of_mem_right hsegs ht'
    exact ⟨t, ht, k, by rw [hb], by rwa [← hr]⟩

/-! ## Crashes -/

/-- The crash leaves, of the active segment's file, every record that was read from it. -/
def KeepsRead (cs : Checksum) (sys : System) : Event → Prop
  | .crash cut => ∀ p ∈ sys.reads, sys.manager.active.baseOffset ≤ p.1 →
      startOf cs (sys.manager.active.records cs) (p.1 - sys.manager.active.baseOffset + 1) ≤
        (cut sys.manager.active.baseOffset).log
  | _ => True

instance (sys : System) : DecidablePred (KeepsRead cs sys)
  | .crash _ => inferInstanceAs (Decidable (∀ p ∈ sys.reads, _ → _))
  | .append .. | .commit .. | .read .. => inferInstanceAs (Decidable True)

/-- A crash adds no record. -/
theorem Reopened.stores {cut : Nat → Cut} (hr : Reopened cs cut m m')
    (hd : m'.Stores cs o d) : m.Stores cs o d := by
  obtain ⟨s', hs', k, rfl, hd⟩ := hd
  obtain ⟨s, hs, hrec⟩ := exists_of_mem_right hr.segments hs'
  obtain ⟨n, -, hrecs, -⟩ := hrec.records
  refine ⟨s, hs, k, by rw [hrec.base], ?_⟩
  rw [hrecs] at hd
  -- the record is one of the prefix that was recovered
  have hk := (List.getElem?_eq_some_iff.mp hd).1
  rw [List.length_take] at hk
  rwa [List.getElem?_take_of_lt (by omega)] at hd

/-- Where the log ends after a crash: behind every record of the active segment whose
    bytes were left. -/
theorem Reopened.lt_nextOffset_iff {cut : Nat → Cut} (hr : Reopened cs cut m m')
    (h : ManagerInv cs m) (hlow : m.active.baseOffset ≤ o) (hhigh : o < m.nextOffset) :
    o < m'.nextOffset ↔
      startOf cs (m.active.records cs) (o - m.active.baseOffset + 1) ≤
        (cut m.active.baseOffset).log := by
  obtain ⟨n, hn, hrecs, hkept, hfits⟩ := hr.active.records
  have hnext : m'.nextOffset = m.active.baseOffset + n := by
    rw [Manager.nextOffset, hr.active.inv.nextOffset, hr.active.base, hrecs,
      List.length_take_of_le hn]
  rw [Manager.nextOffset, (h.logs m.active m.active_mem).nextOffset] at hhigh
  rw [hnext]
  -- the record came back exactly if its last byte survived
  constructor
  · intro hlt
    exact (startOf_mono (by omega)).trans hfits
  · intro hle
    have := hkept _ (by omega) hle
    omega

/-- An offset of the active segment that the log still reaches holds its record. -/
theorem Reopened.stores_active {cut : Nat → Cut} (hr : Reopened cs cut m m') {k : Nat}
    (hd : (m.active.records cs)[k]? = some d)
    (hlt : m.active.baseOffset + k < m'.nextOffset) :
    m'.Stores cs (m.active.baseOffset + k) d := by
  obtain ⟨n, hn, hrecs, -⟩ := hr.active.records
  rw [Manager.nextOffset, hr.active.inv.nextOffset, hr.active.base, hrecs,
    List.length_take_of_le hn] at hlt
  refine ⟨m'.active, m'.active_mem, k, by rw [hr.active.base], ?_⟩
  rw [hrecs, List.getElem?_take_of_lt (by omega)]
  exact hd

/-- A crash that keeps what was read from the active segment settles every settled offset
    that was read. -/
theorem Settled.reopened {cut : Nat → Cut} (hs : Settled cs m o d) (h : ManagerInv cs m)
    (hr : Reopened cs cut m m')
    (hkeep : m.active.baseOffset ≤ o → startOf cs (m.active.records cs)
      (o - m.active.baseOffset + 1) ≤ (cut m.active.baseOffset).log) :
    Settled cs m' o d := by
  rcases Nat.lt_or_ge o m.active.baseOffset with hlt | hge
  · -- before the active segment the record is still there or nothing is
    by_cases hsome : ∃ d', m'.Stores cs o d'
    · obtain ⟨d', hd'⟩ := hsome
      obtain rfl := hs.eq h (hr.stores hd')
      exact .inl hd'
    · exact .inr ⟨by rwa [hr.active.base], fun d' hd' => hsome ⟨d', hd'⟩⟩
  · have hnext := (hr.lt_nextOffset_iff h hge (hs.lt_nextOffset h)).mpr (hkeep hge)
    rcases hs with ⟨s, hs, k, rfl, hd⟩ | ⟨hlt, -⟩
    · rcases List.mem_append.mp hs with hfront | hactive
      · -- a sealed segment ends before the active one starts
        have hbefore := (List.pairwise_append.mp h.ordered).2.2 s hfront m.active
          List.mem_cons_self
        have hk := (List.getElem?_eq_some_iff.mp hd).1
        have hend := hbefore.2
        rw [(h.logs s hs).nextOffset] at hend
        omega
      · obtain rfl := List.mem_singleton.mp hactive
        exact .inl (hr.stores_active hd hnext)
    · omega

/-! ## Steps and runs -/

/-- Every offset that was read is settled at what was read, and was never read as anything
    else. -/
structure ReadsInv (cs : Checksum) (sys : System) : Prop where
  inv : ManagerInv cs sys.manager
  settled : ∀ o d, (o, d) ∈ sys.reads → Settled cs sys.manager o d
  stable : ∀ o d d', (o, d) ∈ sys.reads → (o, d') ∈ sys.reads → d = d'

theorem ReadsInv.init {cfg : Config} {mtime : Int} {sys₀ : System}
    (h : System.init cs cfg mtime = some sys₀) : ReadsInv cs sys₀ := by
  refine ⟨managerInv_of_init h, ?_, ?_⟩ <;>
  · rw [System.init_eq] at h
    obtain rfl := Option.some.inj h
    simp

/-- A step that reads nothing. -/
theorem ReadsInv.of_settled {sys : System} (h : ReadsInv cs sys) (hinv : ManagerInv cs m)
    (hsettled : ∀ o d, (o, d) ∈ sys.reads → Settled cs m o d) :
    ReadsInv cs { sys with manager := m } :=
  ⟨hinv, hsettled, h.stable⟩

/-- A successful read. -/
theorem ReadsInv.read {sys : System} (h : ReadsInv cs sys)
    (hread : sys.manager.readAt cs o = .ok d) :
    ReadsInv cs { sys with reads := sys.reads ++ [(o, d)] } := by
  have hstored := h.inv.of_readAt hread
  -- an earlier read of the offset returned the same record
  have hold : ∀ d', (o, d') ∈ sys.reads → d' = d := fun d' hd' =>
    (h.settled o d' hd').eq h.inv hstored
  have hmem : ∀ {p : Nat × Bytes}, p ∈ sys.reads ++ [(o, d)] → p ∈ sys.reads ∨ p = (o, d) :=
    fun hp => (List.mem_append.mp hp).imp id List.mem_singleton.mp
  refine ⟨h.inv, fun o' d' hd' => ?_, fun o' d₁ d₂ h₁ h₂ => ?_⟩
  · rcases hmem hd' with hd' | heq
    · exact h.settled o' d' hd'
    · obtain ⟨rfl, rfl⟩ := Prod.mk.inj heq
      exact .inl hstored
  · -- both old, one of each, or this one twice
    rcases hmem h₁ with hm₁ | heq₁
    · rcases hmem h₂ with hm₂ | heq₂
      · exact h.stable o' d₁ d₂ hm₁ hm₂
      · obtain ⟨rfl, rfl⟩ := Prod.mk.inj heq₂
        exact hold d₁ hm₁
    · obtain ⟨rfl, rfl⟩ := Prod.mk.inj heq₁
      rcases hmem h₂ with hm₂ | heq₂
      · exact (hold d₂ hm₂).symm
      · exact (Prod.mk.inj heq₂).2.symm

/-- **Step lemma.** -/
theorem ReadsInv.step {sys sys' : System} {e : Event} (h : ReadsInv cs sys)
    (ht : Transition cs sys e sys') (hatomic : e.Atomic) (hkeep : KeepsRead cs sys e) :
    ReadsInv cs sys' := by
  have hinv := h.inv.step ht hatomic
  cases ht with
  | appended data o now mtime m₁ log t hrolled ht =>
    have hactive := (h.inv.rolled hrolled).logs m₁.active m₁.active_mem
    have hrecs := (hactive.step t ht hatomic).2
    refine h.of_settled hinv fun o' d' hd' => (h.settled o' d' hd').grows
      (grows_of_rolled hrolled fun k d hd => ?_)
    -- an append adds a record behind those the segment has
    rcases hrecs with hrecs | ⟨data', o'', -, hrecs⟩
    · rwa [hrecs]
    · rw [hrecs, List.getElem?_append_left (List.getElem?_eq_some_iff.mp hd).1]
      exact hd
  | committed i e s log hs he ht =>
    have hseg := h.inv.logs s (List.mem_of_getElem? hs)
    exact h.of_settled hinv fun o' d' hd' => (h.settled o' d' hd').grows
      (grows_of_setSegment hs rfl (hseg.records_commit he ht hatomic))
  | readFailed offset => exact h
  | read offset data hread => exact h.read hread
  -- a crash keeps what was read, by assumption, or leaves the offset unused
  | crashed cut m' hcut hopen =>
    have hr := h.inv.reopened hcut hopen
    exact h.of_settled hinv fun o' d' hd' => (h.settled o' d' hd').reopened h.inv hr
      (hkeep (o', d') hd')

/-- **When reads are stable.**  In every run whose crashes keep what was read from the
    active segment, any two reads of an offset return the same payload, which is also the
    one acknowledged there if any is.  The next crash gives no offset that was read to a
    later append exactly if it keeps what was read too. -/
theorem reads_stable_of_keepsRead (cs : Checksum) (cfg : Config) (mtime : Int)
    (es : List Event) {sys₀ sys : System} (hinit : System.init cs cfg mtime = some sys₀)
    (hatomic : ∀ e ∈ es, e.Atomic) (hkeep : Along (System.step cs) (KeepsRead cs) sys₀ es)
    (hrun : run (System.step cs) sys₀ es = some sys) :
    (∀ o d d', (o, d) ∈ sys.reads → (o, d') ∈ sys.reads → d = d') ∧
      (∀ o d d', (o, d) ∈ sys.reads → (o, d') ∈ sys.manager.acked → d = d') ∧
      ∀ cut, sys.manager.MaySurvive cut → ∃ m', sys.manager.reopen cs cut = .ok m' ∧
        ((∀ p ∈ sys.reads, p.1 < m'.nextOffset) ↔ KeepsRead cs sys (.crash cut)) := by
  have h : ReadsInv cs sys := run_invariant (I := ReadsInv cs)
    (fun s e s' hs he hstep => hs.step (step_transition hstep) he.1 he.2)
    (ReadsInv.init hinit) ((along_of_forall hatomic).and hkeep) hrun
  refine ⟨h.stable, fun o d d' hd hd' => ?_, fun cut hcut => ?_⟩
  · exact (h.settled o d hd).eq h.inv (h.inv.of_mem_acked hd')
  · obtain ⟨m', hm', hr⟩ := h.inv.reopen hcut
    refine ⟨m', hm', forall₂_congr fun p hp => ?_⟩
    have hlt := (h.settled p.1 p.2 hp).lt_nextOffset h.inv
    constructor
    · intro hnext hlow
      exact (hr.lt_nextOffset_iff h.inv hlow hlt).mp hnext
    · intro hkeep
      rcases Nat.lt_or_ge p.1 sys.manager.active.baseOffset with hbefore | hlow
      · -- offsets before the active segment are never given out again
        rw [← hr.active.base] at hbefore
        exact hbefore.trans_le (Nat.le_add_right _ _)
      · exact (hr.lt_nextOffset_iff h.inv hlow hlt).mpr (hkeep hlow)

/-- A record is read, and the crash drops only the record behind it. -/
def dropUnread : List Event :=
  [.append [7] .ok 0 0, .read 0, .append [8] .ok 0 0, .crash fun _ => ⟨6, 0, 0⟩,
    .append [9] .ok 0 0, .read 0, .read 1]

theorem reads_stable_of_keepsRead_dropUnread : ∃ sys₀ sys,
    System.init byteSum ⟨100, 0, 0⟩ 0 = some sys₀ ∧
      run (System.step byteSum) sys₀ dropUnread = some sys ∧
      sys.reads = [(0, [7]), (0, [7]), (1, [9])] ∧
      ∀ o d d', (o, d) ∈ sys.reads → (o, d') ∈ sys.reads → d = d' := by
  refine ⟨_, _, rfl, rfl, by decide, ?_⟩
  refine (reads_stable_of_keepsRead byteSum ⟨100, 0, 0⟩ 0 dropUnread rfl ?_ (by decide) rfl).1
  simp [dropUnread, Event.Atomic, WriteOutcome.Atomic]

/-- A record is read before any `Sync` covers it, the crash drops it, and the next append
    is acknowledged at its offset. -/
def dropRead : List Event :=
  [.append [7] .ok 0 0, .read 0, .crash fun _ => ⟨0, 0, 0⟩, .append [8] .ok 0 0] ++
    commitAlone 0 0 ++ [.read 0]

/-- Two successful reads of offset 0 differ, and the first is not the acknowledged record. -/
theorem reads_unstable_after_crash : ∃ sys₀ sys,
    System.init byteSum ⟨100, 0, 0⟩ 0 = some sys₀ ∧ (∀ e ∈ dropRead, e.Atomic) ∧
      run (System.step byteSum) sys₀ dropRead = some sys ∧
      (0, [7]) ∈ sys.reads ∧ (0, [8]) ∈ sys.reads ∧ (0, [8]) ∈ sys.manager.acked := by
  refine ⟨_, _, rfl, ?_, rfl, by decide, by decide, by decide⟩
  simp [dropRead, commitAlone, Event.Atomic, LogEvent.Atomic, WriteOutcome.Atomic]

end EventLog.Segments
