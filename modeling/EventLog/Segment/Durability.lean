import EventLog.Lib.Run
import EventLog.Segment.Invariant

/-!
# Acknowledged appends are durable

An `Append` that returned nil can be read at its offset in every later state, after any
number of rolls and crashes, and no other `Append` is given that offset.
-/

namespace EventLog.Segments

open EventLog.Lib
open EventLog.Wal

variable {cs : Checksum}

/-! ## Acknowledgements are never taken back -/

theorem acked_rolled {m m₁ : Manager} {mtime : Int} (hr : Rolled m mtime m₁) :
    m₁.acked = m.acked := by
  cases hr with
  | kept => rfl
  | rolled =>
    rw [Manager.acked, Manager.acked, Manager.segments, List.flatMap_append]
    exact List.append_nil _

/-- Segments whose acknowledgements grow make those of the manager grow. -/
theorem acked_sublist_of_forall₂ {m m' : Manager}
    (h : List.Forall₂ (fun s s' : Segment => s'.baseOffset = s.baseOffset ∧
      s.log.acked.Sublist s'.log.acked) m.segments m'.segments) :
    m.acked.Sublist m'.acked := by
  refine flatMap_sublist_of_forall₂ (fun {s s'} hs => ?_) h
  rw [Segment.acked, Segment.acked, hs.1]
  exact hs.2.map _

/-- **Step lemma.** -/
theorem acked_step {sys sys' : System} {e : Event} (h : ManagerInv cs sys.manager)
    (ht : Transition cs sys e sys') : sys.manager.acked.Sublist sys'.manager.acked := by
  -- only the segment that is written gets new acknowledgements; a crash takes none away
  cases ht with
  | appended data o now mtime m₁ log t hrolled ht =>
    rw [← acked_rolled hrolled]
    refine acked_sublist_of_forall₂ (List.rel_append ?_ (.cons ⟨rfl, ht.acked_sublist⟩ .nil))
    exact List.forall₂_same.mpr fun s _ => ⟨rfl, List.Sublist.refl _⟩
  | committed i e s log hs he ht =>
    refine acked_sublist_of_forall₂ ?_
    rw [segments_setSegment hs]
    exact forall₂_set (fun s => ⟨rfl, List.Sublist.refl _⟩) hs ⟨rfl, ht.acked_sublist⟩
  | readFailed offset => exact List.Sublist.refl _
  | read offset data hread => exact List.Sublist.refl _
  | crashed cut m' hcut hopen =>
    refine acked_sublist_of_forall₂ ((h.reopened hcut hopen).segments.imp fun s s' hs => ?_)
    exact ⟨hs.base, by rw [hs.acked]⟩

/-! ## Runs -/

theorem managerInv_of_init {cfg : Config} {mtime : Int} {sys₀ : System}
    (h : System.init cs cfg mtime = some sys₀) : ManagerInv cs sys₀.manager := by
  rw [System.init_eq] at h
  obtain rfl := Option.some.inj h
  exact ManagerInv.init cs cfg.settings mtime

/-- **Run lemma**: the invariant holds along every run of all-or-nothing writes, and no
    acknowledgement is lost. -/
theorem managerInv_of_run {sys sys' : System} {es : List Event} (h : ManagerInv cs sys.manager)
    (hatomic : ∀ e ∈ es, e.Atomic) (hrun : run (System.step cs) sys es = some sys') :
    ManagerInv cs sys'.manager ∧ sys.manager.acked.Sublist sys'.manager.acked := by
  refine run_invariant (P := fun _ e => e.Atomic)
    (I := fun t => ManagerInv cs t.manager ∧ sys.manager.acked.Sublist t.manager.acked)
    (fun s e s' hs he hstep => ?_) ⟨h, List.Sublist.refl _⟩ (along_of_forall hatomic) hrun
  have ht := step_transition hstep
  exact ⟨hs.1.step ht he, hs.2.trans (acked_step hs.1 ht)⟩

/-- **Acknowledged appends are durable and unique.**  Every `Append` that returned nil
    before the second part of a run is read back after it, no acknowledgement is ever taken
    back or repeated, and `Open` succeeds after every crash. -/
theorem acked_durable (cs : Checksum) (cfg : Config) (mtime : Int) (es es' : List Event)
    {sys₀ sys₁ sys₂ : System} (hinit : System.init cs cfg mtime = some sys₀)
    (hatomic : ∀ e ∈ es ++ es', e.Atomic) (hrun : run (System.step cs) sys₀ es = some sys₁)
    (hrun' : run (System.step cs) sys₁ es' = some sys₂) :
    (∀ o d, (o, d) ∈ sys₁.manager.acked → sys₂.manager.readAt cs o = .ok d) ∧
      sys₁.manager.acked.Sublist sys₂.manager.acked ∧
      (sys₂.manager.acked.map Prod.fst).Nodup ∧
      ∀ cut, sys₂.manager.MaySurvive cut → ∃ sys₃, sys₂.step cs (.crash cut) = some sys₃ := by
  obtain ⟨h₁, -⟩ := managerInv_of_run (managerInv_of_init hinit)
    (fun e he => hatomic e (List.mem_append_left _ he)) hrun
  obtain ⟨h₂, hsub⟩ := managerInv_of_run h₁
    (fun e he => hatomic e (List.mem_append_right _ he)) hrun'
  refine ⟨fun o d hod => ?_, hsub, h₂.acked_nodup, fun cut hcut => ?_⟩
  · -- what was acknowledged then is acknowledged now, and an acknowledged record is readable
    obtain ⟨s, hs, k, rfl, hd⟩ := h₂.of_mem_acked (hsub.subset hod)
    exact h₂.readAt hs hd
  · obtain ⟨m, hm, -⟩ := h₂.reopen hcut
    simp only [System.step, guard, hcut, hm, if_true, Option.bind_eq_bind]
    exact ⟨_, rfl⟩

/-- The steps of a goroutine that flushes its own record in segment `i`. -/
def commitAlone (i k : Nat) : List Event :=
  [.commit i (.pass k), .commit i (.syncReturn k true), .commit i (.relock k fun _ => .ok),
    .commit i (.pass k)]

/-- A record, acknowledged in a segment of at most one record. -/
def ackOne : List Event := .append [7] .ok 0 0 :: commitAlone 0 0

/-- A second record in a new segment, lost in a crash before it was flushed. -/
def loseOne : List Event :=
  [.append [8] .ok 0 0, .crash fun base => ⟨if base = 0 then 6 else 0, 0, 0⟩, .read 0]

theorem acked_durable_loseOne : ∃ sys₀ sys₁ sys₂,
    System.init byteSum ⟨1, 0, 0⟩ 0 = some sys₀ ∧
      run (System.step byteSum) sys₀ ackOne = some sys₁ ∧
      run (System.step byteSum) sys₁ loseOne = some sys₂ ∧
      (0, [7]) ∈ sys₁.manager.acked ∧ sys₂.manager.readAt byteSum 0 = .ok [7] := by
  refine ⟨_, _, _, rfl, rfl, rfl, by decide, ?_⟩
  refine (acked_durable byteSum ⟨1, 0, 0⟩ 0 ackOne loseOne rfl ?_ rfl rfl).1
    0 [7] (by decide)
  simp [ackOne, loseOne, commitAlone, Event.Atomic, LogEvent.Atomic, WriteOutcome.Atomic]

end EventLog.Segments
