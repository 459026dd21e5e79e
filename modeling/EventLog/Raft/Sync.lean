import EventLog.Raft.Election
import EventLog.Raft.NodeRuns

/-!
# Memory and storage in sync

A node is in sync when `Load` would return its term, vote and log.

Every branch that changes one of the three saves them under the same lock, with one
exception: a leader that learns of a higher term from an `AppendEntries` reply steps down
and saves nothing.  `inSync_iff` says that a node is in sync, restarts into the state it
left and never takes a term back exactly as long as that does not happen.
`unsaved_step_down` is a run of a cluster in which it does.
-/

namespace EventLog.Raft

open EventLog.Lib

variable {σ : Type}

/-! ## What the storage holds -/

section Stored

variable [Storage σ] {r r' : Raft σ} {st : σ} {p : PersistentState}

/-- What `Load` returns; an empty storage counts as the state of a new node. -/
def stored (st : σ) : Option PersistentState :=
  match Storage.load st with
  | .ok (some p) => some p
  | .ok none => some { currentTerm := 0, votedFor := None, log := [sentinel] }
  | .error _ => none

/-- A restart restores what is stored. -/
theorem durable_of_stored (h : stored st = some p) (hlog : p.log ≠ []) : durable st = p := by
  rcases hload : Storage.load st with _ | _ | q <;> simp only [stored, hload] at h
  · cases h
  · obtain rfl := Option.some.inj h
    exact durable_of_load_none hload
  · obtain rfl := Option.some.inj h
    simp only [durable, hload, gt_iff_lt, List.length_pos_iff.mpr hlog, if_true]

theorem stored_of_load (h : Storage.load st = .ok (some p)) : stored st = some p := by
  simp only [stored, h]

theorem stored_of_load_none (h : Storage.load st = .ok none) :
    stored st = some { currentTerm := 0, votedFor := None, log := [sentinel] } := by
  simp only [stored, h]

theorem durable_log_ne (st : σ) : (durable st).log ≠ [] := by
  unfold durable
  split
  · split_ifs with hlen
    · exact List.length_pos_iff.mp hlen
    · simp
  · simp

theorem persistent_new (id : NodeID) (peers : List NodeID) (st : σ) :
    (Raft.new id peers st).persistent = durable st := by
  rw [new_eq]
  rfl

theorem log_new_ne (id : NodeID) (peers : List NodeID) (st : σ) :
    (Raft.new id peers st).log ≠ [] := by
  rw [new_eq]
  exact durable_log_ne st

/-! ## The invariant -/

/-- Memory and storage agree on everything that is persisted. -/
def InSync (r : Raft σ) : Prop := stored r.storage = some r.persistent

instance (r : Raft σ) : Decidable (InSync r) := inferInstanceAs (Decidable (_ = _))

theorem inSync_new (id : NodeID) (peers : List NodeID) (h : stored st = some p)
    (hlog : p.log ≠ []) : InSync (Raft.new id peers st) := by
  rw [InSync, storage_new, persistent_new, durable_of_stored h hlog, h]

/-- A restart of a node in sync resumes from what it held. -/
theorem InSync.persistent_restart (h : InSync r) (hlog : r.log ≠ []) :
    (r.handle .restart).persistent = r.persistent :=
  (persistent_new _ _ _).trans (durable_of_stored h hlog)

theorem Handled.log_ne {x : Input} (h : Handled r x r') (hlog : r.log ≠ []) : r'.log ≠ [] := by
  cases h with
  | kept r' hsame =>
    have hlog' : r'.log = r.log := congrArg PersistentState.log hsame
    rwa [hlog']
  | saved q _ hq => exact hq
  | steppedDown => exact hlog
  | restarted => exact log_new_ne _ _ _

theorem log_ne_of_run {xs : List Input} (hlog : r.log ≠ []) (hrun : run nodeStep r xs = some r') :
    r'.log ≠ [] := by
  refine run_invariant (P := fun _ _ => True) (I := fun q => q.log ≠ []) ?_ hlog
    (along_of_forall fun _ _ => trivial) hrun
  intro q x q' hq _ hstep
  obtain rfl := Option.some.inj hstep
  exact (handle_handled hq x).log_ne hq

/-- **Step lemma**: if the storage holds the state after a save of it, an input by which no
    term is learned unsaved leaves the node in sync. -/
theorem Handled.inSync {x : Input} (h : Handled r x r') (hlog : r.log ≠ []) (hsync : InSync r)
    (hkeep : stored (Storage.save r.storage r'.persistent).1 = some r'.persistent)
    (hx : ¬ LearnsTerm r x) : InSync r' := by
  cases h with
  | kept r' hsame hst =>
    rw [InSync, hst, hsame]
    exact hsync
  | saved q hst =>
    -- the save is of the state in memory
    rw [InSync, persistLocked, hst]
    exact hkeep
  | steppedDown t hlearn => exact absurd hlearn hx
  | restarted => exact inSync_new _ _ hsync hlog

/-- No input takes the term of a node in sync back, or its vote in that term. -/
theorem Handled.durableLe {x : Input} (h : Handled r x r') (hlog : r.log ≠ [])
    (hsync : InSync r) : DurableLe r.persistent r'.persistent := by
  cases h with
  | kept r' hsame => exact hsame ▸ DurableLe.refl _
  | saved q _ _ hle => exact hle
  | steppedDown t _ hlt => exact Or.inl hlt
  | restarted =>
    have hsame := hsync.persistent_restart hlog
    exact hsame.symm ▸ DurableLe.refl _

theorem handle_of_learnsTerm {peer : NodeID} {args : AppendEntriesArgs}
    {reply : AppendEntriesReply} (h : LearnsTerm r (.appendReply peer args reply)) :
    r.handle (.appendReply peer args reply) = r.becomeFollowerLocked reply.term := by
  obtain ⟨hst, ht, hlt⟩ := h
  have hguard : ¬ (r.state ≠ .leader ∨ r.currentTerm ≠ args.term) := by simp [hst, ht]
  rw [handle, replicateToReply, if_neg hguard, if_pos hlt]

/-- The term a leader learns from an `AppendEntries` reply is not the stored one. -/
theorem not_inSync_of_learnsTerm {x : Input} (hsync : InSync r) (hx : LearnsTerm r x) :
    ¬ InSync (r.handle x) := by
  cases x with
  | appendReply peer args reply =>
    rw [handle_of_learnsTerm hx]
    intro h
    have hterm : r.currentTerm = reply.term :=
      congrArg PersistentState.currentTerm (Option.some.inj (hsync.symm.trans h))
    have hlt := hx.2.2
    omega
  | startElection | voteReply | requestVote | start | appendEntries | apply | restart => cases hx

end Stored

/-! ## Runs -/

section Runs

variable [ReliableStorage σ]

/-- One input leaves a node in sync exactly if it is not an unsaved step down. -/
theorem inSync_handle_iff {r : Raft σ} (hlog : r.log ≠ []) (hsync : InSync r) (x : Input) :
    InSync (r.handle x) ↔ ¬ LearnsTerm r x :=
  ⟨fun h hx => not_inSync_of_learnsTerm hsync hx h,
    (handle_handled hlog x).inSync hlog hsync (stored_of_load (ReliableStorage.load_save _ _))⟩

/-- **Run lemma**: without unsaved step downs no term or vote is taken back. -/
theorem InSync.durableLe_run {r r' : Raft σ} {xs : List Input} (hlog : r.log ≠ [])
    (hsync : InSync r) (hxs : Along nodeStep (fun r x => ¬ LearnsTerm r x) r xs)
    (hrun : run nodeStep r xs = some r') : DurableLe r.persistent r'.persistent := by
  refine (run_invariant
    (I := fun q => q.log ≠ [] ∧ InSync q ∧ DurableLe r.persistent q.persistent) ?_
    ⟨hlog, hsync, DurableLe.refl _⟩ hxs hrun).2.2
  rintro q x q' ⟨hq, hqs, hle⟩ hx hstep
  obtain rfl := Option.some.inj hstep
  have hout := handle_handled hq x
  exact ⟨hout.log_ne hq, (inSync_handle_iff hq hqs x).mpr hx, hle.trans (hout.durableLe hq hqs)⟩

/-- **Memory and storage**: over a run of any inputs, on any storage that holds nothing or
    a state some node saved, the node is in sync whenever its lock is free, a restart
    at any moment resumes from the term, vote and log it held, and the term never
    decreases; all this exactly if no leader learns of a higher term from an
    `AppendEntries` reply. -/
theorem inSync_iff (id : NodeID) (peers : List NodeID) (st : σ) (p : PersistentState)
    (hst : stored st = some p) (hlog : p.log ≠ []) (xs : List Input) :
    ((∀ xs₁ r₁, xs₁ <+: xs → run nodeStep (Raft.new id peers st) xs₁ = some r₁ →
        InSync r₁ ∧ (r₁.handle .restart).persistent = r₁.persistent) ∧
      ∀ xs₁ xs₂ r₁ r₂, xs₁ <+: xs₂ → xs₂ <+: xs →
        run nodeStep (Raft.new id peers st) xs₁ = some r₁ →
        run nodeStep (Raft.new id peers st) xs₂ = some r₂ → r₁.currentTerm ≤ r₂.currentTerm) ↔
    Along nodeStep (fun r x => ¬ LearnsTerm r x) (Raft.new id peers st) xs := by
  obtain ⟨r, hrun⟩ := exists_run_nodeStep (Raft.new id peers st) xs
  -- the exact rule for the invariant, with the log that every node has
  have hiff := run_invariant_iff (I := fun q => q.log ≠ [] ∧ InSync q)
    (P := fun q x => ¬ LearnsTerm q x)
    (fun q x q' hq hstep => by
      obtain rfl := Option.some.inj hstep
      rw [inSync_handle_iff hq.1 hq.2 x |>.symm]
      exact and_iff_right ((handle_handled hq.1 x).log_ne hq.1))
    ⟨log_new_ne id peers st, inSync_new id peers hst hlog⟩ hrun
  constructor
  · rintro ⟨hsync, _⟩
    exact hiff.mp fun xs₁ r₁ hpre hrun₁ =>
      ⟨log_ne_of_run (log_new_ne _ _ _) hrun₁, (hsync xs₁ r₁ hpre hrun₁).1⟩
  · intro hxs
    refine ⟨fun xs₁ r₁ hpre hrun₁ => ?_, ?_⟩
    · obtain ⟨hlog₁, hsync₁⟩ := hiff.mpr hxs xs₁ r₁ hpre hrun₁
      exact ⟨hsync₁, hsync₁.persistent_restart hlog₁⟩
    · -- in sync the terms are the saved ones, and what is saved only advances
      rintro xs₁ _ r₁ r₂ ⟨ys, rfl⟩ ⟨zs, rfl⟩ hrun₁ hrun₂
      obtain ⟨r₁', hr₁', hrest⟩ := run_append_eq_some hrun₂
      obtain rfl := Option.some.inj (hr₁'.symm.trans hrun₁)
      obtain ⟨hlog₁, hsync₁⟩ := hiff.mpr hxs xs₁ _ ⟨ys ++ zs, (List.append_assoc ..).symm⟩ hrun₁
      exact (hsync₁.durableLe_run hlog₁ (hxs.front.rest hrun₁) hrest).term_le

end Runs

/-- A candidate that crashes after it saved its vote restarts with that vote. -/
theorem inSync_iff_candidate : ∃ r,
    run nodeStep (Raft.new 0 [1, 2] newMemoryStorage) [.startElection] = some r ∧
    InSync r ∧ (r.handle .restart).persistent = ⟨1, 0, [sentinel]⟩ := by
  have hrun : run nodeStep (Raft.new 0 [1, 2] newMemoryStorage) [.startElection] =
    some ((Raft.new 0 [1, 2] newMemoryStorage).handle .startElection) := rfl
  have hsafe := (inSync_iff 0 [1, 2] newMemoryStorage ⟨0, None, [sentinel]⟩ rfl (by decide)
    [.startElection]).mpr (by decide)
  obtain ⟨hsync, hrestart⟩ := hsafe.1 _ _ (List.prefix_refl _) hrun
  exact ⟨_, hrun, hsync, hrestart⟩

/-- Node 0 leads term 1, learns of term 2 from the answer to a heartbeat and restarts in
    term 1. -/
theorem unsaved_step_down : ∃ s s',
    Reaches threeNodes (fun _ => newMemoryStorage)
      [.startElection 0, .deliverVote 0, .voteReply 0, .startElection 1, .replicateTo 0 1,
        .deliverAppend 0, .appendReply 0] s ∧
    (s.nodes 0).persistent = ⟨2, None, [sentinel]⟩ ∧
    stored (s.nodes 0).storage = some ⟨1, 0, [sentinel]⟩ ∧
    step threeNodes s (.restart 0) = some s' ∧ (s'.nodes 0).currentTerm = 1 := by
  have hrun : (run (step threeNodes) (System.init threeNodes fun _ => newMemoryStorage)
      [.startElection 0, .deliverVote 0, .voteReply 0, .startElection 1, .replicateTo 0 1,
        .deliverAppend 0, .appendReply 0]).map
      (fun s => ((s.nodes 0).persistent, stored (s.nodes 0).storage,
        (step threeNodes s (.restart 0)).map fun s' => (s'.nodes 0).currentTerm)) =
      some (⟨2, None, [sentinel]⟩, some ⟨1, 0, [sentinel]⟩, some 1) := by decide
  obtain ⟨s, hs, heq⟩ := Option.map_eq_some_iff.mp hrun
  obtain ⟨hmem, hrest⟩ := Prod.mk.inj heq
  obtain ⟨hst, hnext⟩ := Prod.mk.inj hrest
  obtain ⟨s', hs', hterm⟩ := Option.map_eq_some_iff.mp hnext
  exact ⟨s, s', hs, hmem, hst, hs', hterm⟩

end EventLog.Raft
