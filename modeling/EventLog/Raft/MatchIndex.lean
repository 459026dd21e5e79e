import EventLog.Raft.LogAgreement
import EventLog.Raft.Sync

/-!
# What a leader believes about its followers

`matchIndex[p] = k` at the leader of term `T` means that `p` once answered a call of `T`
that reached index `k`.  As long as `p` has not passed `T` it still holds the leader's log
up to `k`: in term `T` only the leader's own calls change its log.

The argument needs that the term of a node is never taken back.  In runs in which every
node stays in sync with its storage it is not, and the belief is sound
(`matchIndex_sound`).  `matchIndex_unsound` is a run in which a follower acknowledges in a
term it learned without saving it, restarts in the old one and follows a leader in between.
-/

namespace EventLog.Raft

open EventLog.Lib

variable {σ : Type}

/-! ## Runs in sync -/

/-- No leader learns a term it does not save in this event. -/
def SavesTerms (s : System σ) (ev : Event) : Prop :=
  ∀ p ∈ ev.input s, ¬ LearnsTerm (s.nodes p.1) p.2

instance (s : System σ) (ev : Event) : Decidable (SavesTerms s ev) :=
  inferInstanceAs (Decidable (∀ p ∈ ev.input s, ¬ LearnsTerm (s.nodes p.1) p.2))

section Steps

variable [ReliableStorage σ] {C : Cluster} {storages : NodeID → σ} {s s' : System σ} {ev : Event}
  {o : Option NodeID} {g : History}

/-- Every node is in sync with its storage. -/
def Synced (C : Cluster) (s : System σ) : Prop := ∀ i ∈ C.ids, InSync (s.nodes i)

theorem Synced.step (hsync : Synced C s) (hb : Basic C s) (h : step C s ev = some s')
    (hev : SavesTerms s ev) : Synced C s' := by
  intro i hi
  rcases step_handle hb h i with hsame | ⟨x, hin, hnode⟩
  · rw [hsame]
    exact hsync i hi
  · rw [hnode, inSync_handle_iff (hb.persisted i hi).log_ne (hsync i hi)]
    exact hev (i, x) hin

theorem InSync.durTerm_eq {r : Raft σ} (h : InSync r) (hlog : r.log ≠ []) :
    durTerm r = r.currentTerm := by
  rw [durTerm, durable_of_stored h hlog]
  rfl

theorem Synced.durTerm_eq (hsync : Synced C s) (hb : Basic C s) {i : NodeID} (hi : i ∈ C.ids) :
    durTerm (s.nodes i) = (s.nodes i).currentTerm :=
  (hsync i hi).durTerm_eq (hb.persisted i hi).log_ne

/-! ## Acknowledgements -/

/-- A node that acknowledged the leader log of `t` up to `n` is past `t`, or is in `t` and
    holds it. -/
def Keeps (s : System σ) (g : History) : Prop :=
  ∀ p t n, Acked s g p t n → t < (s.nodes p).currentTerm ∨
    ((s.nodes p).currentTerm = t ∧ g.upTo t n <+: (s.nodes p).log)

/-- **Step lemma**: in sync, an acknowledged log is kept for the rest of the term. -/
theorem Keeps.step (hk : Keeps s g) (hs : Sound C s g) (h : Transition C s o s')
    (hsync : Synced C s) (hsync' : Synced C s') : Keeps s' (g.observe s' o) := by
  intro p t n hacked
  rcases h.acked_inv hs hacked with hold | ⟨_, hterm, hpre⟩
  · have hp := hold.mem hs
    -- the term does not decrease, since the saved one does not
    have hle : (s.nodes p).currentTerm ≤ (s'.nodes p).currentTerm := by
      rw [← hsync.durTerm_eq hs.basic hp, ← hsync'.durTerm_eq (hs.step h).basic hp]
      exact h.durTerm_le hs.basic hp
    rcases hk p t n hold with hlt | ⟨hcur, hpre⟩
    · exact Or.inl (Nat.lt_of_lt_of_le hlt hle)
    · rcases Nat.lt_or_eq_of_le hle with hlt | heq
      · exact Or.inl (hcur ▸ hlt)
      · refine Or.inr ⟨heq.symm.trans hcur, ?_⟩
        rw [History.upTo_grow (hs.le h) (hold.lt hs)]
        cases h.logStep hs.basic hp with
        | same hsame => exact hsame ▸ hpre
        | extended command _ _ hext =>
          rw [hext]
          exact hpre.trans (List.prefix_append _ _)
        | merged call hcall _ _ hprev hterm hlog hdur =>
          -- the sender is the leader of `t` itself
          have hsender : call.args.term = t := by
            rw [← hdur, hsync'.durTerm_eq (hs.step h).basic hp, ← heq, hcur]
          rw [hlog]
          refine (hs.logs.merged hs.leaders hcall hp hprev hterm).keeps hpre ?_
          rw [hsender]
          exact List.take_prefix _ _
  · exact Or.inr ⟨hterm, hpre⟩

/-- **Run lemma.** -/
theorem keeps_of_run (hfresh : ∀ i, Storage.load (storages i) = .ok none) {es : List Event}
    (hes : Along (step C) SavesTerms (System.init C storages) es)
    (hrun : Reaches C storages es s) :
    ∃ g, Inv C s g ∧ Synced C s ∧ Keeps s g := by
  refine run_invariant (I := fun s => ∃ g, Inv C s g ∧ Synced C s ∧ Keeps s g) ?_ ?_ hes hrun
  · rintro q e q' ⟨g, hi, hsync, hk⟩ hev hstep
    obtain ⟨o, h⟩ := step_transition hstep
    have hsync' := hsync.step hi.sound.basic hstep hev
    exact ⟨_, hi.step h, hsync', hk.step hi.sound h hsync hsync'⟩
  · refine ⟨_, inv_init hfresh, fun i _ => ?_, fun p t n hacked => ?_⟩
    · exact inSync_new _ _ (stored_of_load_none (hfresh i)) (by simp)
    · -- nothing is acknowledged yet
      rcases hacked with ⟨hled, _⟩ | ⟨k, reply, call, hmem, _⟩
      · cases hled
      · cases hmem

end Steps

/-- **Soundness of `matchIndex`**: in every run in which no leader learns a term it does not
    save, if a leader has `matchIndex[p] = k` then `k` is an index of its log, and `p` is
    past the leader's term or agrees with it up to `k`, in memory and in its storage. -/
theorem matchIndex_sound [ReliableStorage σ] (C : Cluster) (storages : NodeID → σ)
    (hfresh : ∀ i, Storage.load (storages i) = .ok none) (es : List Event) (s : System σ)
    (hes : Along (step C) SavesTerms (System.init C storages) es)
    (hrun : Reaches C storages es s) (l : NodeID) (hl : l ∈ C.ids)
    (hlead : (s.nodes l).state = .leader) (p : NodeID) (hp : p ∈ C.ids) :
    (s.nodes l).matchIndex p < (s.nodes l).log.length ∧
    ((s.nodes l).currentTerm < (s.nodes p).currentTerm ∨
      ∃ q, stored (s.nodes p).storage = some q ∧
        ∀ m ≤ (s.nodes l).matchIndex p, (s.nodes p).log[m]? = (s.nodes l).log[m]? ∧
          q.log[m]? = (s.nodes l).log[m]?) := by
  obtain ⟨g, hi, hsync, hk⟩ := keeps_of_run hfresh hes hrun
  have hown := hi.sound.logs.leader l hl hlead
  -- in sync the stored log is the one in memory
  suffices h : (s.nodes l).matchIndex p < (s.nodes l).log.length ∧
      ((s.nodes l).currentTerm < (s.nodes p).currentTerm ∨
        ∀ m ≤ (s.nodes l).matchIndex p, (s.nodes p).log[m]? = (s.nodes l).log[m]?) from
    ⟨h.1, h.2.imp_right fun hall => ⟨_, hsync p hp, fun m hm => ⟨hall m hm, hall m hm⟩⟩⟩
  rcases Nat.eq_zero_or_pos ((s.nodes l).matchIndex p) with hzero | hpos
  · -- only the sentinel
    rw [hzero]
    refine ⟨(hi.sound.logs.node l hl).length_pos, Or.inr fun m hm => ?_⟩
    obtain rfl := Nat.le_zero.mp hm
    rw [(hi.sound.logs.node p hp).head, (hi.sound.logs.node l hl).head]
  · have hacked := hi.commits.matched l hl hlead p _ hpos (Nat.le_refl _)
    have hlt := hacked.lt hi.sound
    rw [hown] at hlt
    refine ⟨hlt, (hk p _ _ hacked).imp_right fun ⟨_, hpre⟩ m hm => ?_⟩
    rw [History.upTo, hown] at hpre
    rw [← getElem?_prefix_of_lt hpre (by rw [List.length_take]; omega),
      List.getElem?_take_of_lt (Nat.lt_succ_of_le hm)]

/-- Node 0 knows that node 1 holds index 1. -/
theorem matchIndex_sound_replicateOnce : ∃ s,
    Reaches threeNodes (fun _ => newMemoryStorage) replicateOnce s ∧
    (s.nodes 0).state = .leader ∧ (s.nodes 0).matchIndex 1 = 1 ∧
    ((s.nodes 0).currentTerm < (s.nodes 1).currentTerm ∨
      (s.nodes 1).log[1]? = (s.nodes 0).log[1]?) := by
  have hrun : (run (step threeNodes) (System.init threeNodes fun _ => newMemoryStorage)
      replicateOnce).map (fun s => ((s.nodes 0).state, (s.nodes 0).matchIndex 1)) =
      some (.leader, 1) := by decide
  have hsaves : Along (step threeNodes) SavesTerms
      (System.init threeNodes fun _ => newMemoryStorage) replicateOnce := by decide
  obtain ⟨s, hs, heq⟩ := Option.map_eq_some_iff.mp hrun
  obtain ⟨hlead, hmatch⟩ := Prod.mk.inj heq
  have hsound := (matchIndex_sound threeNodes _ (fun _ => rfl) _ s hsaves hs 0 (by decide) hlead 1
    (by decide)).2
  refine ⟨s, hs, hlead, hmatch, hsound.imp_right fun ⟨q, _, hall⟩ => ?_⟩
  exact (hall 1 (Nat.le_of_eq hmatch.symm)).1

/-- The cluster of the nodes 0 to 4. -/
def fiveNodes : Cluster := Cluster.ofIds [0, 1, 2, 3, 4] (by decide) (by decide)

/-- Node 0 leads term 1 and appends [7], node 1 leads term 2 and sends [8] to node 0, node 2
    takes over [7] and leads term 3.  Node 0 learns of term 3 from the answer to a heartbeat,
    answers one of node 2, restarts in term 1 and then gets the call of node 1. -/
def unsavedThenOverwritten : List Event :=
  [.startElection 0, .deliverVote 2, .deliverVote 3, .voteReply 0, .voteReply 1, .start 0 [7],
    .startElection 1, .startElection 1, .deliverVote 10, .deliverVote 11, .voteReply 2,
    .voteReply 3, .start 1 [8], .replicateTo 1 0, .replicateTo 0 2, .deliverAppend 1,
    .startElection 2, .startElection 2, .deliverVote 18, .deliverVote 19, .voteReply 4,
    .voteReply 5, .replicateTo 0 3, .deliverAppend 2, .appendReply 1, .replicateTo 2 0,
    .deliverAppend 3, .appendReply 2, .restart 0, .deliverAppend 0]

/-- Node 2 leads term 3 and believes that node 0 holds its entry at index 1; node 0 is in
    term 2 and holds another. -/
theorem matchIndex_unsound : ∃ s,
    Reaches fiveNodes (fun _ => newMemoryStorage) unsavedThenOverwritten s ∧
    (s.nodes 2).state = .leader ∧ (s.nodes 2).currentTerm = 3 ∧ (s.nodes 2).matchIndex 0 = 1 ∧
    (s.nodes 2).log[1]? = some ⟨1, [7]⟩ ∧ (s.nodes 0).currentTerm = 2 ∧
    (s.nodes 0).log[1]? = some ⟨2, [8]⟩ := by
  have hrun : (run (step fiveNodes) (System.init fiveNodes fun _ => newMemoryStorage)
      unsavedThenOverwritten).map (fun s => ((s.nodes 2).state, (s.nodes 2).matchIndex 0,
        (s.nodes 2).persistent, (s.nodes 0).persistent)) =
      some (.leader, 1, ⟨3, 2, [sentinel, ⟨1, [7]⟩]⟩, ⟨2, None, [sentinel, ⟨2, [8]⟩]⟩) := by decide
  obtain ⟨s, hs, heq⟩ := Option.map_eq_some_iff.mp hrun
  simp only [Prod.mk.injEq, persistent, PersistentState.mk.injEq] at heq
  obtain ⟨hlead, hmatch, ⟨hterm₂, _, hlog₂⟩, hterm₀, _, hlog₀⟩ := heq
  refine ⟨s, hs, hlead, hterm₂, hmatch, ?_, hterm₀, ?_⟩
  · rw [hlog₂]
    rfl
  · rw [hlog₀]
    rfl

end EventLog.Raft
