import EventLog.Raft.StateMachine

/-!
# Safety of whole runs

The invariants of the previous modules hold in every state a run reaches, with a
history that only grows along the run.  From this follow state machine safety and
leader completeness as statements about runs.
-/

namespace EventLog.Raft

open EventLog.Lib

variable {σ : Type} [ReliableStorage σ] {C : Cluster} {storages : NodeID → σ}

/-! ## The invariant along a run -/

/-- All invariants of the cluster. -/
structure Inv (C : Cluster) (s : System σ) (g : History) : Prop where
  sound : Sound C s g
  acks : Acks C s g
  commits : Commits C s g

theorem Inv.step {s s' : System σ} {o : Option NodeID} {g : History} (hi : Inv C s g)
    (h : Transition C s o s') : Inv C s' (g.observe s' o) where
  sound := hi.sound.step h
  acks := hi.acks.step hi.sound h
  commits := hi.commits.step hi.sound hi.acks h

theorem inv_init (hfresh : ∀ i, Storage.load (storages i) = .ok none) :
    Inv C (System.init C storages) History.init :=
  ⟨sound_init storages hfresh, acks_init storages, commits_init storages⟩

/-- **Run lemma**: a run extends the history, and what was committed stays committed. -/
theorem inv_run {s s' : System σ} {es : List Event} {g : History} (hi : Inv C s g)
    (hrun : run (step C) s es = some s') :
    ∃ g', g ≤ g' ∧ Inv C s' g' ∧ ∀ t n, Committed C s g t n → Committed C s' g' t n := by
  refine run_extends (P := fun s' g' => Inv C s' g' ∧
    ∀ t n, Committed C s g t n → Committed C s' g' t n) ?_ ⟨hi, fun _ _ h => h⟩ hrun
  rintro s₁ e s₂ g₁ ⟨hi₁, hcom₁⟩ hstep
  obtain ⟨o, h⟩ := step_transition hstep
  exact ⟨g₁.observe s₂ o, hi₁.sound.le h, hi₁.step h,
    fun t n hc => (hcom₁ t n hc).step hi₁.sound h⟩

theorem inv_of_run (hfresh : ∀ i, Storage.load (storages i) = .ok none) {es : List Event}
    {s : System σ} (hrun : Reaches C storages es s) : ∃ g, Inv C s g := by
  obtain ⟨g, _, hg, _⟩ := inv_run (inv_init hfresh) hrun
  exact ⟨g, hg⟩

/-! ## State machine safety -/

/-- **State machine safety**: messages delivered anywhere in a run with the same index,
    by any nodes and across restarts, carry the same command. -/
theorem state_machine_safety (C : Cluster) (storages : NodeID → σ)
    (hfresh : ∀ i, Storage.load (storages i) = .ok none) (es : List Event) (s : System σ)
    (hrun : Reaches C storages es s) (i j : NodeID) (m m' : ApplyMsg)
    (hm : (i, m) ∈ s.applied) (hm' : (j, m') ∈ s.applied)
    (hidx : m.commandIndex = m'.commandIndex) : m.command = m'.command := by
  obtain ⟨g, hg⟩ := inv_of_run hfresh hrun
  exact hg.commits.applied_agree hg.sound hg.acks hm hm' hidx

/-- Node 0 commits a command with node 1 and both apply it. -/
def replicateOnce : List Event :=
  [.startElection 0, .deliverVote 0, .voteReply 0, .start 0 [7], .replicateTo 0 1,
    .deliverAppend 0, .appendReply 0, .apply 0, .replicateTo 0 1, .deliverAppend 1, .apply 1]

theorem state_machine_safety_replicateOnce : ∃ s m m',
    Reaches threeNodes (fun _ => newMemoryStorage) replicateOnce s ∧
    (0, m) ∈ s.applied ∧ (1, m') ∈ s.applied ∧ m.commandIndex = m'.commandIndex ∧
    m.command = m'.command := by
  have hrun : (run (step threeNodes) (System.init threeNodes fun _ => newMemoryStorage)
      replicateOnce).map (·.applied) = some [(0, ⟨true, [7], 1⟩), (1, ⟨true, [7], 1⟩)] := by
    decide
  obtain ⟨s, hs, happ⟩ := Option.map_eq_some_iff.mp hrun
  have h0 : (0, ⟨true, [7], 1⟩) ∈ s.applied := by rw [happ]; decide
  have h1 : (1, ⟨true, [7], 1⟩) ∈ s.applied := by rw [happ]; decide
  exact ⟨s, _, _, hs, h0, h1, rfl,
    state_machine_safety threeNodes _ (fun _ => rfl) _ s hs 0 1 _ _ h0 h1 rfl⟩

/-! ## Leader completeness -/

/-- The leader `l` is the first node of its run to commit index `n`, at the end of `es`. -/
structure FirstCommit (C : Cluster) (storages : NodeID → σ) (n : Nat) (es : List Event)
    (s : System σ) (l : NodeID) : Prop where
  reaches : Reaches C storages es s
  mem : l ∈ C.ids
  leader : (s.nodes l).state = .leader
  commit : n ≤ (s.nodes l).commitIndex
  first : ∀ es₀ s₀, es₀ <+: es → es₀ ≠ es → Reaches C storages es₀ s₀ →
    ∀ j ∈ C.ids, (s₀.nodes j).commitIndex < n

/-- No node has committed `n` and no leader has announced it. -/
def Quiet (C : Cluster) (n : Nat) (s : System σ) : Prop :=
  (∀ j ∈ C.ids, (s.nodes j).commitIndex < n) ∧ ∀ c ∈ s.appendCalls, c.args.leaderCommit < n

/-- Only a leader commits an index nobody has announced. -/
theorem Quiet.node {n : Nat} {s s' : System σ} {o : Option NodeID} (hq : Quiet C n s)
    (h : Transition C s o s') {l : NodeID} (hl : l ∈ C.ids)
    (hcommit : n ≤ (s'.nodes l).commitIndex) : (s'.nodes l).state = .leader := by
  have hlt := hq.1 l hl
  have hstep := h.node l
  generalize s'.nodes l = r' at hstep hcommit ⊢
  cases hstep with
  | same => exact absurd hcommit (Nat.not_le.mpr hlt)
  | startElection => exact absurd hcommit (Nat.not_le.mpr hlt)
  | start command => exact absurd hcommit (Nat.not_le.mpr hlt)
  | requestVote call r reply _ _ hr =>
    cases hr with
    | refused | granted | adopted | adoptedGranted => exact absurd hcommit (Nat.not_le.mpr hlt)
  -- what the request announces is below `n`, and so is what the node takes from it
  | appendEntries call r reply hcall _ hr =>
    have hann := hq.2 call hcall
    cases hr with
    | stale => exact absurd hcommit (Nat.not_le.mpr hlt)
    | rejected =>
      rw [persistIf_commitIndex] at hcommit
      exact absurd hcommit (Nat.not_le.mpr hlt)
    | accepted =>
      rw [persistIf_commitIndex] at hcommit
      simp only at hcommit
      split_ifs at hcommit <;> omega
  | voteReply call r reply votes votes' _ _ hr =>
    cases hr with
    | ignored | counted | elected | steppedDown => exact absurd hcommit (Nat.not_le.mpr hlt)
  -- only an answer that is counted can move a leader's commit index
  | appendReply k call r reply _ _ _ hr =>
    cases hr with
    | ignored | steppedDown | backedUp => exact absurd hcommit (Nat.not_le.mpr hlt)
    | matched hcounts => exact hcounts.1
  | apply r msg _ hr =>
    obtain ⟨_, rfl, _⟩ := applyLoop_eq_some hr
    exact absurd hcommit (Nat.not_le.mpr hlt)
  | restart =>
    rw [new_eq] at hcommit
    exact absurd hcommit (Nat.not_le.mpr (Nat.zero_lt_of_lt hlt))

theorem Quiet.step {n : Nat} {s s' : System σ} {o : Option NodeID} (hq : Quiet C n s)
    (h : Transition C s o s') :
    Quiet C n s' ∨ ∃ l ∈ C.ids, (s'.nodes l).state = .leader ∧ n ≤ (s'.nodes l).commitIndex := by
  by_cases hall : ∀ j ∈ C.ids, (s'.nodes j).commitIndex < n
  · refine Or.inl ⟨hall, fun c hc => ?_⟩
    cases h with
    -- a new request announces the commit index of its sender
    | replicateTo i peer hi =>
      rcases List.mem_append.mp hc with hc | hc
      · exact hq.2 c hc
      · obtain rfl := List.mem_singleton.mp hc
        exact hq.1 i hi
    | _ => exact hq.2 c hc
  · push Not at hall
    obtain ⟨l, hl, hcommit⟩ := hall
    exact Or.inr ⟨l, hl, hq.node h hl hcommit, hcommit⟩

/-- **Run lemma**: an index that some node has committed was first committed by a leader. -/
theorem firstCommit_of_run {n : Nat} (hn : 0 < n) {es : List Event} {s : System σ}
    (hrun : Reaches C storages es s) {i : NodeID} (hi : i ∈ C.ids)
    (hcommit : n ≤ (s.nodes i).commitIndex) :
    ∃ es₁ s₁ l, es₁ <+: es ∧ FirstCommit C storages n es₁ s₁ l := by
  have key : (∃ es₁ s₁ l, es₁ <+: es ∧ FirstCommit C storages n es₁ s₁ l) ∨
      (Quiet C n s ∧ ∀ es₀ s₀, es₀ <+: es → Reaches C storages es₀ s₀ →
        ∀ j ∈ C.ids, (s₀.nodes j).commitIndex < n) := by
    -- until the first commit everybody is below `n`, and every request as well
    refine run_induction (P := fun es s =>
      (∃ es₁ s₁ l, es₁ <+: es ∧ FirstCommit C storages n es₁ s₁ l) ∨
      (Quiet C n s ∧ ∀ es₀ s₀, es₀ <+: es → Reaches C storages es₀ s₀ →
        ∀ j ∈ C.ids, (s₀.nodes j).commitIndex < n)) ?_ ?_ hrun
    · have hzero : ∀ j ∈ C.ids, ((System.init C storages).nodes j).commitIndex < n := by
        intro j _
        simp only [System.init, new_eq]
        exact hn
      refine Or.inr ⟨⟨hzero, by simp [System.init]⟩, fun es₀ s₀ hpre hreach => ?_⟩
      obtain rfl := List.prefix_nil.mp hpre
      obtain rfl := Option.some.inj hreach
      exact hzero
    · -- the first commit was before this event, or the event may be it
      rintro es t e t' hes (⟨es₁, s₁, l, hpre, hfirst⟩ | ⟨hq, hbefore⟩) hstep
      · exact Or.inl ⟨es₁, s₁, l, hpre.trans (List.prefix_append _ _), hfirst⟩
      · obtain ⟨o, h⟩ := step_transition hstep
        have hes' : Reaches C storages (es ++ [e]) t' := run_concat hes hstep
        rcases hq.step h with hq' | ⟨l, hl, hst, hle⟩
        · refine Or.inr ⟨hq', fun es₀ s₀ hpre hreach => ?_⟩
          rcases List.prefix_concat_iff.mp hpre with rfl | hpre
          · obtain rfl : s₀ = t' := Option.some.inj (hreach.symm.trans hes')
            exact hq'.1
          · exact hbefore es₀ s₀ hpre hreach
        · refine Or.inl ⟨_, t', l, List.prefix_rfl, hes', hl, hst, hle, ?_⟩
          intro es₀ s₀ hpre hne hreach
          rcases List.prefix_concat_iff.mp hpre with rfl | hpre
          · exact absurd rfl hne
          · exact hbefore es₀ s₀ hpre hreach
  rcases key with hfirst | ⟨hq, _⟩
  · exact hfirst
  · exact absurd hcommit (Nat.not_le.mpr (hq.1 i hi))

section Entries

variable {s : System σ} {g : History} {t n : Nat}

omit [ReliableStorage σ] in
theorem Committed.length_upTo {k : Nat} (hc : Committed C s g t n) (hk : k ≤ n) :
    (g.upTo t k).length = k + 1 := by
  have := hc.lt
  rw [History.upTo, List.length_take]
  omega

omit [ReliableStorage σ] in
/-- A log that holds a committed prefix starts with it. -/
theorem Committed.take_eq {c k : Nat} {log : List LogEntry} (hc : Committed C s g t n)
    (hcn : c ≤ n) (hk : k ≤ c) (hpre : g.upTo t c <+: log) : log.take (k + 1) = g.upTo t k := by
  have hpre' := (g.upTo_mono t hk).trans hpre
  rw [← hc.length_upTo (Nat.le_trans hk hcn)]
  exact (List.prefix_iff_eq_take.mp hpre').symm

/-- A commit index points into the log. -/
theorem Inv.commitIndex_lt (hi : Inv C s g) {i : NodeID} (hmem : i ∈ C.ids) :
    (s.nodes i).commitIndex < (s.nodes i).log.length := by
  rcases hi.commits.commit i hmem with hzero | ⟨t, n, hcom, hcn, _, hpre⟩
  · rw [hzero]
    exact (hi.sound.logs.node i hmem).length_pos
  · have hlen := hpre.length_le
    rw [hcom.length_upTo hcn] at hlen
    exact hlen

/-- A transition leaves the entries up to a node's commit index as they are. -/
theorem Inv.kept (hi : Inv C s g) {s' : System σ} {o : Option NodeID} (h : Transition C s o s')
    {i : NodeID} (hmem : i ∈ C.ids) :
    (s'.nodes i).log.take ((s.nodes i).commitIndex + 1) =
      (s.nodes i).log.take ((s.nodes i).commitIndex + 1) := by
  rcases hi.commits.commit i hmem with hzero | ⟨t, n, hcom, hcn, ht, hpre⟩
  · -- only the sentinel
    have hhead := (hi.sound.logs.node i hmem).head
    have hhead' := ((hi.step h).sound.logs.node i hmem).head
    rw [hzero, take_succ_eq_append hhead, take_succ_eq_append hhead']
    rfl
  · have hpre' := hcom.kept hi.sound hi.acks h hmem hcn ht hpre
    rw [hcom.take_eq hcn (Nat.le_refl _) hpre, hcom.take_eq hcn (Nat.le_refl _) hpre']

end Entries

/-- **Leader completeness**: an index that any node has committed was first committed by
    a leader; the node holds that leader's entries up to it, and so does every leader of
    the same or a later term from then on.  No `AppendEntries` changes an entry up to the
    receiver's commit index. -/
theorem leader_completeness (C : Cluster) (storages : NodeID → σ)
    (hfresh : ∀ i, Storage.load (storages i) = .ok none) (es : List Event) (s : System σ)
    (hrun : Reaches C storages es s) :
    (∀ i ∈ C.ids, ∀ n, 0 < n → n ≤ (s.nodes i).commitIndex →
      ∃ es₁ s₁ l, es₁ <+: es ∧ FirstCommit C storages n es₁ s₁ l ∧
        n < (s₁.nodes l).log.length ∧
        (s.nodes i).log.take (n + 1) = (s₁.nodes l).log.take (n + 1) ∧
        ∀ es₂ s₂, es₁ <+: es₂ → Reaches C storages es₂ s₂ → ∀ j ∈ C.ids,
          (s₂.nodes j).state = .leader →
          (s₁.nodes l).currentTerm ≤ (s₂.nodes j).currentTerm →
          (s₂.nodes j).log.take (n + 1) = (s₁.nodes l).log.take (n + 1)) ∧
    ∀ (k : Nat) (c : AppendCall), s.appendCalls[k]? = some c →
      (s.nodes c.callee).commitIndex < (s.nodes c.callee).log.length ∧
      ((s.nodes c.callee).appendEntries c.args).1.log.take ((s.nodes c.callee).commitIndex + 1) =
        (s.nodes c.callee).log.take ((s.nodes c.callee).commitIndex + 1) := by
  refine ⟨fun i hi n hn hcommit => ?_, fun k c hc => ?_⟩
  · obtain ⟨es₁, s₁, l, ⟨fs, rfl⟩, hfirst⟩ := firstCommit_of_run hn hrun hi hcommit
    obtain ⟨g₁, hg₁⟩ := inv_of_run hfresh hfirst.reaches
    have hlen := hg₁.commitIndex_lt hfirst.mem
    refine ⟨es₁, s₁, l, List.prefix_append _ _, hfirst, Nat.lt_of_le_of_lt hfirst.commit hlen, ?_⟩
    have hle := hfirst.commit
    rcases hg₁.commits.commit l hfirst.mem with hzero | ⟨t, m, hcom, hcm, ht, hpre⟩
    · omega
    -- the entries of the first commit, and the same prefix in any later history
    have hfix := hcom.take_eq hcm hle hpre
    have hlater : ∀ g₂ : History, g₁ ≤ g₂ → g₂.upTo t n = g₁.upTo t n := fun g₂ hg =>
      History.upTo_grow hg (by have := hcom.lt; omega)
    constructor
    · -- in the run as it is, the node has committed a prefix of the same entries
      obtain ⟨s₁', hs₁', hrest⟩ := run_append_eq_some hrun
      obtain rfl : s₁' = s₁ := Option.some.inj (hs₁'.symm.trans hfirst.reaches)
      obtain ⟨g, hgle, hg, hkeep⟩ := inv_run hg₁ hrest
      rcases hg.commits.commit i hi with hzero | ⟨t', m', hcom', hcm', _, hpre'⟩
      · omega
      · rw [hcom'.take_eq hcm' hcommit hpre', hfix, ← hlater g hgle]
        exact hcom'.agree hg.sound hg.acks (hkeep t m hcom) (by omega) (by omega)
    · -- a leader of a later term has them by completeness
      rintro es₂ s₂ ⟨fs₂, rfl⟩ hreach j hj hst hterm
      obtain ⟨s₁', hs₁', hrest⟩ := run_append_eq_some hreach
      obtain rfl : s₁' = s₁ := Option.some.inj (hs₁'.symm.trans hfirst.reaches)
      obtain ⟨g, hgle, hg, hkeep⟩ := inv_run hg₁ hrest
      have hcom' := hkeep t m hcom
      have hheld := hg.acks.complete hcom' _ j (Nat.le_trans ht hterm)
        (hg.sound.leaders.leader j hj hst)
      rw [hg.sound.logs.leader j hj hst] at hheld
      rw [hcom'.take_eq (Nat.le_refl _) (by omega) hheld, hfix, hlater g hgle]
  · -- an append never overwrites what its receiver has committed
    obtain ⟨g, hg⟩ := inv_of_run hfresh hrun
    have hmem := hg.sound.basic.appendCallee_mem hc
    refine ⟨hg.commitIndex_lt hmem, ?_⟩
    have hkept := hg.kept (.deliverAppend k c _ _ hc (appendEntries_outcome _ _)) hmem
    rwa [show (({ s.setNode c.callee ((s.nodes c.callee).appendEntries c.args).1 with
      appendReplies := s.appendReplies ++ [(k, ((s.nodes c.callee).appendEntries c.args).2)] } :
        System σ).nodes c.callee) = ((s.nodes c.callee).appendEntries c.args).1 from
      Function.update_self ..] at hkept

/-- Node 1 has committed index 1, which some leader committed first. -/
theorem leader_completeness_replicateOnce : ∃ s es₁ s₁ l,
    Reaches threeNodes (fun _ => newMemoryStorage) replicateOnce s ∧
    1 ≤ (s.nodes 1).commitIndex ∧
    FirstCommit threeNodes (fun _ => newMemoryStorage) 1 es₁ s₁ l ∧
    (s.nodes 1).log.take 2 = (s₁.nodes l).log.take 2 := by
  have hrun : (run (step threeNodes) (System.init threeNodes fun _ => newMemoryStorage)
      replicateOnce).map (fun s => (s.nodes 1).commitIndex) = some 1 := by decide
  obtain ⟨s, hs, hcommit⟩ := Option.map_eq_some_iff.mp hrun
  have hle : 1 ≤ (s.nodes 1).commitIndex := Nat.le_of_eq hcommit.symm
  obtain ⟨es₁, s₁, l, _, hfirst, _, hsame, _⟩ :=
    (leader_completeness threeNodes _ (fun _ => rfl) _ s hs).1 1 (by decide) 1 Nat.one_pos hle
  exact ⟨s, es₁, s₁, l, hs, hle, hfirst, hsame⟩

end EventLog.Raft
