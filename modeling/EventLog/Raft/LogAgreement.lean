import EventLog.Raft.Safety

/-!
# Log matching over whole runs

One history covers every moment of a run: the log any node held at any moment is made of
pieces of the leader logs it records.  From this the logs of a run, in memory or in a
storage and at the same or at different moments, agree wherever their terms do; every
`AppendEntries` call is a piece of the log its sender led with; and what `Start` returns
names one command for the rest of the run.
-/

namespace EventLog.Raft

open EventLog.Lib

variable {σ : Type}

/-! ## The logs of a node -/

/-- The log of a node in memory, and the one in its storage. -/
inductive HoldsLog [Storage σ] (r : Raft σ) : List LogEntry → Prop where
  | memory : HoldsLog r r.log
  | stored (p) : Storage.load r.storage = .ok (some p) → HoldsLog r p.log

section Held

variable [ReliableStorage σ] {C : Cluster} {storages : NodeID → σ} {s s' : System σ} {g : History}

/-- The stored log is the one in memory, or empty. -/
theorem HoldsLog.isPrefix {r : Raft σ} {log : List LogEntry} (h : HoldsLog r log)
    (hp : Persisted r) : log <+: r.log := by
  cases h with
  | memory => exact List.prefix_rfl
  | stored p hload =>
    have heq := hp.log_eq
    simp only [durable, hload] at heq
    -- an empty log on disk is loaded as the sentinel alone
    by_cases hlen : p.log.length > 0
    · rw [if_pos hlen] at heq
      rw [heq]
    · have hnil : p.log = [] := List.length_eq_zero_iff.mp (Nat.eq_zero_of_not_pos hlen)
      rw [hnil]
      exact List.nil_prefix

/-! ## One history for a run -/

/-- The logs all nodes hold are made of the leader logs of the history. -/
def Covers (C : Cluster) (s : System σ) (g : History) : Prop :=
  ∀ i ∈ C.ids, ∀ log, HoldsLog (s.nodes i) log →
    Coherent LogEntry.term g.leaderLog log ∧ ∀ e ∈ log, e.term ≤ (s.nodes i).currentTerm

theorem Sound.covers (hs : Sound C s g) : Covers C s g := by
  intro i hi log hlog
  have hp := hs.basic.persisted i hi
  have hwf := hs.logs.node i hi
  have hpre := hlog.isPrefix hp
  exact ⟨hwf.coherent.of_prefix hpre,
    fun e he => Nat.le_trans (hwf.le e (hpre.subset he)) hp.term_le⟩

/-- Logs covered by one history agree up to every index at which their terms agree. -/
theorem Covers.matching {s₁ s₂ : System σ} (h₁ : Covers C s₁ g) (h₂ : Covers C s₂ g)
    {i j : NodeID} (hi : i ∈ C.ids) (hj : j ∈ C.ids) {log log' : List LogEntry}
    (hlog : HoldsLog (s₁.nodes i) log) (hlog' : HoldsLog (s₂.nodes j) log') {k : Nat}
    {e e' : LogEntry} (he : log[k]? = some e) (he' : log'[k]? = some e')
    (hterm : e.term = e'.term) {m : Nat} (hm : m ≤ k) : log[m]? = log'[m]? := by
  have hsame := (h₁ i hi log hlog).1.matching (h₂ j hj log' hlog').1 he he' hterm
  have hm' : m < k + 1 := Nat.lt_succ_of_le hm
  rw [← List.getElem?_take_of_lt hm', hsame, List.getElem?_take_of_lt hm']

/-- **One history covers every moment of a run.** -/
theorem covers_of_run (hfresh : ∀ i, Storage.load (storages i) = .ok none) {es : List Event}
    (hrun : Reaches C storages es s) :
    ∃ g, Sound C s g ∧
      ∀ es₁ s₁, es₁ <+: es → Reaches C storages es₁ s₁ → Covers C s₁ g := by
  refine run_induction (P := fun es s => ∃ g, Sound C s g ∧
    ∀ es₁ s₁, es₁ <+: es → Reaches C storages es₁ s₁ → Covers C s₁ g) ?_ ?_ hrun
  · refine ⟨_, sound_init storages hfresh, fun es₁ s₁ hpre hreach => ?_⟩
    obtain rfl := List.prefix_nil.mp hpre
    obtain rfl := Option.some.inj hreach
    exact (sound_init storages hfresh).covers
  · rintro es t e t' hes ⟨g, hs, hcov⟩ hstep
    obtain ⟨o, h⟩ := step_transition hstep
    refine ⟨_, hs.step h, fun es₁ s₁ hpre hreach => ?_⟩
    -- the end of the run, or a moment before it
    rcases List.prefix_concat_iff.mp hpre with rfl | hpre
    · obtain rfl := Option.some.inj ((run_concat hes hstep).symm.trans hreach)
      exact (hs.step h).covers
    · -- an earlier log stays covered, because leader logs only grow
      intro i hi log hlog
      obtain ⟨hcoh, hle⟩ := hcov es₁ s₁ hpre hreach i hi log hlog
      exact ⟨hcoh.grow (hs.le h).2, hle⟩

/-! ## Calls -/

omit [ReliableStorage σ] in
/-- A call is as old as the state before, or was sent by a leader in this step. -/
theorem Transition.appendCalls_inv [Storage σ] {o : Option NodeID} (h : Transition C s o s')
    {c : AppendCall} (hc : c ∈ s'.appendCalls) :
    c ∈ s.appendCalls ∨ (c.caller ∈ C.ids ∧ (s.nodes c.caller).state = .leader ∧
      c.args = (s.nodes c.caller).sendFrom (max 1 ((s.nodes c.caller).nextIndex c.callee))) := by
  cases h with
  | replicateTo i peer hi _ hst =>
    rcases List.mem_append.mp hc with hc | hc
    · exact Or.inl hc
    · obtain rfl := List.mem_singleton.mp hc
      exact Or.inr ⟨hi, hst, rfl⟩
  | _ => exact Or.inl hc

/-- The caller sent the call when it led the call's term: the call names an entry of its
    log and carries everything behind it. -/
def SentAsLeader (r : Raft σ) (args : AppendEntriesArgs) : Prop :=
  r.state = .leader ∧ r.currentTerm = args.term ∧ args.prevLogIndex < r.log.length ∧
    termAt r.log args.prevLogIndex = args.prevLogTerm ∧
    args.entries = r.log.drop (args.prevLogIndex + 1)

omit [ReliableStorage σ] in
theorem sentAsLeader_sendFrom {r : Raft σ} {ni : Nat} (hst : r.state = .leader) (hpos : 1 ≤ ni)
    (hlen : ni ≤ r.log.length) : SentAsLeader r (r.sendFrom ni) := by
  have hd := describes_sendFrom hpos hlen
  refine ⟨hst, rfl, hd.prev_lt, hd.prev_term, ?_⟩
  show r.log.drop ni = r.log.drop (ni - 1 + 1)
  rw [Nat.sub_add_cancel hpos]

/-- Every call of a run was sent by a leader of its term, at a moment of the run. -/
theorem call_sentAsLeader (hfresh : ∀ i, Storage.load (storages i) = .ok none) {es : List Event}
    (hrun : Reaches C storages es s) : ∀ c ∈ s.appendCalls,
      ∃ es₁ s₁, es₁ <+: es ∧ Reaches C storages es₁ s₁ ∧
        SentAsLeader (s₁.nodes c.caller) c.args := by
  refine run_induction (P := fun es s => ∀ c ∈ s.appendCalls, ∃ es₁ s₁, es₁ <+: es ∧
    Reaches C storages es₁ s₁ ∧ SentAsLeader (s₁.nodes c.caller) c.args) ?_ ?_ hrun
  · intro c hc
    cases hc
  · intro es t e t' hes ih hstep c hc
    obtain ⟨o, h⟩ := step_transition hstep
    -- the call is an old one, or was sent by this event
    rcases h.appendCalls_inv hc with hold | ⟨hi, hst, hargs⟩
    · obtain ⟨es₁, s₁, hpre, hsent⟩ := ih c hold
      exact ⟨es₁, s₁, hpre.trans (List.prefix_append _ _), hsent⟩
    · obtain ⟨g, hg⟩ := inv_of_run hfresh hes
      have hnext := hg.sound.logs.nextIndex c.caller hi hst c.callee
      have hpos := (hg.sound.logs.node c.caller hi).length_pos
      refine ⟨es, t, List.prefix_append _ _, hes, ?_⟩
      rw [hargs]
      exact sentAsLeader_sendFrom hst (by omega) (by omega)

/-! ## Commands -/

omit [ReliableStorage σ] in
/-- What `Start` returned is where the leader put the command. -/
theorem start_eq_true [Storage σ] {r : Raft σ} {command : Command} {n t : Nat}
    (h : (r.start command).2 = (n, t, true)) :
    (r.start command).1.log[n]? = some ⟨t, command⟩ := by
  unfold Raft.start at h ⊢
  split_ifs at h ⊢ with hst
  · simp at h
  · simp only [List.length_append, List.length_singleton, Nat.add_sub_cancel, Prod.mk.injEq,
      and_true] at h
    obtain ⟨rfl, rfl⟩ := h
    exact List.getElem?_concat_length

/-- The leader's log right after `Start`. -/
theorem getElem?_of_start {es : List Event} {i : NodeID} {command : Command} {n t : Nat}
    (hreach : Reaches C storages es s) (hret : ((s.nodes i).start command).2 = (n, t, true))
    (hnext : Reaches C storages (es ++ [.start i command]) s') :
    i ∈ C.ids ∧ (s'.nodes i).log[n]? = some ⟨t, command⟩ := by
  -- the command is appended at the index that is returned
  obtain ⟨s₁, hs₁, hstep⟩ := run_concat_eq_some hnext
  obtain rfl := Option.some.inj (hs₁.symm.trans hreach)
  simp only [step, Option.bind_eq_bind, Option.bind_eq_some_iff, Option.guard_eq_some',
    Option.some.injEq] at hstep
  obtain ⟨_, hi, rfl⟩ := hstep
  refine ⟨hi, ?_⟩
  have hnode : (s₁.setNode i ((s₁.nodes i).start command).1).nodes i =
      ((s₁.nodes i).start command).1 := Function.update_self ..
  rw [hnode]
  exact start_eq_true hret

end Held

/-! ## Runs -/

/-- **Log matching**: at any two moments of a run, any two logs that nodes hold in memory
    or in their storages agree up to every index at which their terms agree.  Terms never
    decrease along a log and are at most the term of its owner.  Every `AppendEntries`
    call was sent by a leader of its term and is a piece of the log it then held.  The index
    and term returned by `Start` name one command, in every log of the run and among all
    calls of `Start`. -/
theorem log_matching [ReliableStorage σ] (C : Cluster) (storages : NodeID → σ)
    (hfresh : ∀ i, Storage.load (storages i) = .ok none) (es : List Event) (s : System σ)
    (hrun : Reaches C storages es s) :
    (∀ es₁ s₁ es₂ s₂, es₁ <+: es → es₂ <+: es → Reaches C storages es₁ s₁ →
      Reaches C storages es₂ s₂ → ∀ i ∈ C.ids, ∀ j ∈ C.ids, ∀ log log',
      HoldsLog (s₁.nodes i) log → HoldsLog (s₂.nodes j) log' → ∀ (k : Nat) (e e' : LogEntry),
      log[k]? = some e → log'[k]? = some e' → e.term = e'.term →
      ∀ m ≤ k, log[m]? = log'[m]?) ∧
    (∀ i ∈ C.ids, ∀ log, HoldsLog (s.nodes i) log →
      (∀ (k m : Nat) (e e' : LogEntry), k ≤ m → log[k]? = some e → log[m]? = some e' →
        e.term ≤ e'.term) ∧
      ∀ e ∈ log, e.term ≤ (s.nodes i).currentTerm) ∧
    (∀ c ∈ s.appendCalls, ∃ es₁ s₁, es₁ <+: es ∧ Reaches C storages es₁ s₁ ∧
      SentAsLeader (s₁.nodes c.caller) c.args) ∧
    ∀ es₁ s₁ i command n t, es₁ ++ [.start i command] <+: es → Reaches C storages es₁ s₁ →
      ((s₁.nodes i).start command).2 = (n, t, true) →
      (∀ es₂ s₂ j log command', es₂ <+: es → Reaches C storages es₂ s₂ → j ∈ C.ids →
        HoldsLog (s₂.nodes j) log → log[n]? = some ⟨t, command'⟩ → command' = command) ∧
      ∀ es₂ s₂ j command', es₂ ++ [.start j command'] <+: es → Reaches C storages es₂ s₂ →
        ((s₂.nodes j).start command').2 = (n, t, true) → command' = command := by
  obtain ⟨g, hs, hcov⟩ := covers_of_run hfresh hrun
  refine ⟨?_, ?_, call_sentAsLeader hfresh hrun, ?_⟩
  · intro es₁ s₁ es₂ s₂ hpre₁ hpre₂ hreach₁ hreach₂ i hi j hj log log' hlog hlog' k e e' he he'
      hterm m hm
    exact (hcov es₁ s₁ hpre₁ hreach₁).matching (hcov es₂ s₂ hpre₂ hreach₂) hi hj hlog hlog' he he'
      hterm hm
  · -- the terms of one log are ordered since it follows the leaders' logs
    intro i hi log hlog
    obtain ⟨hcoh, hle⟩ := hs.covers i hi log hlog
    exact ⟨fun k m e e' hkm he he' => hcoh.mono k m e e' hkm he he', hle⟩
  · intro es₁ s₁ i command n t hpre hreach hret
    obtain ⟨s₁', hreach'⟩ := run_of_isPrefix hpre hrun
    obtain ⟨hi, hget⟩ := getElem?_of_start hreach hret hreach'
    -- any entry of that term at that index is the one `Start` appended
    have hone : ∀ es₂ s₂ j log command', es₂ <+: es → Reaches C storages es₂ s₂ → j ∈ C.ids →
        HoldsLog (s₂.nodes j) log → log[n]? = some ⟨t, command'⟩ → command' = command := by
      intro es₂ s₂ j log command' hpre₂ hreach₂ hj hlog hget'
      have hsame := (hcov es₂ s₂ hpre₂ hreach₂).matching (hcov _ s₁' hpre hreach') hj hi hlog
        .memory hget' hget rfl (Nat.le_refl n)
      rw [hget', hget] at hsame
      exact congrArg LogEntry.command (Option.some.inj hsame)
    refine ⟨hone, fun es₂ s₂ j command' hpre₂ hreach₂ hret₂ => ?_⟩
    obtain ⟨s₂', hreach₂'⟩ := run_of_isPrefix hpre₂ hrun
    obtain ⟨hj, hget₂⟩ := getElem?_of_start hreach₂ hret₂ hreach₂'
    exact hone _ s₂' j _ command' hpre₂ hreach₂' hj .memory hget₂

/-- Nodes 0 and 1 hold the command node 0 was given, at the index it was told. -/
theorem log_matching_replicateOnce : ∃ s,
    Reaches threeNodes (fun _ => newMemoryStorage) replicateOnce s ∧
    (s.nodes 0).log[1]? = some ⟨1, [7]⟩ ∧ (s.nodes 1).log[1]? = some ⟨1, [7]⟩ ∧
    (s.nodes 0).log[0]? = (s.nodes 1).log[0]? := by
  have hrun : (run (step threeNodes) (System.init threeNodes fun _ => newMemoryStorage)
      replicateOnce).map (fun s => ((s.nodes 0).log, (s.nodes 1).log)) =
      some ([sentinel, ⟨1, [7]⟩], [sentinel, ⟨1, [7]⟩]) := by decide
  obtain ⟨s, hs, hlogs⟩ := Option.map_eq_some_iff.mp hrun
  obtain ⟨h0, h1⟩ := Prod.mk.inj hlogs
  have hget0 : (s.nodes 0).log[1]? = some ⟨1, [7]⟩ := by rw [h0]; rfl
  have hget1 : (s.nodes 1).log[1]? = some ⟨1, [7]⟩ := by rw [h1]; rfl
  have hmatch := (log_matching threeNodes _ (fun _ => rfl) _ s hs).1 _ s _ s (List.prefix_refl _)
    (List.prefix_refl _) hs hs 0 (by decide) 1 (by decide) _ _ .memory .memory 1 _ _ hget0 hget1
    rfl 0 (by decide)
  exact ⟨s, hs, hget0, hget1, hmatch⟩

end EventLog.Raft
