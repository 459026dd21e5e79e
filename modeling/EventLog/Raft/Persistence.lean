import EventLog.Lib.TermLog
import EventLog.Raft.Outcomes

/-!
# What a restart would see

`durable st` is the term, vote and log that `New` restores from a storage.  The node
invariant `Persisted` relates it to the node in memory: the log is always saved, and
the saved term and vote are the current ones except after a leader stepped down in
`replicateTo`, which does not persist; such a node is a follower without a vote.

`DurableLe` says how saved states may follow each other: terms never decrease, and a
vote cast in a term stays the vote of that term.
-/

namespace EventLog.Raft

variable {σ : Type}

/-! ## The durable state -/

section Durable

variable [Storage σ]

/-- The term, vote and log `New` restores. -/
def durable (st : σ) : PersistentState :=
  match Storage.load st with
  | .ok (some p) => { p with log := if p.log.length > 0 then p.log else [sentinel] }
  | _ => { currentTerm := 0, votedFor := None, log := [sentinel] }

theorem new_eq (id : NodeID) (peers : List NodeID) (st : σ) :
    Raft.new id peers st =
      { id := id
        peers := peers
        currentTerm := (durable st).currentTerm
        votedFor := (durable st).votedFor
        log := (durable st).log
        state := .follower
        leaderID := None
        commitIndex := 0
        lastApplied := 0
        nextIndex := fun _ => 0
        matchIndex := fun _ => 0
        storage := st } := by
  -- whatever the load returns, an error as well, the rest starts from zero
  unfold Raft.new loadPersistedState durable
  rcases Storage.load st with _ | _ | p <;> rfl

theorem durable_of_load_none {st : σ} (h : Storage.load st = .ok none) :
    durable st = { currentTerm := 0, votedFor := None, log := [sentinel] } := by
  simp [durable, h]

@[simp] theorem persistIf_state (b : Bool) (r : Raft σ) : (r.persistIf b).state = r.state := by
  cases b <;> rfl
@[simp] theorem persistIf_currentTerm (b : Bool) (r : Raft σ) :
    (r.persistIf b).currentTerm = r.currentTerm := by
  cases b <;> rfl
@[simp] theorem persistIf_log (b : Bool) (r : Raft σ) : (r.persistIf b).log = r.log := by
  cases b <;> rfl
@[simp] theorem persistIf_leaderID (b : Bool) (r : Raft σ) :
    (r.persistIf b).leaderID = r.leaderID := by
  cases b <;> rfl
@[simp] theorem persistIf_commitIndex (b : Bool) (r : Raft σ) :
    (r.persistIf b).commitIndex = r.commitIndex := by
  cases b <;> rfl

end Durable

theorem durable_persistLocked [ReliableStorage σ] (r : Raft σ) (h : r.log ≠ []) :
    durable r.persistLocked.storage =
      { currentTerm := r.currentTerm, votedFor := r.votedFor, log := r.log } := by
  have hlen : r.log.length > 0 := List.length_pos_iff.mpr h
  simp [durable, persistLocked, ReliableStorage.load_save, hlen]

/-! ## The node invariant -/

/-- How saved states follow each other: a term is never taken back, and a vote cast in
    a term stays the vote of that term. -/
def DurableLe (p p' : PersistentState) : Prop :=
  p.currentTerm < p'.currentTerm ∨
    (p.currentTerm = p'.currentTerm ∧ (p.votedFor = None ∨ p.votedFor = p'.votedFor))

theorem DurableLe.refl (p : PersistentState) : DurableLe p p := Or.inr ⟨rfl, Or.inr rfl⟩

theorem DurableLe.trans {p q p' : PersistentState} (h : DurableLe p q) (h' : DurableLe q p') :
    DurableLe p p' := by
  -- a higher term wins; in the same term the vote can only be filled in
  rcases h with hlt | ⟨heq, hvote⟩
  · rcases h' with hlt' | ⟨heq', _⟩
    · exact Or.inl (Nat.lt_trans hlt hlt')
    · exact Or.inl (heq' ▸ hlt)
  · rcases h' with hlt' | ⟨heq', hvote'⟩
    · exact Or.inl (heq ▸ hlt')
    · refine Or.inr ⟨heq.trans heq', ?_⟩
      rcases hvote with hnone | hsame
      · exact Or.inl hnone
      · exact hsame ▸ hvote'

theorem DurableLe.term_le {p p' : PersistentState} (h : DurableLe p p') :
    p.currentTerm ≤ p'.currentTerm := by
  rcases h with h | h
  · exact Nat.le_of_lt h
  · exact Nat.le_of_eq h.1

/-- The node in memory against what a restart would restore. -/
structure Persisted [Storage σ] (r : Raft σ) : Prop where
  log_ne : r.log ≠ []
  log_eq : (durable r.storage).log = r.log
  term_le : (durable r.storage).currentTerm ≤ r.currentTerm
  vote_eq : (durable r.storage).currentTerm = r.currentTerm →
    (durable r.storage).votedFor = r.votedFor
  lag : (durable r.storage).currentTerm < r.currentTerm →
    r.state = .follower ∧ r.votedFor = None

/-- One critical section at a node: identity and peers stay, the invariant is kept and
    the durable state moves forward. -/
structure Advances [Storage σ] (r r' : Raft σ) : Prop where
  id : r'.id = r.id
  peers : r'.peers = r.peers
  persisted : Persisted r'
  durable : DurableLe (durable r.storage) (durable r'.storage)

section NodeSteps

variable [ReliableStorage σ] {r r' : Raft σ}

theorem persisted_persistLocked (h : r.log ≠ []) : Persisted r.persistLocked where
  log_ne := h
  log_eq := by rw [durable_persistLocked r h]; rfl
  term_le := by rw [durable_persistLocked r h]; exact Nat.le_refl _
  vote_eq _ := by rw [durable_persistLocked r h]; rfl
  lag hlt := by
    rw [durable_persistLocked r h] at hlt
    exact absurd hlt (Nat.lt_irrefl _)

/-- A freshly built node holds exactly what its storage holds. -/
theorem persisted_new (id : NodeID) (peers : List NodeID) (st : σ) (h : (durable st).log ≠ []) :
    Persisted (Raft.new id peers st) := by
  rw [new_eq]
  exact ⟨h, rfl, Nat.le_refl _, fun _ => rfl, fun hlt => absurd hlt (Nat.lt_irrefl _)⟩

/-- Stepping down to a later term without saving keeps the invariant. -/
theorem Persisted.becomeFollower (h : Persisted r) {t : Nat} (ht : r.currentTerm < t) :
    Persisted (r.becomeFollowerLocked t) where
  log_ne := h.log_ne
  log_eq := h.log_eq
  term_le := Nat.le_trans h.term_le (Nat.le_of_lt ht)
  vote_eq heq := by
    -- the stored term is at most the old one, so it is not the adopted one
    have hle := h.term_le
    have heq' : (durable r.storage).currentTerm = t := heq
    omega
  lag _ := ⟨rfl, rfl⟩

/-- Saving a later term only moves the durable state forward. -/
theorem durableLe_persistLocked_of_lt (h : Persisted r) (hlog : r'.log ≠ [])
    (ht : r.currentTerm < r'.currentTerm) :
    DurableLe (durable r.storage) (durable r'.persistLocked.storage) := by
  rw [durable_persistLocked r' hlog]
  exact Or.inl (Nat.lt_of_le_of_lt h.term_le ht)

/-- Saving the current term with an unchanged vote, or a first vote, moves the durable
    state forward. -/
theorem durableLe_persistLocked_of_eq (h : Persisted r) (hlog : r'.log ≠ [])
    (ht : r.currentTerm = r'.currentTerm)
    (hv : r.votedFor = None ∨ r.votedFor = r'.votedFor) :
    DurableLe (durable r.storage) (durable r'.persistLocked.storage) := by
  rw [durable_persistLocked r' hlog]
  -- storage lags behind after an unsaved step down, or holds the current term
  rcases Nat.lt_or_eq_of_le h.term_le with hlt | heq
  · exact Or.inl (by simpa [← ht] using hlt)
  · refine Or.inr ⟨heq.trans ht, ?_⟩
    rwa [h.vote_eq heq]

theorem RequestVoteOutcome.advances {args : RequestVoteArgs} {reply : RequestVoteReply}
    (h : RequestVoteOutcome r args r' reply) (hp : Persisted r) :
    Advances r r' := by
  cases h with
  -- what the handler changes it saves, and a higher term outweighs the cleared vote
  | refused => exact ⟨rfl, rfl, hp, DurableLe.refl _⟩
  | adopted _ hlt =>
    exact ⟨rfl, rfl, persisted_persistLocked hp.log_ne,
      durableLe_persistLocked_of_lt hp hp.log_ne hlt⟩
  | granted _ heq hvote =>
    exact ⟨rfl, rfl, persisted_persistLocked hp.log_ne,
      durableLe_persistLocked_of_eq hp hp.log_ne rfl hvote⟩
  | adoptedGranted _ hlt =>
    exact ⟨rfl, rfl, persisted_persistLocked hp.log_ne,
      durableLe_persistLocked_of_lt hp hp.log_ne hlt⟩

theorem VoteReplyOutcome.advances {term votes votes' : Nat} {reply : RequestVoteReply}
    (h : VoteReplyOutcome r term votes reply r' votes') (hp : Persisted r) :
    Advances r r' := by
  cases h with
  | ignored => exact ⟨rfl, rfl, hp, DurableLe.refl _⟩
  | steppedDown _ _ hlt =>
    exact ⟨rfl, rfl, persisted_persistLocked hp.log_ne,
      durableLe_persistLocked_of_lt hp hp.log_ne hlt⟩
  | counted => exact ⟨rfl, rfl, hp, DurableLe.refl _⟩
  | elected hcand =>
    refine ⟨rfl, rfl, ⟨hp.log_ne, hp.log_eq, hp.term_le, hp.vote_eq, fun hlt => ?_⟩,
      DurableLe.refl _⟩
    -- storage lags only behind a follower, and a winner was a candidate
    have := (hp.lag hlt).1
    rw [hcand] at this
    cases this

theorem AppendReplyOutcome.advances {peer : NodeID} {args : AppendEntriesArgs}
    {reply : AppendEntriesReply}
    (h : AppendReplyOutcome r peer args reply r') (hp : Persisted r) :
    Advances r r' := by
  cases h with
  | ignored => exact ⟨rfl, rfl, hp, DurableLe.refl _⟩
  | steppedDown _ _ hlt => exact ⟨rfl, rfl, hp.becomeFollower hlt, DurableLe.refl _⟩
  | matched =>
    exact ⟨rfl, rfl, ⟨hp.log_ne, hp.log_eq, hp.term_le, hp.vote_eq, hp.lag⟩, DurableLe.refl _⟩
  | backedUp =>
    exact ⟨rfl, rfl, ⟨hp.log_ne, hp.log_eq, hp.term_le, hp.vote_eq, hp.lag⟩, DurableLe.refl _⟩

theorem mergeEntries_ne_nil {log : List LogEntry} (hlog : log ≠ []) (idx : Nat)
    (es : List LogEntry) : (mergeEntries log (idx + 1) es).1 ≠ [] := by
  induction es generalizing idx with
  | nil => exact hlog
  | cons e es ih =>
    unfold mergeEntries
    split_ifs
    · exact ih (idx + 1)
    · simp

/-- Unless the flag is set the log is untouched. -/
theorem mergeEntries_eq_of_not_changed {log : List LogEntry} {idx : Nat} {es : List LogEntry}
    (h : (mergeEntries log idx es).2 = false) : (mergeEntries log idx es).1 = log := by
  induction es generalizing idx with
  | nil => rfl
  | cons e es ih =>
    unfold mergeEntries at h ⊢
    split_ifs with hc
    · rw [if_pos hc] at h
      exact ih h
    · rw [if_neg hc] at h
      exact Bool.noConfusion h

/-- Following the leader of one's own term keeps the invariant without a save. -/
theorem Persisted.follow {args : AppendEntriesArgs} (h : Persisted r)
    (ht : r.currentTerm = args.term) : Persisted (r.follow args) where
  log_ne := h.log_ne
  log_eq := h.log_eq
  term_le := Nat.le_trans h.term_le (Nat.le_of_eq ht)
  vote_eq heq := by
    have : (r.follow args).votedFor = r.votedFor := by simp [Raft.follow, ht]
    rw [this]
    exact h.vote_eq (heq.trans ht.symm)
  lag hlt := by
    have : (r.follow args).votedFor = r.votedFor := by simp [Raft.follow, ht]
    rw [this]
    exact ⟨rfl, (h.lag (Nat.lt_of_lt_of_eq hlt ht.symm)).2⟩

theorem AppendEntriesOutcome.advances {args : AppendEntriesArgs} {reply : AppendEntriesReply}
    (h : AppendEntriesOutcome r args r' reply) (hp : Persisted r) :
    Advances r r' := by
  cases h with
  | stale => exact ⟨rfl, rfl, hp, DurableLe.refl _⟩
  | rejected _ hle =>
    -- adopting a term is saved; following the leader of one's own term is not
    rcases Nat.lt_or_eq_of_le hle with hlt | heq
    · simp only [hlt, decide_true, persistIf, if_true]
      exact ⟨rfl, rfl, persisted_persistLocked hp.log_ne,
        durableLe_persistLocked_of_lt hp hp.log_ne hlt⟩
    · simp only [heq, Nat.lt_irrefl, decide_false, persistIf]
      exact ⟨rfl, rfl, hp.follow heq, DurableLe.refl _⟩
  | accepted _ hle =>
    set m := mergeEntries r.log (args.prevLogIndex + 1) args.entries with hm
    have hne : m.1 ≠ [] := mergeEntries_ne_nil hp.log_ne _ _
    -- saved if the term was adopted or the log changed
    rcases Nat.lt_or_eq_of_le hle with hlt | heq
    · simp only [hlt, decide_true, Bool.true_or, persistIf, if_true]
      exact ⟨rfl, rfl, persisted_persistLocked hne, durableLe_persistLocked_of_lt hp hne hlt⟩
    · simp only [heq, Nat.lt_irrefl, decide_false, Bool.false_or, persistIf]
      cases hflag : m.2 with
      | true =>
        refine ⟨rfl, rfl, persisted_persistLocked hne, durableLe_persistLocked_of_eq hp hne heq ?_⟩
        exact Or.inr (by simp [Raft.follow, heq])
      -- nothing was saved, and nothing durable changed
      | false =>
        have hlog : m.1 = r.log := mergeEntries_eq_of_not_changed hflag
        have hf := hp.follow heq
        exact ⟨rfl, rfl, ⟨hne, hf.log_eq.trans hlog.symm, hf.term_le, hf.vote_eq, hf.lag⟩,
          DurableLe.refl _⟩

theorem startElection_advances (hp : Persisted r) : Advances r r.startElection.1 := by
  let r' : Raft σ := { r with
    state := .candidate, currentTerm := r.currentTerm + 1, votedFor := r.id, leaderID := None }
  have hlt : r.currentTerm < r'.currentTerm := Nat.lt_succ_self _
  exact ⟨rfl, rfl, persisted_persistLocked hp.log_ne,
    durableLe_persistLocked_of_lt hp (show r'.log ≠ [] from hp.log_ne) hlt⟩

theorem append_advances (hp : Persisted r) (e : LogEntry) :
    Advances r { r with log := r.log ++ [e] }.persistLocked :=
  ⟨rfl, rfl, persisted_persistLocked (by simp),
    durableLe_persistLocked_of_eq hp (by simp) rfl (Or.inr rfl)⟩

theorem applyLoop_advances {msg : ApplyMsg} (hp : Persisted r)
    (h : r.applyLoop = some (r', msg)) : Advances r r' := by
  obtain ⟨_, rfl, _⟩ := applyLoop_eq_some h
  exact ⟨rfl, rfl, ⟨hp.log_ne, hp.log_eq, hp.term_le, hp.vote_eq, hp.lag⟩, DurableLe.refl _⟩

theorem new_advances (hp : Persisted r) : Advances r (Raft.new r.id r.peers r.storage) := by
  have hne : (durable r.storage).log ≠ [] := by
    rw [hp.log_eq]
    exact hp.log_ne
  refine ⟨?_, ?_, persisted_new _ _ _ hne, ?_⟩ <;> rw [new_eq]
  exact DurableLe.refl _

end NodeSteps

/-! ## The cluster -/

/-- What holds of every node and call without looking at anybody else's state. -/
structure Basic [Storage σ] (C : Cluster) (s : System σ) : Prop where
  id : ∀ i ∈ C.ids, (s.nodes i).id = i
  peers : ∀ i ∈ C.ids, (s.nodes i).peers = C.peers i
  persisted : ∀ i ∈ C.ids, Persisted (s.nodes i)
  voteCaller : ∀ c ∈ s.voteCalls, c.caller ∈ C.ids
  voteCallee : ∀ c ∈ s.voteCalls, c.callee ∈ C.peers c.caller
  voteArgs : ∀ c ∈ s.voteCalls, c.args.candidateID = c.caller
  appendCaller : ∀ c ∈ s.appendCalls, c.caller ∈ C.ids
  appendCallee : ∀ c ∈ s.appendCalls, c.callee ∈ C.peers c.caller
  appendArgs : ∀ c ∈ s.appendCalls, c.args.leaderID = c.caller

theorem Basic.callee_mem [Storage σ] {C : Cluster} {s : System σ} (hb : Basic C s)
    {k : Nat} {c : VoteCall} (hc : s.voteCalls[k]? = some c) : c.callee ∈ C.ids := by
  have hmem := List.mem_of_getElem? hc
  exact ((C.mem_peers _ (hb.voteCaller c hmem) _).mp (hb.voteCallee c hmem)).1

theorem Basic.appendCallee_mem [Storage σ] {C : Cluster} {s : System σ} (hb : Basic C s)
    {k : Nat} {c : AppendCall} (hc : s.appendCalls[k]? = some c) : c.callee ∈ C.ids := by
  have hmem := List.mem_of_getElem? hc
  exact ((C.mem_peers _ (hb.appendCaller c hmem) _).mp (hb.appendCallee c hmem)).1

section ClusterSteps

variable [ReliableStorage σ] {C : Cluster} {s s' : System σ} {o : Option NodeID}

/-- Every transition advances every node. -/
theorem Transition.advances (hb : Basic C s) (h : Transition C s o s') {i : NodeID}
    (hi : i ∈ C.ids) : Advances (s.nodes i) (s'.nodes i) := by
  have hp := hb.persisted i hi
  have hstep := h.node i
  generalize s'.nodes i = r' at hstep ⊢
  cases hstep with
  | same => exact ⟨rfl, rfl, hp, DurableLe.refl _⟩
  | startElection => exact startElection_advances hp
  | start command => exact append_advances hp _
  | requestVote call r reply _ _ hr => exact hr.advances hp
  | appendEntries call r reply _ _ hr => exact hr.advances hp
  | voteReply call r reply votes votes' _ _ hr => exact hr.advances hp
  | appendReply k call r reply _ _ _ hr => exact hr.advances hp
  | apply r msg _ hr => exact applyLoop_advances hp hr
  | restart =>
    -- the cluster restarts a node with the id and peers it had
    have hnew := new_advances hp
    rwa [hb.id i hi, hb.peers i hi] at hnew

/-- **Step lemma** for the local facts. -/
theorem Basic.step (hb : Basic C s) (h : Transition C s o s') : Basic C s' := by
  have hid : ∀ i ∈ C.ids, (s'.nodes i).id = i := fun i hi =>
    (h.advances hb hi).id.trans (hb.id i hi)
  have hpeers : ∀ i ∈ C.ids, (s'.nodes i).peers = C.peers i := fun i hi =>
    (h.advances hb hi).peers.trans (hb.peers i hi)
  have hper : ∀ i ∈ C.ids, Persisted (s'.nodes i) := fun i hi => (h.advances hb hi).persisted
  -- only two transitions add calls
  cases h with
  | startElection i hi =>
    have hvc : ∀ c ∈ s.voteCalls ++ (s.nodes i).peers.map fun p =>
        (⟨i, p, (s.nodes i).startElection.2, s.elections.length⟩ : VoteCall),
        c.caller ∈ C.ids ∧ c.callee ∈ C.peers c.caller ∧ c.args.candidateID = c.caller := by
      intro c hc
      rcases List.mem_append.mp hc with hc | hc
      · exact ⟨hb.voteCaller c hc, hb.voteCallee c hc, hb.voteArgs c hc⟩
      · obtain ⟨p, hp, rfl⟩ := List.mem_map.mp hc
        rw [hb.peers i hi] at hp
        exact ⟨hi, hp, hb.id i hi⟩
    exact ⟨hid, hpeers, hper, fun c hc => (hvc c hc).1, fun c hc => (hvc c hc).2.1,
      fun c hc => (hvc c hc).2.2, hb.appendCaller, hb.appendCallee, hb.appendArgs⟩
  | replicateTo i peer hi hp _ =>
    -- the new request names its sender, which is a member and has the receiver among its peers
    have hac : ∀ c ∈ s.appendCalls ++ [(⟨i, peer,
        (s.nodes i).sendFrom (max 1 ((s.nodes i).nextIndex peer))⟩ : AppendCall)],
        c.caller ∈ C.ids ∧ c.callee ∈ C.peers c.caller ∧ c.args.leaderID = c.caller := by
      intro c hc
      rcases List.mem_append.mp hc with hc | hc
      · exact ⟨hb.appendCaller c hc, hb.appendCallee c hc, hb.appendArgs c hc⟩
      · obtain rfl := List.mem_singleton.mp hc
        rw [hb.peers i hi] at hp
        exact ⟨hi, hp, hb.id i hi⟩
    exact ⟨hid, hpeers, hper, hb.voteCaller, hb.voteCallee, hb.voteArgs,
      fun c hc => (hac c hc).1, fun c hc => (hac c hc).2.1, fun c hc => (hac c hc).2.2⟩
  | _ => exact ⟨hid, hpeers, hper, hb.voteCaller, hb.voteCallee, hb.voteArgs,
      hb.appendCaller, hb.appendCallee, hb.appendArgs⟩

omit [ReliableStorage σ] in
/-- Every node starts as a follower. -/
theorem init_state [Storage σ] (storages : NodeID → σ) (i : NodeID) :
    ((System.init C storages).nodes i).state = .follower := by
  simp only [System.init, new_eq]

/-- The local facts hold initially. -/
theorem basic_init (storages : NodeID → σ)
    (hfresh : ∀ i, Storage.load (storages i) = .ok none) :
    Basic C (System.init C storages) where
  id i _ := by simp only [System.init, new_eq]
  peers i _ := by simp only [System.init, new_eq]
  persisted i _ := by
    apply persisted_new
    rw [durable_of_load_none (hfresh i)]
    simp
  voteCaller := by simp [System.init]
  voteCallee := by simp [System.init]
  voteArgs := by simp [System.init]
  appendCaller := by simp [System.init]
  appendCallee := by simp [System.init]
  appendArgs := by simp [System.init]

end ClusterSteps

end EventLog.Raft
