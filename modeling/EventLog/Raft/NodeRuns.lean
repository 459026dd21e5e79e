import EventLog.Raft.Votes

/-!
# The runs of one node

A node on its own handles any sequence of inputs, with whatever arguments the network
brings, and may crash and restart from its storage between any two of them.

* `Handled` is the inversion: an input leaves what the node must persist as it is, saves
  it, or steps down without saving it.
* `vote` is the vote an input makes the node cast; casting a vote always saves it.
* `step_handle` connects the cluster: each of its events is an input of one node.
-/

namespace EventLog.Raft

open EventLog.Lib

variable {σ : Type}

/-! ## Inputs -/

/-- What can happen to a node.  A reply comes with the variables its goroutine captured. -/
inductive Input where
  | startElection
  | voteReply (term votes : Nat) (reply : RequestVoteReply)
  | requestVote (args : RequestVoteArgs)
  | start (command : Command)
  | appendReply (peer : NodeID) (args : AppendEntriesArgs) (reply : AppendEntriesReply)
  | appendEntries (args : AppendEntriesArgs)
  | apply
  /-- A crash, and `New` on the storage it left. -/
  | restart
  deriving DecidableEq, Repr

/-- The node after one critical section. -/
def handle [Storage σ] (r : Raft σ) : Input → Raft σ
  | .startElection => r.startElection.1
  | .voteReply term votes reply => (r.startElectionReply term votes reply).1
  | .requestVote args => (r.requestVote args).1
  | .start command => (r.start command).1
  | .appendReply peer args reply => r.replicateToReply peer args reply
  | .appendEntries args => (r.appendEntries args).1
  | .apply =>
    match r.applyLoop with
    -- the loop waits for the commit index to move
    | none => r
    | some (r, _) => r
  | .restart => Raft.new r.id r.peers r.storage

/-- One step of a node on its own; every input is enabled. -/
def nodeStep [Storage σ] (r : Raft σ) (x : Input) : Option (Raft σ) := some (r.handle x)

theorem exists_run_nodeStep [Storage σ] (r : Raft σ) (xs : List Input) :
    ∃ r', run nodeStep r xs = some r' := by
  induction xs generalizing r with
  | nil => exact ⟨r, rfl⟩
  | cons x xs ih => exact ih (r.handle x)

/-- What `persistLocked` saves. -/
def persistent (r : Raft σ) : PersistentState :=
  { currentTerm := r.currentTerm, votedFor := r.votedFor, log := r.log }

/-- A leader learns of a higher term from an `AppendEntries` reply. -/
def LearnsTerm (r : Raft σ) : Input → Prop
  | .appendReply _ args reply =>
    r.state = .leader ∧ r.currentTerm = args.term ∧ r.currentTerm < reply.term
  | _ => False

instance (r : Raft σ) (x : Input) : Decidable (LearnsTerm r x) := by
  cases x <;> unfold LearnsTerm <;> infer_instance

/-! ## Inversion -/

/-- Everything an input can do to what a node must persist. -/
inductive Handled [Storage σ] (r : Raft σ) (x : Input) : Raft σ → Prop where
  /-- Nothing that is persisted changed. -/
  | kept (r' : Raft σ) : r'.persistent = r.persistent → r'.storage = r.storage → Handled r x r'
  /-- The change was saved. -/
  | saved (q : Raft σ) : q.storage = r.storage → q.log ≠ [] → DurableLe r.persistent q.persistent →
      Handled r x q.persistLocked
  /-- The change was not saved. -/
  | steppedDown (t : Nat) : LearnsTerm r x → r.currentTerm < t →
      Handled r x (r.becomeFollowerLocked t)
  | restarted : x = .restart → Handled r x (Raft.new r.id r.peers r.storage)

section Inversion

variable [Storage σ] {r r' : Raft σ} {x : Input}

theorem RequestVoteOutcome.handled {args : RequestVoteArgs} {reply : RequestVoteReply}
    (h : RequestVoteOutcome r args r' reply) (hlog : r.log ≠ []) : Handled r x r' := by
  cases h with
  | refused => exact .kept _ rfl rfl
  | adopted _ hlt => exact .saved _ rfl hlog (Or.inl hlt)
  | granted _ heq hvote => exact .saved _ rfl hlog (Or.inr ⟨rfl, hvote⟩)
  | adoptedGranted _ hlt => exact .saved _ rfl hlog (Or.inl hlt)

theorem VoteReplyOutcome.handled {term votes votes' : Nat} {reply : RequestVoteReply}
    (h : VoteReplyOutcome r term votes reply r' votes') (hlog : r.log ≠ []) : Handled r x r' := by
  cases h with
  | ignored | counted | elected => exact .kept _ rfl rfl
  | steppedDown _ _ hlt => exact .saved _ rfl hlog (Or.inl hlt)

omit [Storage σ] in
/-- Following the leader of one's own term changes nothing that is persisted. -/
theorem persistent_follow {args : AppendEntriesArgs} (ht : r.currentTerm = args.term) :
    (r.follow args).persistent = r.persistent := by
  simp [persistent, follow, ht]

theorem AppendEntriesOutcome.handled {args : AppendEntriesArgs} {reply : AppendEntriesReply}
    (h : AppendEntriesOutcome r args r' reply) (hlog : r.log ≠ []) : Handled r x r' := by
  cases h with
  | stale => exact .kept _ rfl rfl
  -- a term that is adopted is saved, the node's own term is on disk already
  | rejected _ hle =>
    rcases Nat.lt_or_eq_of_le hle with hlt | heq
    · simp only [hlt, decide_true, persistIf, if_true]
      exact .saved _ rfl hlog (Or.inl hlt)
    · simp only [heq, Nat.lt_irrefl, decide_false, persistIf]
      exact .kept _ (persistent_follow heq) rfl
  | accepted _ hle =>
    set m := mergeEntries r.log (args.prevLogIndex + 1) args.entries with hm
    have hne : m.1 ≠ [] := mergeEntries_ne_nil hlog _ _
    -- saved if the term is new or an entry was written
    rcases Nat.lt_or_eq_of_le hle with hlt | heq
    · simp only [hlt, decide_true, Bool.true_or, persistIf, if_true]
      exact .saved _ rfl hne (Or.inl hlt)
    · have hfollow := persistent_follow heq
      simp only [heq, Nat.lt_irrefl, decide_false, Bool.false_or, persistIf]
      cases hflag : m.2 with
      | true => exact .saved _ rfl hne (Or.inr ⟨heq, Or.inr (congrArg (·.votedFor) hfollow).symm⟩)
      -- without the flag the log is as it was
      | false =>
        have hsame : m.1 = r.log := mergeEntries_eq_of_not_changed hflag
        refine .kept _ ?_ rfl
        rw [← hfollow]
        exact congrArg (PersistentState.mk _ _) hsame

theorem AppendReplyOutcome.handled {peer : NodeID} {args : AppendEntriesArgs}
    {reply : AppendEntriesReply} (h : AppendReplyOutcome r peer args reply r') :
    Handled r (.appendReply peer args reply) r' := by
  cases h with
  | ignored | matched | backedUp => exact .kept _ rfl rfl
  | steppedDown hst ht hlt => exact .steppedDown _ ⟨hst, ht, hlt⟩ hlt

/-- **Inversion of `handle`.** -/
theorem handle_handled (hlog : r.log ≠ []) (x : Input) : Handled r x (r.handle x) := by
  cases x with
  | startElection => exact .saved _ rfl hlog (Or.inl (Nat.lt_succ_self _))
  | voteReply term votes reply => exact (startElectionReply_outcome r term votes reply).handled hlog
  | requestVote args => exact (requestVote_outcome r args).handled hlog
  | start command =>
    unfold handle Raft.start
    split_ifs with hst
    · exact .kept _ rfl rfl
    · exact .saved _ rfl (by simp) (Or.inr ⟨rfl, Or.inr rfl⟩)
  | appendReply peer args reply => exact (replicateToReply_outcome r peer args reply).handled
  | appendEntries args => exact (appendEntries_outcome r args).handled hlog
  -- delivering changes nothing that is saved
  | apply =>
    cases happ : r.applyLoop with
    | none =>
      simp only [handle, happ]
      exact .kept _ rfl rfl
    | some p =>
      obtain ⟨_, hr, _⟩ := applyLoop_eq_some happ
      simp only [handle, happ, hr]
      exact .kept _ rfl rfl
  | restart => exact .restarted rfl

end Inversion

/-! ## Votes -/

/-- The vote an input makes the node cast: its term and for whom. -/
def vote [Storage σ] (r : Raft σ) : Input → Option (Nat × NodeID)
  | .startElection => some (r.currentTerm + 1, r.id)
  | .requestVote args =>
    if (r.requestVote args).2.voteGranted then some (args.term, args.candidateID) else none
  | _ => none

/-- Votes for one term are for one candidate. -/
def VotesAgree [Storage σ] (r : Raft σ) (x : Input) (r' : Raft σ) (x' : Input) : Prop :=
  ∀ t c c', r.vote x = some (t, c) → r'.vote x' = some (t, c') → c = c'

section Vote

variable [Storage σ] {r : Raft σ} {x : Input} {t : Nat} {c : NodeID}

theorem VotesAgree.refl (r : Raft σ) (x : Input) : VotesAgree r x r x := fun _ _ _ h h' =>
  (Prod.mk.inj (Option.some.inj (h.symm.trans h'))).2

theorem VotesAgree.symm {r' : Raft σ} {x' : Input} (h : VotesAgree r x r' x') :
    VotesAgree r' x' r x := fun t c c' hvote' hvote => (h t c' c hvote hvote').symm

/-- A vote is on stable storage before anybody learns of it. -/
theorem vote_saved (h : r.vote x = some (t, c)) :
    ∃ q : Raft σ, r.handle x = q.persistLocked ∧ q.storage = r.storage ∧ q.log = r.log ∧
      q.currentTerm = t ∧ q.votedFor = c := by
  cases x with
  | startElection =>
    obtain ⟨rfl, rfl⟩ := Prod.mk.inj (Option.some.inj h)
    exact ⟨_, rfl, rfl, rfl, rfl, rfl⟩
  | requestVote args =>
    have hout := requestVote_outcome r args
    simp only [vote, Option.ite_none_right_eq_some, Option.some.injEq, Prod.mk.injEq] at h
    obtain ⟨hyes, rfl, rfl⟩ := h
    simp only [handle]
    generalize r.requestVote args = p at hout hyes ⊢
    obtain ⟨r', reply⟩ := p
    -- a vote is granted only by a node that saves it
    cases hout with
    | refused _ hno => exact absurd (hno.symm.trans hyes) (by decide)
    | adopted _ _ hno => exact absurd (hno.symm.trans hyes) (by decide)
    | granted _ heq => exact ⟨_, rfl, rfl, rfl, heq, rfl⟩
    | adoptedGranted => exact ⟨_, rfl, rfl, rfl, rfl, rfl⟩
  | voteReply | start | appendReply | appendEntries | apply | restart => cases h

/-- A node votes in a later term, or repeats the vote of its term. -/
theorem vote_free (h : r.vote x = some (t, c)) :
    r.currentTerm < t ∨ (r.currentTerm = t ∧ (r.votedFor = None ∨ r.votedFor = c)) := by
  cases x with
  | startElection =>
    obtain ⟨rfl, rfl⟩ := Prod.mk.inj (Option.some.inj h)
    exact Or.inl (Nat.lt_succ_self _)
  | requestVote args =>
    have hout := requestVote_outcome r args
    simp only [vote, Option.ite_none_right_eq_some, Option.some.injEq, Prod.mk.injEq] at h
    obtain ⟨hyes, rfl, rfl⟩ := h
    generalize r.requestVote args = p at hout hyes
    obtain ⟨r', reply⟩ := p
    -- a granted vote was free, or its term was new and cleared the old one
    cases hout with
    | refused _ hno => exact absurd (hno.symm.trans hyes) (by decide)
    | adopted _ _ hno => exact absurd (hno.symm.trans hyes) (by decide)
    | granted _ heq hfree => exact Or.inr ⟨heq, hfree⟩
    | adoptedGranted _ hlt => exact Or.inl hlt
  | voteReply | start | appendReply | appendEntries | apply | restart => cases h

/-- A vote that is pinned in the state the node votes from is the vote it repeats. -/
theorem vote_eq_of_pinned {c' : NodeID} (h : r.vote x = some (t, c)) (hc' : c' ≠ None)
    (hpin : Pinned r.persistent t c') : c = c' := by
  rcases hpin with hlt | ⟨heq, hvote⟩
  · have hfree := vote_free h
    have hlt' : t < r.currentTerm := hlt
    omega
  · have heq' : t = r.currentTerm := heq
    rcases vote_free h with hlt | ⟨_, hnone | hsame⟩
    · omega
    · exact absurd (hvote.symm.trans hnone) hc'
    · exact hsame.symm.trans hvote

end Vote

/-! ## The nodes of a cluster -/

/-- The node that handles an event of the cluster, and its input. -/
def Event.input (s : System σ) : Event → Option (NodeID × Input)
  | .startElection i => some (i, .startElection)
  | .start i command => some (i, .start command)
  -- sending a call changes no node
  | .replicateTo _ _ => none
  | .deliverVote k => (s.voteCalls[k]?).map fun c => (c.callee, .requestVote c.args)
  | .deliverAppend k => (s.appendCalls[k]?).map fun c => (c.callee, .appendEntries c.args)
  | .voteReply m => do
    let (k, reply) ← s.voteReplies[m]?
    let c ← s.voteCalls[k]?
    let e ← s.elections[c.election]?
    some (c.caller, .voteReply c.args.term e.votes reply)
  | .appendReply m => do
    let (k, reply) ← s.appendReplies[m]?
    let c ← s.appendCalls[k]?
    some (c.caller, .appendReply c.callee c.args reply)
  | .apply i => some (i, .apply)
  | .restart i => some (i, .restart)

section Cluster

variable [Storage σ] {C : Cluster} {s s' : System σ} {ev : Event}

/-- When node `j` handles an input, so does the node `i` one looks at, or it is another. -/
theorem update_handle (nodes : NodeID → Raft σ) {j : NodeID} {x : Input} {r : Raft σ}
    {input : Option (NodeID × Input)} (hin : input = some (j, x)) (hr : r = (nodes j).handle x)
    (i : NodeID) : Function.update nodes j r i = nodes i ∨
      ∃ x', input = some (i, x') ∧ Function.update nodes j r i = (nodes i).handle x' := by
  by_cases hij : i = j
  · subst hij
    exact Or.inr ⟨x, hin, by rw [Function.update_self, hr]⟩
  · exact Or.inl (Function.update_of_ne hij ..)

/-- **An event of the cluster is an input of one node.** -/
theorem step_handle (hb : Basic C s) (h : step C s ev = some s') (i : NodeID) :
    s'.nodes i = s.nodes i ∨
      ∃ x, ev.input s = some (i, x) ∧ s'.nodes i = (s.nodes i).handle x := by
  cases ev <;> simp only [step, Option.bind_eq_bind, Option.bind_eq_some_iff,
    Option.guard_eq_some', Option.some.injEq] at h
  case startElection j =>
    obtain ⟨_, _, rfl⟩ := h
    exact update_handle s.nodes (x := .startElection) rfl rfl i
  case start j command =>
    obtain ⟨_, _, rfl⟩ := h
    exact update_handle s.nodes (x := .start command) rfl rfl i
  -- sending changes no node
  case replicateTo j peer =>
    obtain ⟨_, _, _, _, rfl⟩ := h
    exact Or.inl rfl
  case deliverVote k =>
    obtain ⟨c, hc, rfl⟩ := h
    exact update_handle s.nodes (x := .requestVote c.args) (by rw [Event.input, hc]; rfl) rfl i
  case deliverAppend k =>
    obtain ⟨c, hc, rfl⟩ := h
    exact update_handle s.nodes (x := .appendEntries c.args) (by rw [Event.input, hc]; rfl) rfl i
  case voteReply m =>
    obtain ⟨⟨k, reply⟩, hm, c, hc, e, he, _, _, rfl⟩ := h
    refine update_handle s.nodes (x := .voteReply c.args.term e.votes reply) ?_ rfl i
    simp only [Event.input, Option.bind_eq_bind, hm, hc, he, Option.bind_some]
  case appendReply m =>
    obtain ⟨⟨k, reply⟩, hm, c, hc, _, _, rfl⟩ := h
    refine update_handle s.nodes (x := .appendReply c.callee c.args reply) ?_ rfl i
    simp only [Event.input, Option.bind_eq_bind, hm, hc, Option.bind_some]
  case apply j =>
    obtain ⟨_, _, ⟨r, msg⟩, hr, rfl⟩ := h
    exact update_handle s.nodes (x := .apply) rfl (by simp only [handle, hr]) i
  case restart j =>
    obtain ⟨_, hj, rfl⟩ := h
    -- the cluster restarts a node with the id and peers it had
    exact update_handle s.nodes (x := .restart) rfl
      (by simp only [handle, hb.id j hj, hb.peers j hj]) i

end Cluster

end EventLog.Raft
