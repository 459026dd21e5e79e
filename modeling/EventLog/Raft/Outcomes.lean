import EventLog.Raft.Cluster
import Mathlib.Data.Option.Basic

/-!
# What each critical section can do

One inductive predicate for each handler lists its possible outcomes with the guards
that lead there and the node it leaves behind.  Later proofs take a handler apart by
cases on its outcome and never unfold its definition again.
-/

namespace EventLog.Raft

variable {σ : Type} [Storage σ]

/-! ## Vote requests -/

/-- The outcomes of `RequestVote`. -/
inductive RequestVoteOutcome (r : Raft σ) (args : RequestVoteArgs) :
    Raft σ → RequestVoteReply → Prop where
  /-- Stale candidate, or refused in the current term. -/
  | refused (reply) : reply.voteGranted = false → RequestVoteOutcome r args r reply
  /-- A higher term was adopted and the vote refused. -/
  | adopted (reply) : r.currentTerm < args.term → reply.voteGranted = false →
      RequestVoteOutcome r args (r.becomeFollowerLocked args.term).persistLocked reply
  /-- The vote was granted in the node's own term. -/
  | granted (reply) : r.currentTerm = args.term →
      (r.votedFor = None ∨ r.votedFor = args.candidateID) →
      r.candidateUpToDateLocked args = true →
      RequestVoteOutcome r args { r with votedFor := args.candidateID }.persistLocked reply
  /-- A higher term was adopted and the vote granted in it. -/
  | adoptedGranted (reply) : r.currentTerm < args.term →
      r.candidateUpToDateLocked args = true →
      RequestVoteOutcome r args
        { r.becomeFollowerLocked args.term with votedFor := args.candidateID }.persistLocked reply

theorem requestVote_outcome (r : Raft σ) (args : RequestVoteArgs) :
    RequestVoteOutcome r args (r.requestVote args).1 (r.requestVote args).2 := by
  unfold requestVote observeTerm
  by_cases hlt : args.term > r.currentTerm
  · -- the term is adopted first, which clears the vote
    have hup : (r.becomeFollowerLocked args.term).candidateUpToDateLocked args =
        r.candidateUpToDateLocked args := rfl
    have hvote : (r.becomeFollowerLocked args.term).votedFor = None := rfl
    have hterm : (r.becomeFollowerLocked args.term).currentTerm = args.term := rfl
    simp only [hlt, if_true]
    rw [hterm, if_neg (Nat.lt_irrefl _), hvote, hup]
    cases hc : r.candidateUpToDateLocked args with
    | true => exact RequestVoteOutcome.adoptedGranted _ hlt hc
    | false => exact RequestVoteOutcome.adopted _ hlt rfl
  · simp only [hlt, if_false]
    -- no new term: the vote of this one may be given away already
    by_cases hst : args.term < r.currentTerm
    · simpa [hst] using RequestVoteOutcome.refused _ rfl
    · simp only [hst, if_false]
      by_cases hgrant : (!(decide (r.votedFor ≠ None) && decide (r.votedFor ≠ args.candidateID)) &&
          r.candidateUpToDateLocked args) = true
      · rw [if_pos hgrant]
        simp only [Bool.and_eq_true, Bool.not_eq_true', Bool.and_eq_false_iff,
          decide_eq_false_iff_not, not_not] at hgrant
        exact RequestVoteOutcome.granted _ (by omega) hgrant.1 hgrant.2
      · rw [if_neg hgrant]
        exact RequestVoteOutcome.refused _ rfl

/-- A stale candidate is refused. -/
theorem requestVote_refused_of_stale (r : Raft σ) (args : RequestVoteArgs)
    (h : args.term < r.currentTerm) : (r.requestVote args).2.voteGranted = false := by
  have hn : ¬ args.term > r.currentTerm := by omega
  simp [requestVote, observeTerm, hn, h]

/-- The node a candidate becomes when it wins. -/
def asLeader (r : Raft σ) : Raft σ :=
  { r with
    state := .leader
    leaderID := r.id
    nextIndex := fun p => if p ∈ r.peers then r.lastIndexLocked + 1 else 0
    matchIndex := fun _ => 0 }

/-- The outcomes of a vote reply: `votes'` is the counter afterwards. -/
inductive VoteReplyOutcome (r : Raft σ) (term votes : Nat) (reply : RequestVoteReply) :
    Raft σ → Nat → Prop where
  /-- The election is over for this node, or the vote was refused. -/
  | ignored : VoteReplyOutcome r term votes reply r votes
  /-- The reply carries a higher term. -/
  | steppedDown : r.state = .candidate → r.currentTerm = term → r.currentTerm < reply.term →
      VoteReplyOutcome r term votes reply
        (r.becomeFollowerLocked reply.term).persistLocked votes
  /-- One more vote, not yet a majority. -/
  | counted : r.state = .candidate → r.currentTerm = term → reply.voteGranted = true →
      votes + 1 < r.majority → VoteReplyOutcome r term votes reply r (votes + 1)
  /-- The vote that completes a majority. -/
  | elected : r.state = .candidate → r.currentTerm = term → reply.voteGranted = true →
      r.majority ≤ votes + 1 →
      VoteReplyOutcome r term votes reply (asLeader r) (votes + 1)

theorem startElectionReply_outcome (r : Raft σ) (term votes : Nat) (reply : RequestVoteReply) :
    VoteReplyOutcome r term votes reply (r.startElectionReply term votes reply).1
      (r.startElectionReply term votes reply).2 := by
  unfold startElectionReply
  -- the guards in the order of the source: still a candidate, no higher term, vote granted
  split_ifs with hguard hterm hgrant
  · exact .ignored
  · simp only [not_or, not_not] at hguard
    exact .steppedDown hguard.1 hguard.2 hterm
  · exact .ignored
  · simp only [not_or, not_not] at hguard
    have hgranted : reply.voteGranted = true := by simpa using hgrant
    -- the guard of `becomeLeaderLocked` holds: the node is still a candidate
    by_cases hmaj : votes + 1 ≥ r.majority
    · simp only [if_pos hmaj, becomeLeaderLocked, hguard.1, ne_eq, not_true_eq_false, if_false]
      exact .elected hguard.1 hguard.2 hgranted hmaj
    · simp only [if_neg hmaj]
      exact .counted hguard.1 hguard.2 hgranted (Nat.lt_of_not_ge hmaj)

/-! ## Append requests -/

/-- The node after `AppendEntries` accepted the sender as leader of `args.term`. -/
def follow (r : Raft σ) (args : AppendEntriesArgs) : Raft σ :=
  { r with
    currentTerm := args.term
    votedFor := if r.currentTerm < args.term then None else r.votedFor
    state := .follower
    leaderID := args.leaderID }

/-- The outcomes of `AppendEntries`. -/
inductive AppendEntriesOutcome (r : Raft σ) (args : AppendEntriesArgs) :
    Raft σ → AppendEntriesReply → Prop where
  /-- Stale leader. -/
  | stale (reply) : args.term < r.currentTerm → reply.success = false →
      reply.conflictIndex = 0 → AppendEntriesOutcome r args r reply
  /-- The consistency check failed. -/
  | rejected (reply) : r.currentTerm ≤ args.term → reply.success = false →
      reply.conflictIndex ≤ args.prevLogIndex →
      AppendEntriesOutcome r args
        ((follow r args).persistIf (decide (r.currentTerm < args.term))) reply
  /-- The prefix matched; the entries were merged and the commit point moved. -/
  | accepted (reply) : r.currentTerm ≤ args.term → args.prevLogIndex ≤ r.log.length - 1 →
      termAt r.log args.prevLogIndex = args.prevLogTerm → reply.conflictIndex = 0 →
      AppendEntriesOutcome r args
        (persistIf (decide (r.currentTerm < args.term) ||
            (mergeEntries r.log (args.prevLogIndex + 1) args.entries).2)
          { follow r args with
            log := (mergeEntries r.log (args.prevLogIndex + 1) args.entries).1
            commitIndex :=
              if args.leaderCommit > r.commitIndex then
                min args.leaderCommit (args.prevLogIndex + args.entries.length)
              else r.commitIndex }) reply

theorem conflictStart_le (log : List LogEntry) (t : Nat) (ci : Nat) :
    conflictStart log t ci ≤ ci := by
  induction ci with
  | zero => simp [conflictStart]
  | succ ci ih =>
    unfold conflictStart
    split_ifs with h
    · omega
    · exact Nat.le_refl _

omit [Storage σ] in
theorem observeTerm_follow (r : Raft σ) (args : AppendEntriesArgs)
    (h : ¬ args.term < r.currentTerm) :
    ({ (r.observeTerm args.term).1 with state := .follower, leaderID := args.leaderID } : Raft σ) =
        follow r args ∧
      (r.observeTerm args.term).2 = decide (r.currentTerm < args.term) := by
  unfold observeTerm follow
  by_cases hlt : args.term > r.currentTerm
  · simp [hlt, becomeFollowerLocked]
  · have heq : r.currentTerm = args.term := by omega
    simp [heq]

theorem appendEntries_outcome (r : Raft σ) (args : AppendEntriesArgs) :
    AppendEntriesOutcome r args (r.appendEntries args).1 (r.appendEntries args).2 := by
  unfold appendEntries
  by_cases hst : args.term < r.currentTerm
  · rw [if_pos hst]
    exact .stale _ hst rfl rfl
  · rw [if_neg hst]
    -- from here on the handler works on the follower of the sender
    obtain ⟨hfollow, hchanged⟩ := observeTerm_follow r args hst
    simp only [hfollow, hchanged]
    unfold appendChecked
    have hle : r.currentTerm ≤ args.term := by omega
    -- the consistency check: is there a previous entry, and is it of the right term
    by_cases hshort : args.prevLogIndex > (follow r args).lastIndexLocked
    · rw [if_pos hshort]
      exact .rejected _ hle rfl hshort
    · rw [if_neg hshort]
      by_cases hterm : termAt (follow r args).log args.prevLogIndex ≠ args.prevLogTerm
      · rw [if_pos hterm]
        exact .rejected _ hle rfl (conflictStart_le _ _ _)
      · rw [if_neg hterm]
        exact .accepted _ hle (Nat.le_of_not_gt hshort) (not_not.mp hterm) rfl

/-- A follower's hint lies at or below the index it was asked about. -/
theorem AppendEntriesOutcome.conflictIndex_le {r r' : Raft σ} {args : AppendEntriesArgs}
    {reply : AppendEntriesReply} (h : AppendEntriesOutcome r args r' reply) :
    reply.conflictIndex ≤ args.prevLogIndex := by
  cases h with
  | stale _ _ _ hconf => omega
  | rejected _ _ _ hconf => exact hconf
  | accepted _ _ _ _ hconf => omega

/-- The leader after it recorded that `peer` holds everything up to `m`. -/
def recordMatch (r : Raft σ) (peer : NodeID) (m : Nat) : Raft σ :=
  { r with
    matchIndex := Function.update r.matchIndex peer m
    nextIndex := Function.update r.nextIndex peer (m + 1) }

omit [Storage σ] in
theorem update_le {f : NodeID → Nat} {p : NodeID} {v b : Nat} (hv : v ≤ b) (hf : ∀ q, f q ≤ b)
    (q : NodeID) : Function.update f p v q ≤ b := by
  by_cases hq : q = p
  · rw [hq, Function.update_self]
    exact hv
  · rw [Function.update_of_ne hq]
    exact hf q

omit [Storage σ] in
theorem update_lt {f : NodeID → Nat} {p : NodeID} {v b : Nat} (hv : v < b) (hf : ∀ q, f q < b)
    (q : NodeID) : Function.update f p v q < b :=
  Nat.lt_of_le_pred (Nat.zero_lt_of_lt hv)
    (update_le (Nat.le_pred_of_lt hv) (fun q => Nat.le_pred_of_lt (hf q)) q)

section Replies

variable (r : Raft σ) (peer : NodeID) (args : AppendEntriesArgs) (reply : AppendEntriesReply)

/-- The node still leads the term of the call, and the reply shows no higher one. -/
def Counts : Prop :=
  r.state = .leader ∧ r.currentTerm = args.term ∧ reply.term ≤ r.currentTerm

instance : Decidable (Counts r args reply) := by unfold Counts; infer_instance

/-- The next index after a rejection. -/
def backUp : Nat :=
  if reply.conflictIndex > 0 then reply.conflictIndex
  else if r.nextIndex peer > 1 then r.nextIndex peer - 1
  else r.nextIndex peer

omit [Storage σ] in
/-- It is the follower's hint, or not above the old one. -/
theorem backUp_cases :
    r.backUp peer reply = reply.conflictIndex ∨ r.backUp peer reply ≤ r.nextIndex peer := by
  unfold backUp
  split_ifs
  · exact Or.inl rfl
  · exact Or.inr (Nat.sub_le _ _)
  · exact Or.inr (Nat.le_refl _)

/-- The outcomes of an append reply at the leader, with the exact indices they record. -/
inductive AppendReplyOutcome : Raft σ → Prop where
  /-- No longer leader of that term. -/
  | ignored : ¬Counts r args reply → AppendReplyOutcome r
  /-- The reply carries a higher term; nothing is persisted here. -/
  | steppedDown : r.state = .leader → r.currentTerm = args.term → r.currentTerm < reply.term →
      AppendReplyOutcome (r.becomeFollowerLocked reply.term)
  /-- The follower holds everything up to the last entry sent. -/
  | matched : Counts r args reply → reply.success = true →
      AppendReplyOutcome
        (r.recordMatch peer (args.prevLogIndex + args.entries.length)).advanceCommitLocked
  /-- The follower rejected; `nextIndex` backs up or stays. -/
  | backedUp : Counts r args reply → reply.success = false →
      AppendReplyOutcome
        { r with nextIndex := Function.update r.nextIndex peer (r.backUp peer reply) }

omit [Storage σ] in
theorem replicateToReply_outcome :
    AppendReplyOutcome r peer args reply (r.replicateToReply peer args reply) := by
  unfold replicateToReply
  by_cases hguard : r.state ≠ .leader ∨ r.currentTerm ≠ args.term
  · rw [if_pos hguard]
    exact .ignored fun hc => hguard.elim (· hc.1) (· hc.2.1)
  · rw [if_neg hguard]
    simp only [not_or, not_not] at hguard
    by_cases hterm : reply.term > r.currentTerm
    · rw [if_pos hterm]
      exact .steppedDown hguard.1 hguard.2 hterm
    · rw [if_neg hterm]
      have hcounts : Counts r args reply := ⟨hguard.1, hguard.2, Nat.le_of_not_gt hterm⟩
      cases hsucc : reply.success with
      | true => exact .matched hcounts hsucc
      | false =>
        have hback : AppendReplyOutcome r peer args reply _ := .backedUp hcounts hsucc
        unfold backUp at hback
        simp only [Bool.false_eq_true, if_false]
        -- the three ways to back up differ only in the index
        split_ifs at hback ⊢ with hconf hnext
        · exact hback
        · exact hback
        · rwa [Function.update_eq_self] at hback

end Replies

/-- The arguments `replicateTo` sends when the next index is `ni`. -/
def sendFrom (r : Raft σ) (ni : Nat) : AppendEntriesArgs :=
  { term := r.currentTerm
    leaderID := r.id
    prevLogIndex := ni - 1
    prevLogTerm := termAt r.log (ni - 1)
    entries := r.log.drop ni
    leaderCommit := r.commitIndex }

omit [Storage σ] in
theorem replicateTo_eq_some {r : Raft σ} {peer : NodeID} {args : AppendEntriesArgs}
    (h : r.replicateTo peer = some args) :
    r.state = .leader ∧ args = r.sendFrom (max 1 (r.nextIndex peer)) := by
  unfold replicateTo at h
  by_cases hl : r.state = .leader
  · simp only [hl, ne_eq, not_true_eq_false, if_false, Option.some.injEq] at h
    refine ⟨hl, ?_⟩
    rw [← h]
    -- the clamp to 1 is a maximum
    by_cases hni : r.nextIndex peer < 1
    · rw [if_pos hni, Nat.max_eq_left (Nat.le_of_lt hni)]
      rfl
    · rw [if_neg hni, Nat.max_eq_right (Nat.le_of_not_lt hni)]
      rfl
  · simp [hl] at h

/-- The leader after `Start` appended a command. -/
def extendLog (r : Raft σ) (command : Command) : Raft σ :=
  { r with log := r.log ++ [LogEntry.mk r.currentTerm command] }.persistLocked

theorem start_of_leader {r : Raft σ} (hl : r.state = .leader) (command : Command) :
    r.start command = (r.extendLog command, r.log.length, r.currentTerm, true) := by
  simp [Raft.start, extendLog, hl]

theorem start_of_not_leader {r : Raft σ} (hl : r.state ≠ .leader) (command : Command) :
    r.start command = (r, 0, r.currentTerm, false) := by
  simp [Raft.start, hl]

/-! ## Transitions of the cluster -/

/-- The node `i` if it turned from candidate into leader. -/
def newLeader (i : NodeID) (r r' : Raft σ) : Option NodeID :=
  if r.state = .candidate ∧ r'.state = .leader then some i else none

omit [Storage σ] in
theorem newLeader_eq_none {i : NodeID} {r r' : Raft σ}
    (h : r'.state = .leader → r.state = .leader) : newLeader i r r' = none :=
  if_neg fun hc => by
    have := h hc.2
    rw [hc.1] at this
    cases this

/-- Everything a step of the cluster can do, with the handlers given by their outcome.
    The index names the node that became leader or extended its log as leader, if there
    is one. -/
inductive Transition (C : Cluster) (s : System σ) : Option NodeID → System σ → Prop where
  | idle : Transition C s none s
  | startElection (i) : i ∈ C.ids →
      Transition C s none { s.setNode i (s.nodes i).startElection.1 with
        elections := s.elections ++ [⟨i, (s.nodes i).startElection.2.term, 1⟩]
        voteCalls := s.voteCalls ++ (s.nodes i).peers.map fun p =>
          ⟨i, p, (s.nodes i).startElection.2, s.elections.length⟩ }
  | start (i command) : i ∈ C.ids → (s.nodes i).state = .leader →
      Transition C s (some i) (s.setNode i ((s.nodes i).extendLog command))
  | replicateTo (i peer) : i ∈ C.ids → peer ∈ (s.nodes i).peers →
      (s.nodes i).state = .leader →
      Transition C s none { s with
        appendCalls := s.appendCalls ++
          [⟨i, peer, (s.nodes i).sendFrom (max 1 ((s.nodes i).nextIndex peer))⟩] }
  | deliverVote (k c r reply) : s.voteCalls[k]? = some c →
      RequestVoteOutcome (s.nodes c.callee) c.args r reply →
      (reply.voteGranted = true → (s.nodes c.callee).currentTerm ≤ c.args.term) →
      Transition C s none
        { s.setNode c.callee r with voteReplies := s.voteReplies ++ [(k, reply)] }
  | deliverAppend (k c r reply) : s.appendCalls[k]? = some c →
      AppendEntriesOutcome (s.nodes c.callee) c.args r reply →
      Transition C s none
        { s.setNode c.callee r with appendReplies := s.appendReplies ++ [(k, reply)] }
  | voteReply (k reply c e r votes) : (k, reply) ∈ s.voteReplies → s.voteCalls[k]? = some c →
      s.elections[c.election]? = some e → s.voteOpen k = true →
      VoteReplyOutcome (s.nodes c.caller) c.args.term e.votes reply r votes →
      Transition C s (newLeader c.caller (s.nodes c.caller) r) { s.setNode c.caller r with
        elections := s.elections.set c.election { e with votes := votes }
        voteOpen := Function.update s.voteOpen k false }
  | appendReply (k reply c r) : (k, reply) ∈ s.appendReplies → s.appendCalls[k]? = some c →
      s.appendOpen k = true → AppendReplyOutcome (s.nodes c.caller) c.callee c.args reply r →
      Transition C s none { s.setNode c.caller r with
        appendOpen := Function.update s.appendOpen k false }
  | apply (i r msg) : i ∈ C.ids → (s.nodes i).applyLoop = some (r, msg) →
      Transition C s none { s.setNode i r with applied := s.applied ++ [(i, msg)] }
  | restart (i) : i ∈ C.ids →
      Transition C s none { s.setNode i (Raft.new i (C.peers i) (s.nodes i).storage) with
        voteOpen := fun k => s.voteOpen k && !(s.voteCalls[k]?).any (·.caller = i)
        appendOpen := fun k => s.appendOpen k && !(s.appendCalls[k]?).any (·.caller = i) }

omit [Storage σ] in
theorem setNode_self (s : System σ) (i : NodeID) : s.setNode i (s.nodes i) = s := by
  unfold System.setNode
  rw [Function.update_eq_self]

/-- **Inversion of `step`.** -/
theorem step_transition {C : Cluster} {s s' : System σ} {ev : Event}
    (h : step C s ev = some s') : ∃ o, Transition C s o s' := by
  cases ev <;> simp only [step, Option.bind_eq_bind, Option.bind_eq_some_iff,
    Option.guard_eq_some', Option.some.injEq] at h
  case startElection i =>
    obtain ⟨_, hi, rfl⟩ := h
    exact ⟨_, .startElection i hi⟩
  case start i command =>
    obtain ⟨_, hi, rfl⟩ := h
    -- on any other node `Start` changes nothing
    by_cases hl : (s.nodes i).state = .leader
    · refine ⟨some i, ?_⟩
      simpa [Raft.start, extendLog, hl] using Transition.start i command hi hl
    · refine ⟨none, ?_⟩
      simpa [Raft.start, hl, setNode_self] using Transition.idle
  case replicateTo i peer =>
    obtain ⟨_, ⟨hi, hp⟩, args, hargs, rfl⟩ := h
    obtain ⟨hl, rfl⟩ := replicateTo_eq_some hargs
    exact ⟨_, .replicateTo i peer hi hp hl⟩
  case deliverVote k =>
    obtain ⟨c, hc, rfl⟩ := h
    refine ⟨_, .deliverVote k c _ _ hc (requestVote_outcome _ _) fun hg => ?_⟩
    -- a node past the term refuses
    by_contra hlt
    rw [requestVote_refused_of_stale _ _ (by omega)] at hg
    exact Bool.noConfusion hg
  case deliverAppend k =>
    obtain ⟨c, hc, rfl⟩ := h
    exact ⟨_, .deliverAppend k c _ _ hc (appendEntries_outcome _ _)⟩
  -- the call a reply answers is still open, so it is counted once
  case voteReply m =>
    obtain ⟨⟨k, reply⟩, hm, c, hc, e, he, _, hopen, rfl⟩ := h
    exact ⟨_, .voteReply k reply c e _ _ (List.mem_of_getElem? hm) hc he hopen
      (startElectionReply_outcome _ _ _ _)⟩
  case appendReply m =>
    obtain ⟨⟨k, reply⟩, hm, c, hc, _, hopen, rfl⟩ := h
    exact ⟨_, .appendReply k reply c _ (List.mem_of_getElem? hm) hc hopen
      (replicateToReply_outcome _ _ _ _)⟩
  case apply i =>
    obtain ⟨_, hi, ⟨r, msg⟩, hr, rfl⟩ := h
    exact ⟨_, .apply i r msg hi hr⟩
  case restart i =>
    obtain ⟨_, hi, rfl⟩ := h
    exact ⟨_, .restart i hi⟩

/-! ## One node across a transition -/

/-- The ways a transition can change the node `i`. -/
inductive NodeStep (C : Cluster) (s s' : System σ) (i : NodeID) : Raft σ → Prop where
  | same : NodeStep C s s' i (s.nodes i)
  | startElection : i ∈ C.ids → ⟨i, (s.nodes i).currentTerm + 1, 1⟩ ∈ s'.elections →
      NodeStep C s s' i (s.nodes i).startElection.1
  | start (command) : i ∈ C.ids → (s.nodes i).state = .leader →
      NodeStep C s s' i ((s.nodes i).extendLog command)
  | requestVote (call r reply) : call ∈ s.voteCalls → call.callee = i →
      RequestVoteOutcome (s.nodes i) call.args r reply → NodeStep C s s' i r
  | appendEntries (call r reply) : call ∈ s.appendCalls → call.callee = i →
      AppendEntriesOutcome (s.nodes i) call.args r reply → NodeStep C s s' i r
  | voteReply (call r reply votes votes') : call ∈ s.voteCalls → call.caller = i →
      VoteReplyOutcome (s.nodes i) call.args.term votes reply r votes' → NodeStep C s s' i r
  | appendReply (k call r reply) : (k, reply) ∈ s.appendReplies →
      s.appendCalls[k]? = some call → call.caller = i →
      AppendReplyOutcome (s.nodes i) call.callee call.args reply r → NodeStep C s s' i r
  | apply (r msg) : i ∈ C.ids → (s.nodes i).applyLoop = some (r, msg) → NodeStep C s s' i r
  | restart : i ∈ C.ids → NodeStep C s s' i (Raft.new i (C.peers i) (s.nodes i).storage)

/-- Replacing node `j` is a step of node `i` as soon as it is one of node `j`. -/
theorem nodeStep_update {C : Cluster} {s s' : System σ} {i j : NodeID} {r : Raft σ}
    (h : NodeStep C s s' j r) : NodeStep C s s' i (Function.update s.nodes j r i) := by
  by_cases hij : i = j
  · subst hij
    rwa [Function.update_self]
  · rw [Function.update_of_ne hij]
    exact .same

theorem Transition.node {C : Cluster} {s s' : System σ} {o : Option NodeID}
    (h : Transition C s o s') (i : NodeID) : NodeStep C s s' i (s'.nodes i) := by
  -- an event touches one node, the one it is addressed to
  cases h with
  | idle => exact .same
  | startElection j hj =>
    exact nodeStep_update (.startElection hj (List.mem_append_right _ (List.mem_singleton.mpr rfl)))
  | start j command hj hl => exact nodeStep_update (.start command hj hl)
  | replicateTo j => exact .same
  | deliverVote k c r reply hc hr =>
    exact nodeStep_update (.requestVote c r reply (List.mem_of_getElem? hc) rfl hr)
  | deliverAppend k c r reply hc hr =>
    exact nodeStep_update (.appendEntries c r reply (List.mem_of_getElem? hc) rfl hr)
  | voteReply k reply c e r votes _ hc _ _ hr =>
    exact nodeStep_update (.voteReply c r reply e.votes votes (List.mem_of_getElem? hc) rfl hr)
  | appendReply k reply c r hm hc _ hr =>
    exact nodeStep_update (.appendReply k c r reply hm hc rfl hr)
  | apply j r msg hj hr => exact nodeStep_update (.apply r msg hj hr)
  | restart j hj => exact nodeStep_update (.restart hj)

omit [Storage σ] in
theorem applyLoop_eq_some {r r' : Raft σ} {msg : ApplyMsg} (h : r.applyLoop = some (r', msg)) :
    r.lastApplied < r.commitIndex ∧ r' = { r with lastApplied := r.lastApplied + 1 } ∧
      msg = { commandValid := true
              command := (r.log.getD (r.lastApplied + 1) sentinel).command
              commandIndex := r.lastApplied + 1 } := by
  unfold applyLoop at h
  split_ifs at h with hw
  simp only [Option.some.injEq, Prod.mk.injEq] at h
  exact ⟨by omega, h.1.symm, h.2.symm⟩

theorem storage_new (id : NodeID) (peers : List NodeID) (st : σ) :
    (Raft.new id peers st).storage = st := by
  unfold Raft.new loadPersistedState
  split <;> rfl

/-! ## Frame facts

Calls and replies are only ever added. -/

section Frame

variable {C : Cluster} {s s' : System σ} {o : Option NodeID}

theorem Transition.voteCalls_mono (h : Transition C s o s') :
    s.voteCalls <+: s'.voteCalls := by
  cases h <;> simp [System.setNode]

theorem Transition.voteReplies_mono (h : Transition C s o s') :
    s.voteReplies <+: s'.voteReplies := by
  cases h <;> simp [System.setNode]

theorem Transition.appendCalls_mono (h : Transition C s o s') :
    s.appendCalls <+: s'.appendCalls := by
  cases h <;> simp [System.setNode]

theorem Transition.appendReplies_mono (h : Transition C s o s') :
    s.appendReplies <+: s'.appendReplies := by
  cases h <;> simp [System.setNode]

end Frame

/-! ## Enabled events -/

/-- The node whose critical section an event runs. -/
def Event.node (s : System σ) : Event → Option NodeID
  | .startElection i | .start i _ | .replicateTo i _ | .apply i | .restart i => some i
  | .deliverVote k => (s.voteCalls[k]?).map (·.callee)
  | .deliverAppend k => (s.appendCalls[k]?).map (·.callee)
  | .voteReply m => do
    let (k, _) ← s.voteReplies[m]?
    let c ← s.voteCalls[k]?
    some c.caller
  | .appendReply m => do
    let (k, _) ← s.appendReplies[m]?
    let c ← s.appendCalls[k]?
    some c.caller

section Enabled

variable {C : Cluster} {s : System σ} {i : NodeID}

theorem step_startElection (hi : i ∈ C.ids) :
    step C s (.startElection i) = some { s.setNode i (s.nodes i).startElection.1 with
      elections := s.elections ++ [⟨i, (s.nodes i).startElection.2.term, 1⟩]
      voteCalls := s.voteCalls ++ (s.nodes i).startElection.1.peers.map fun p =>
        ⟨i, p, (s.nodes i).startElection.2, s.elections.length⟩ } := by
  simp [step, hi]

theorem step_deliverVote {k : Nat} {c : VoteCall} (hc : s.voteCalls[k]? = some c) :
    step C s (.deliverVote k) =
      some { s.setNode c.callee ((s.nodes c.callee).requestVote c.args).1 with
        voteReplies := s.voteReplies ++ [(k, ((s.nodes c.callee).requestVote c.args).2)] } := by
  simp [step, hc]

theorem step_voteReply {m k : Nat} {reply : RequestVoteReply} {c : VoteCall} {e : Election}
    (hm : s.voteReplies[m]? = some (k, reply)) (hc : s.voteCalls[k]? = some c)
    (he : s.elections[c.election]? = some e) (hopen : s.voteOpen k = true) {r : Raft σ}
    {votes : Nat}
    (hr : (s.nodes c.caller).startElectionReply c.args.term e.votes reply = (r, votes)) :
    step C s (.voteReply m) = some { s.setNode c.caller r with
      elections := s.elections.set c.election { e with votes := votes }
      voteOpen := Function.update s.voteOpen k false } := by
  simp [step, hm, hc, he, hopen, hr]

theorem step_replicateTo {peer : NodeID} {args : AppendEntriesArgs} (hi : i ∈ C.ids)
    (hp : peer ∈ (s.nodes i).peers) (hargs : (s.nodes i).replicateTo peer = some args) :
    step C s (.replicateTo i peer) =
      some { s with appendCalls := s.appendCalls ++ [⟨i, peer, args⟩] } := by
  simp [step, hi, hp, hargs]

theorem step_deliverAppend {k : Nat} {c : AppendCall} (hc : s.appendCalls[k]? = some c) :
    step C s (.deliverAppend k) =
      some { s.setNode c.callee ((s.nodes c.callee).appendEntries c.args).1 with
        appendReplies :=
          s.appendReplies ++ [(k, ((s.nodes c.callee).appendEntries c.args).2)] } := by
  simp [step, hc]

theorem step_appendReply {m k : Nat} {reply : AppendEntriesReply} {c : AppendCall}
    (hm : s.appendReplies[m]? = some (k, reply)) (hc : s.appendCalls[k]? = some c)
    (hopen : s.appendOpen k = true) :
    step C s (.appendReply m) =
      some { s.setNode c.caller ((s.nodes c.caller).replicateToReply c.callee c.args reply) with
        appendOpen := Function.update s.appendOpen k false } := by
  simp [step, hm, hc, hopen]

theorem step_applyLoop {r : Raft σ} {msg : ApplyMsg} (hi : i ∈ C.ids)
    (hr : (s.nodes i).applyLoop = some (r, msg)) :
    step C s (.apply i) = some { s.setNode i r with applied := s.applied ++ [(i, msg)] } := by
  simp [step, hi, hr]

end Enabled

/-- A call that has not been made yet can still be answered. -/
structure FreshCalls (s : System σ) : Prop where
  vote : ∀ k, s.voteCalls.length ≤ k → s.voteOpen k = true
  append : ∀ k, s.appendCalls.length ≤ k → s.appendOpen k = true

theorem FreshCalls.step {C : Cluster} {s s' : System σ} {o : Option NodeID}
    (hf : FreshCalls s) (h : Transition C s o s') : FreshCalls s' := by
  have hvote := h.voteCalls_mono.length_le
  have happend := h.appendCalls_mono.length_le
  cases h with
  | voteReply k reply c e r votes _ hc =>
    refine ⟨fun k' hk' => ?_, hf.append⟩
    -- the call that was answered had been made
    have hne : k' ≠ k := by
      have hlt := (List.getElem?_eq_some_iff.mp hc).1
      replace hk' : s.voteCalls.length ≤ k' := hk'
      omega
    exact (Function.update_of_ne hne ..).trans (hf.vote k' hk')
  | appendReply k reply c r _ hc =>
    refine ⟨hf.vote, fun k' hk' => ?_⟩
    have hne : k' ≠ k := by
      have hlt := (List.getElem?_eq_some_iff.mp hc).1
      replace hk' : s.appendCalls.length ≤ k' := hk'
      omega
    exact (Function.update_of_ne hne ..).trans (hf.append k' hk')
  | restart i =>
    refine ⟨fun k hk => ?_, fun k hk => ?_⟩
    · replace hk : s.voteCalls.length ≤ k := hk
      simp [hf.vote k hk, List.getElem?_eq_none hk]
    · replace hk : s.appendCalls.length ≤ k := hk
      simp [hf.append k hk, List.getElem?_eq_none hk]
  -- the other transitions close nothing
  | _ =>
    exact ⟨fun k hk => hf.vote k (Nat.le_trans hvote hk),
      fun k hk => hf.append k (Nat.le_trans happend hk)⟩

end EventLog.Raft
