import EventLog.Raft.Sync

/-!
# Replication progress

What a leader records about its peers comes from replies to its own calls, which carry what
its log was when they were sent.  `RoleStep` lists what a transition can do to the role of a
node, and `Leading` is the invariant that follows: an open call of a leader's term reaches no
further than its log, so no recorded index does either.  Nothing here depends on what the
storages do.

Many calls to one peer are open at once and each reply overwrites both indices, so a reply
that is handled late takes progress back (`progress_lost_reordered`).  `progress_iff` says
that nothing else does.
-/

namespace EventLog.Raft

open EventLog.Lib

variable {σ : Type} [Storage σ]

/-! ## Roles -/

/-- What an event can do to the role of node `i`, its log and its two maps. -/
inductive RoleStep (C : Cluster) (s : System σ) (ev : Event) (s' : System σ) (i : NodeID) :
    Raft σ → Prop where
  /-- Nothing of that changed. -/
  | kept (v st a) :
      RoleStep C s ev s' i { s.nodes i with votedFor := v, storage := st, lastApplied := a }
  | followed (r' : Raft σ) : r'.state = .follower → (s.nodes i).currentTerm ≤ r'.currentTerm →
      r'.peers = (s.nodes i).peers → ((s.nodes i).log ≠ [] → r'.log ≠ []) →
      RoleStep C s ev s' i r'
  | stood : ev = .startElection i → RoleStep C s ev s' i (s.nodes i).startElection.1
  | elected : (s.nodes i).state = .candidate → RoleStep C s ev s' i (s.nodes i).asLeader
  | extended (command) : (s.nodes i).state = .leader →
      RoleStep C s ev s' i ((s.nodes i).extendLog command)
  /-- A reply to an open call of the node was handled. -/
  | replied (m k call reply) : ev = .appendReply m → s.appendReplies[m]? = some (k, reply) →
      s.appendCalls[k]? = some call → s.appendOpen k = true → call.caller = i →
      RoleStep C s ev s' i ((s.nodes i).replicateToReply call.callee call.args reply)
  /-- The node restarted, and the goroutines that waited for its calls are gone. -/
  | restarted : (∀ k c, s.appendCalls[k]? = some c → c.caller = i → s'.appendOpen k = false) →
      (∀ k c, s.voteCalls[k]? = some c → c.caller = i → s'.voteOpen k = false) →
      RoleStep C s ev s' i (Raft.new i (C.peers i) (s.nodes i).storage)

section Roles

variable {C : Cluster} {s s' : System σ} {ev : Event} {i : NodeID}

theorem RoleStep.same : RoleStep C s ev s' i (s.nodes i) := .kept _ _ _

/-- Replacing node `j` is a step of node `i` as soon as it is one of node `j`. -/
theorem roleStep_update {j : NodeID} {r : Raft σ} (h : RoleStep C s ev s' j r) :
    RoleStep C s ev s' i (Function.update s.nodes j r i) := by
  by_cases hij : i = j
  · subst hij
    rwa [Function.update_self]
  · rw [Function.update_of_ne hij]
    exact .same

theorem RequestVoteOutcome.role {r' : Raft σ} {args : RequestVoteArgs} {reply : RequestVoteReply}
    (h : RequestVoteOutcome (s.nodes i) args r' reply) : RoleStep C s ev s' i r' := by
  cases h with
  | refused => exact .same
  | granted => exact .kept _ _ _
  | adopted _ hlt => exact .followed _ rfl (Nat.le_of_lt hlt) rfl fun hne => hne
  | adoptedGranted _ hlt => exact .followed _ rfl (Nat.le_of_lt hlt) rfl fun hne => hne

theorem AppendEntriesOutcome.role {r' : Raft σ} {args : AppendEntriesArgs}
    {reply : AppendEntriesReply} (h : AppendEntriesOutcome (s.nodes i) args r' reply) :
    RoleStep C s ev s' i r' := by
  have hpeers : ∀ (b : Bool) (r : Raft σ), (r.persistIf b).peers = r.peers := fun b r => by
    cases b <;> rfl
  cases h with
  | stale => exact .same
  -- whatever the outcome, the node follows afterwards, in a term that is not lower
  | rejected _ hle =>
    refine .followed _ (persistIf_state _ _) ?_ (hpeers _ _) ?_
    · rw [persistIf_currentTerm]
      exact hle
    · rw [persistIf_log]
      exact fun hne => hne
  | accepted _ hle =>
    refine .followed _ (persistIf_state _ _) ?_ (hpeers _ _) ?_
    · rw [persistIf_currentTerm]
      exact hle
    · rw [persistIf_log]
      exact fun hne => mergeEntries_ne_nil hne _ _

theorem VoteReplyOutcome.role {r' : Raft σ} {term votes votes' : Nat} {reply : RequestVoteReply}
    (h : VoteReplyOutcome (s.nodes i) term votes reply r' votes') : RoleStep C s ev s' i r' := by
  cases h with
  | ignored | counted => exact .same
  | steppedDown _ _ hlt => exact .followed _ rfl (Nat.le_of_lt hlt) rfl fun hne => hne
  | elected hcand => exact .elected hcand

theorem step_role (h : step C s ev = some s') (i : NodeID) :
    RoleStep C s ev s' i (s'.nodes i) := by
  cases ev <;> simp only [step, Option.bind_eq_bind, Option.bind_eq_some_iff,
    Option.guard_eq_some', Option.some.injEq] at h
  case startElection j =>
    obtain ⟨_, _, rfl⟩ := h
    exact roleStep_update (.stood rfl)
  -- a command is taken by a leader only
  case start j command =>
    obtain ⟨_, _, rfl⟩ := h
    refine roleStep_update ?_
    unfold Raft.start
    split_ifs with hl
    · exact .same
    · exact .extended command (not_not.mp hl)
  case replicateTo j peer =>
    obtain ⟨_, _, _, _, rfl⟩ := h
    exact .same
  case deliverVote k =>
    obtain ⟨c, _, rfl⟩ := h
    exact roleStep_update (requestVote_outcome _ _).role
  case deliverAppend k =>
    obtain ⟨c, _, rfl⟩ := h
    exact roleStep_update (appendEntries_outcome _ _).role
  case voteReply m =>
    obtain ⟨⟨k, reply⟩, _, c, _, e, _, _, _, rfl⟩ := h
    exact roleStep_update (startElectionReply_outcome _ _ _ _).role
  -- an answer to an append is kept with its call, for the proofs about the indices
  case appendReply m =>
    obtain ⟨⟨k, reply⟩, hm, c, hc, _, hopen, rfl⟩ := h
    exact roleStep_update (.replied m k c reply rfl hm hc hopen rfl)
  case apply j =>
    obtain ⟨_, _, ⟨r, msg⟩, hr, rfl⟩ := h
    obtain ⟨_, rfl, _⟩ := applyLoop_eq_some hr
    exact roleStep_update (.kept _ _ _)
  -- a restart closes the calls of the node
  case restart j =>
    obtain ⟨_, _, rfl⟩ := h
    refine roleStep_update (.restarted (fun k c hc hj => ?_) fun k c hc hj => ?_) <;> simp [hc, hj]

end Roles

/-! ## The invariant -/

/-- What is known of a node and the arguments of a call it made and still waits for. -/
structure OwnCall (r : Raft σ) (args : AppendEntriesArgs) : Prop where
  term_le : args.term ≤ r.currentTerm
  /-- A candidate has not led its term yet. -/
  candidate : r.state = .candidate → args.term < r.currentTerm
  /-- What the call carried is still in the log. -/
  reach : r.state = .leader → r.currentTerm = args.term →
    args.prevLogIndex + args.entries.length < r.log.length

/-- A leader records no index outside its log. -/
structure Recorded (r : Raft σ) : Prop where
  log_ne : r.log ≠ []
  nextIndex : r.state = .leader → ∀ p, r.nextIndex p ≤ r.log.length
  matchIndex : r.state = .leader → ∀ p, r.matchIndex p < r.log.length

/-- The invariant of leaders and their calls. -/
structure Leading (C : Cluster) (s : System σ) : Prop where
  peers : ∀ i ∈ C.ids, (s.nodes i).peers = C.peers i
  node : ∀ i ∈ C.ids, Recorded (s.nodes i)
  caller : ∀ c ∈ s.appendCalls, c.caller ∈ C.ids ∧ c.callee ∈ C.peers c.caller
  openCall : ∀ k c, s.appendCalls[k]? = some c → s.appendOpen k = true →
    OwnCall (s.nodes c.caller) c.args
  reply : ∀ k reply, (k, reply) ∈ s.appendReplies →
    ∃ c, s.appendCalls[k]? = some c ∧ reply.conflictIndex ≤ c.args.prevLogIndex

section Steps

variable {C : Cluster} {s s' : System σ} {ev : Event} {i : NodeID} {r' : Raft σ}

theorem Leading.step_peers (hl : Leading C s) (h : step C s ev = some s') :
    ∀ i ∈ C.ids, (s'.nodes i).peers = C.peers i := by
  intro i hi
  have hold := hl.peers i hi
  have hrole := step_role h i
  generalize s'.nodes i = r' at hrole
  cases hrole with
  | kept | stood | elected | extended => exact hold
  -- no answer changes the peers
  | replied m k call reply =>
    have hout := replicateToReply_outcome (s.nodes i) call.callee call.args reply
    generalize (s.nodes i).replicateToReply call.callee call.args reply = r' at hout
    cases hout with
    | ignored | steppedDown | matched | backedUp => exact hold
  | followed _ _ _ hpeers => exact hpeers.trans hold
  | restarted => rw [new_eq]

/-- What is recorded stays inside the log. -/
theorem Leading.step_node (hl : Leading C s) (h : step C s ev = some s') :
    ∀ i ∈ C.ids, Recorded (s'.nodes i) := by
  intro i hi
  have hold := hl.node i hi
  have hrole := step_role h i
  generalize s'.nodes i = r' at hrole
  have hpos : 0 < (s.nodes i).log.length := List.length_pos_iff.mpr hold.log_ne
  cases hrole with
  | kept => exact { hold with }
  -- a follower has nothing recorded to look after
  | followed _ hst _ _ hne =>
    have hnot : r'.state ≠ .leader := by rw [hst]; decide
    exact ⟨hne hold.log_ne, fun hlead => absurd hlead hnot, fun hlead => absurd hlead hnot⟩
  | stood => exact ⟨hold.log_ne, nofun, nofun⟩
  | elected =>
    -- a new leader starts behind its last entry and knows nothing of its peers
    refine ⟨hold.log_ne, fun _ p => ?_, fun _ _ => hpos⟩
    simp only [asLeader, lastIndexLocked]
    split_ifs <;> omega
  -- the log grows and the indices stay
  | extended command hlead =>
    have hlen : ((s.nodes i).extendLog command).log.length = (s.nodes i).log.length + 1 :=
      List.length_append
    refine ⟨List.length_pos_iff.mp (by rw [hlen]; omega), fun _ p => ?_, fun _ p => ?_⟩
    · rw [hlen]
      exact Nat.le_succ_of_le (hold.nextIndex hlead p)
    · rw [hlen]
      exact Nat.lt_succ_of_lt (hold.matchIndex hlead p)
  -- the answer moves the two indices of one peer
  | replied m k call reply _ hm hc hopen hcaller =>
    subst hcaller
    have hout := replicateToReply_outcome (s.nodes call.caller) call.callee call.args reply
    generalize (s.nodes call.caller).replicateToReply call.callee call.args reply = r' at hout
    cases hout with
    | ignored => exact hold
    | steppedDown => exact ⟨hold.log_ne, nofun, nofun⟩
    | matched hcounts =>
      -- what was acknowledged was sent in this term
      obtain ⟨hlead, hterm, _⟩ := hcounts
      have hreach := (hl.openCall k call hc hopen).reach hlead hterm
      exact ⟨hold.log_ne, fun _ => update_le hreach (hold.nextIndex hlead),
        fun _ => update_lt hreach (hold.matchIndex hlead)⟩
    -- the leader backs up to an index of the request, which it sent itself
    | backedUp hcounts =>
      obtain ⟨hlead, hterm, _⟩ := hcounts
      obtain ⟨call', hc', hconf⟩ := hl.reply k reply (List.mem_of_getElem? hm)
      obtain rfl : call = call' := Option.some.inj (hc.symm.trans hc')
      have hreach := (hl.openCall k call hc hopen).reach hlead hterm
      have hnext := hold.nextIndex hlead call.callee
      have hle : (s.nodes call.caller).backUp call.callee reply ≤
          (s.nodes call.caller).log.length := by
        unfold backUp
        split_ifs <;> omega
      exact ⟨hold.log_ne, fun _ => update_le hle (hold.nextIndex hlead), hold.matchIndex⟩
  | restarted => exact ⟨log_new_ne _ _ _, by simp [new_eq], by simp [new_eq]⟩

/-- What is known of an open call stays known; a restart of the caller closes it. -/
theorem OwnCall.role {k : Nat} {c : AppendCall} (h : OwnCall (s.nodes c.caller) c.args)
    (hrole : RoleStep C s ev s' c.caller r') (hc : s.appendCalls[k]? = some c)
    (hopen : s'.appendOpen k = true) : OwnCall r' c.args := by
  have hle := h.term_le
  cases hrole with
  | kept => exact { h with }
  | followed _ hst hterm =>
    have hcand : r'.state ≠ .candidate := by rw [hst]; decide
    have hlead : r'.state ≠ .leader := by rw [hst]; decide
    exact ⟨Nat.le_trans hle hterm, fun hc => absurd hc hcand, fun hc => absurd hc hlead⟩
  | stood => exact ⟨Nat.le_succ_of_le hle, fun _ => Nat.lt_succ_of_le hle, nofun⟩
  -- the call is from an earlier term, since a candidate has sent nothing in its own
  | elected hcand =>
    have hlt := h.candidate hcand
    exact ⟨hle, nofun, fun _ heq => absurd heq (Nat.ne_of_gt hlt)⟩
  | extended command hlead =>
    refine ⟨hle, fun hc => ?_, fun _ heq => ?_⟩
    · exact absurd (hlead.symm.trans hc) (by decide)
    · refine Nat.lt_of_lt_of_le (h.reach hlead heq) ?_
      show _ ≤ ((s.nodes c.caller).log ++ _).length
      rw [List.length_append]
      exact Nat.le_add_right _ _
  | replied m k call reply =>
    have hout := replicateToReply_outcome (s.nodes c.caller) call.callee call.args reply
    generalize (s.nodes c.caller).replicateToReply call.callee call.args reply = r' at hout
    cases hout with
    | ignored => exact h
    | steppedDown _ _ hlt => exact ⟨Nat.le_trans hle (Nat.le_of_lt hlt), nofun, nofun⟩
    | matched => exact { h with }
    | backedUp => exact { h with }
  -- a restarted node waits for no answer
  | restarted hclosed =>
    rw [hclosed k c hc rfl] at hopen
    cases hopen

omit [Storage σ] in
/-- What a leader sends ends with its log. -/
theorem ownCall_sendFrom {r : Raft σ} (hr : Recorded r) (hlead : r.state = .leader) (p : NodeID) :
    OwnCall r (r.sendFrom (max 1 (r.nextIndex p))) := by
  have hpos : 0 < r.log.length := List.length_pos_iff.mpr hr.log_ne
  have hnext := hr.nextIndex hlead p
  refine ⟨Nat.le_refl _, fun hc => absurd (hlead.symm.trans hc) (by decide), fun _ _ => ?_⟩
  simp only [sendFrom, List.length_drop]
  omega

/-- No call is opened again. -/
theorem appendOpen_of_step (h : step C s ev = some s') {k : Nat}
    (hopen : s'.appendOpen k = true) : s.appendOpen k = true := by
  obtain ⟨_, h⟩ := step_transition h
  cases h with
  | appendReply j =>
    by_cases hk : k = j
    · simp [hk] at hopen
    · simpa [System.setNode, Function.update_of_ne hk] using hopen
  | restart => exact (Bool.and_eq_true_iff.mp hopen).1
  | _ => exact hopen

theorem Leading.step_openCall (hl : Leading C s) (h : step C s ev = some s') :
    ∀ k c, s'.appendCalls[k]? = some c → s'.appendOpen k = true →
      OwnCall (s'.nodes c.caller) c.args := by
  intro k c hc hopen
  have hold : s.appendCalls[k]? = some c → OwnCall (s'.nodes c.caller) c.args := fun hc =>
    (hl.openCall k c hc (appendOpen_of_step h hopen)).role (step_role h c.caller) hc hopen
  obtain ⟨_, h⟩ := step_transition h
  cases h with
  -- a new call is sent from the log of its leader
  | replicateTo i peer hi _ hlead =>
    rw [List.getElem?_append] at hc
    split_ifs at hc with hlt
    · exact hold hc
    · obtain rfl := List.mem_singleton.mp (List.mem_of_getElem? hc)
      exact ownCall_sendFrom (hl.node i hi) hlead peer
  | _ => exact hold hc

theorem Leading.step_caller (hl : Leading C s) (h : step C s ev = some s') :
    ∀ c ∈ s'.appendCalls, c.caller ∈ C.ids ∧ c.callee ∈ C.peers c.caller := by
  intro c hc
  obtain ⟨_, h⟩ := step_transition h
  cases h with
  | replicateTo i peer hi hp =>
    rcases List.mem_append.mp hc with hc | hc
    · exact hl.caller c hc
    · obtain rfl := List.mem_singleton.mp hc
      exact ⟨hi, hl.peers i hi ▸ hp⟩
  | _ => exact hl.caller c hc

theorem Leading.step_reply (hl : Leading C s) (h : step C s ev = some s') :
    ∀ k reply, (k, reply) ∈ s'.appendReplies →
      ∃ c, s'.appendCalls[k]? = some c ∧ reply.conflictIndex ≤ c.args.prevLogIndex := by
  intro k reply hmem
  obtain ⟨_, h⟩ := step_transition h
  have hold : (k, reply) ∈ s.appendReplies → ∃ c, s'.appendCalls[k]? = some c ∧
      reply.conflictIndex ≤ c.args.prevLogIndex := fun hm => by
    obtain ⟨c, hc, hconf⟩ := hl.reply k reply hm
    exact ⟨c, getElem?_mono h.appendCalls_mono hc, hconf⟩
  -- only an append that is handled adds a reply
  cases h with
  | deliverAppend k' c r reply' hc hr =>
    rcases List.mem_append.mp hmem with hm | hm
    · exact hold hm
    · obtain ⟨rfl, rfl⟩ := Prod.mk.inj (List.mem_singleton.mp hm)
      exact ⟨c, hc, hr.conflictIndex_le⟩
  | _ => exact hold hmem

/-- **Step lemma.** -/
theorem Leading.step (hl : Leading C s) (h : step C s ev = some s') : Leading C s' where
  peers := hl.step_peers h
  node := hl.step_node h
  caller := hl.step_caller h
  openCall := hl.step_openCall h
  reply := hl.step_reply h

theorem leading_init (C : Cluster) (storages : NodeID → σ) :
    Leading C (System.init C storages) where
  peers i _ := by simp [System.init, new_eq]
  node i _ := ⟨log_new_ne _ _ _, by simp [System.init, new_eq], by simp [System.init, new_eq]⟩
  caller := by simp [System.init]
  openCall := by simp [System.init]
  reply := by simp [System.init]

end Steps

/-! ## Progress -/

/-- While a node leads a term, what it knows of its peers only grows, and it sends from behind
    what it knows and from no further than the end of its log. -/
structure ProgressKept (C : Cluster) (s s' : System σ) : Prop where
  monotone : ∀ i ∈ C.ids, (s.nodes i).state = .leader → (s'.nodes i).state = .leader →
    (s'.nodes i).currentTerm = (s.nodes i).currentTerm →
    ∀ p ∈ C.peers i, (s.nodes i).matchIndex p ≤ (s'.nodes i).matchIndex p
  ordered : ∀ i ∈ C.ids, (s'.nodes i).state = .leader → ∀ p ∈ C.peers i,
    (s'.nodes i).matchIndex p < (s'.nodes i).nextIndex p ∧
      (s'.nodes i).nextIndex p ≤ (s'.nodes i).lastIndexLocked + 1

/-- A reply does not fall behind what the leader knows of the peer already: a success reaches
    at least as far, and a rejection leads to an index behind it. -/
def UpToDate (r : Raft σ) (peer : NodeID) (args : AppendEntriesArgs) (reply : AppendEntriesReply) :
    Prop :=
  Counts r args reply →
    if reply.success then r.matchIndex peer ≤ args.prevLogIndex + args.entries.length
    else if reply.conflictIndex > 0 then r.matchIndex peer < reply.conflictIndex
    else r.nextIndex peer > 1 → r.matchIndex peer + 1 < r.nextIndex peer

instance (r : Raft σ) (peer : NodeID) (args : AppendEntriesArgs) (reply : AppendEntriesReply) :
    Decidable (UpToDate r peer args reply) := by
  unfold UpToDate
  infer_instance

/-- No reply is handled that falls behind. -/
def Timely (s : System σ) : Event → Prop
  | .appendReply m => ∀ x ∈ s.appendReplies[m]?, ∀ c ∈ s.appendCalls[x.1]?,
      UpToDate (s.nodes c.caller) c.callee c.args x.2
  | _ => True

instance (s : System σ) (ev : Event) : Decidable (Timely s ev) := by
  cases ev <;> unfold Timely <;> infer_instance

/-- Leaders send from behind what they know. -/
def Ahead (C : Cluster) (s : System σ) : Prop :=
  ∀ i ∈ C.ids, (s.nodes i).state = .leader → ∀ p ∈ C.peers i,
    (s.nodes i).matchIndex p < (s.nodes i).nextIndex p

section Progress

variable {C : Cluster} {s s' : System σ} {ev : Event} {i : NodeID}

omit [Storage σ] in
/-- A reply that counts and does not fall behind keeps the order and loses nothing. -/
theorem UpToDate.kept {r r' : Raft σ} {peer p : NodeID} {args : AppendEntriesArgs}
    {reply : AppendEntriesReply} (hup : UpToDate r peer args reply)
    (hout : AppendReplyOutcome r peer args reply r') (hlead : r'.state = .leader)
    (hahead : r.matchIndex p < r.nextIndex p) :
    r'.matchIndex p < r'.nextIndex p ∧ r.matchIndex p ≤ r'.matchIndex p := by
  cases hout with
  | ignored => exact ⟨hahead, Nat.le_refl _⟩
  | steppedDown => cases hlead
  -- the match index moves up, and the next index goes right behind it
  | matched hcounts hsucc =>
    have hle := hup hcounts
    rw [if_pos hsucc] at hle
    by_cases hp : p = peer
    · subst hp
      simp only [recordMatch, advanceCommitLocked, Function.update_self]
      exact ⟨Nat.lt_succ_self _, hle⟩
    · simp only [recordMatch, advanceCommitLocked, Function.update_of_ne hp]
      exact ⟨hahead, Nat.le_refl _⟩
  -- the next index moves down, and not below what is matched
  | backedUp hcounts hsucc =>
    have hlt := hup hcounts
    rw [if_neg (by simp [hsucc])] at hlt
    refine ⟨?_, Nat.le_refl _⟩
    show r.matchIndex p < Function.update r.nextIndex peer (r.backUp peer reply) p
    by_cases hp : p = peer
    · subst hp
      rw [Function.update_self]
      unfold backUp
      split_ifs at hlt ⊢ with hconf hnext
      · exact hlt
      · have := hlt hnext
        omega
      · exact hahead
    · rw [Function.update_of_ne hp]
      exact hahead

/-- **Step lemma.** -/
theorem Leading.progress (hl : Leading C s) (hahead : Ahead C s) (h : Raft.step C s ev = some s')
    (hev : Timely s ev) : Ahead C s' ∧ ProgressKept C s s' := by
  have hnode : ∀ i ∈ C.ids, (s'.nodes i).state = .leader → ∀ p ∈ C.peers i,
      (s'.nodes i).matchIndex p < (s'.nodes i).nextIndex p ∧
        ((s.nodes i).state = .leader → (s.nodes i).matchIndex p ≤ (s'.nodes i).matchIndex p) := by
    intro i hi hlead p hp
    have hpeers := hl.peers i hi
    have hold := hahead i hi
    have hrole := step_role h i
    generalize s'.nodes i = r' at hrole hlead
    cases hrole with
    | kept => exact ⟨hold hlead p hp, fun _ => Nat.le_refl _⟩
    | followed _ hst =>
      rw [hst] at hlead
      cases hlead
    | stood => cases hlead
    | elected hcand =>
      -- a new leader sends what follows its last entry
      refine ⟨?_, fun hl => absurd (hcand.symm.trans hl) (by decide)⟩
      simp only [asLeader, hpeers, if_pos hp]
      omega
    | extended command hlead => exact ⟨hold hlead p hp, fun _ => Nat.le_refl _⟩
    | replied m k call reply hm hreply hc _ hcaller =>
      subst hm hcaller
      have hout := replicateToReply_outcome (s.nodes call.caller) call.callee call.args reply
      -- only a leader can lead after an answer
      have hwas : (s.nodes call.caller).state = .leader := by
        by_contra hnot
        generalize (s.nodes call.caller).replicateToReply call.callee call.args reply = r'
          at hout hlead
        cases hout with
        | ignored => exact hnot hlead
        | steppedDown => cases hlead
        | matched hcounts | backedUp hcounts => exact hnot hcounts.1
      have hkept := (hev (k, reply) hreply call hc).kept hout hlead (hold hwas p hp)
      exact ⟨hkept.1, fun _ => hkept.2⟩
    | restarted =>
      rw [new_eq] at hlead
      cases hlead
  refine ⟨fun i hi hlead p hp => (hnode i hi hlead p hp).1, fun i hi hlead hlead' _ p hp =>
    (hnode i hi hlead' p hp).2 hlead, fun i hi hlead p hp => ⟨(hnode i hi hlead p hp).1, ?_⟩⟩
  have hr := hl.step_node h i hi
  have hpos : 0 < (s'.nodes i).log.length := List.length_pos_iff.mpr hr.log_ne
  have := hr.nextIndex hlead p
  simp only [lastIndexLocked]
  omega

omit [Storage σ] in
/-- A reply that falls behind takes back what was known or what was to be sent. -/
theorem UpToDate.lost {r r' : Raft σ} {peer : NodeID} {args : AppendEntriesArgs}
    {reply : AppendEntriesReply} (hnot : ¬UpToDate r peer args reply)
    (hout : AppendReplyOutcome r peer args reply r') :
    r.state = .leader ∧ r'.state = .leader ∧ r'.currentTerm = r.currentTerm ∧
      (r'.matchIndex peer < r.matchIndex peer ∨ r'.nextIndex peer ≤ r'.matchIndex peer) := by
  obtain ⟨hcounts, hbehind⟩ := Classical.not_imp.mp hnot
  cases hout with
  | ignored hn => exact absurd hcounts hn
  | steppedDown _ _ hlt => exact absurd hcounts.2.2 (Nat.not_le.mpr hlt)
  -- the answer is older than what is matched already
  | matched _ hsucc =>
    rw [if_pos hsucc, Nat.not_le] at hbehind
    refine ⟨hcounts.1, hcounts.1, rfl, Or.inl ?_⟩
    simpa only [recordMatch, advanceCommitLocked, Function.update_self] using hbehind
  -- the leader backs up below what is matched
  | backedUp _ hsucc =>
    rw [if_neg (by simp [hsucc])] at hbehind
    refine ⟨hcounts.1, hcounts.1, rfl, Or.inr ?_⟩
    show Function.update r.nextIndex peer (r.backUp peer reply) peer ≤ r.matchIndex peer
    rw [Function.update_self]
    unfold backUp
    split_ifs at hbehind ⊢ with hconf hnext
    · exact Nat.le_of_not_lt hbehind
    · simp only [hnext, forall_const, Nat.not_lt] at hbehind
      omega
    · exact absurd (fun h => absurd h hnext) hbehind

theorem Leading.progress_lost (hl : Leading C s) (h : Raft.step C s ev = some s')
    (hev : ¬Timely s ev) : ¬ProgressKept C s s' := by
  intro hkept
  -- only an answer can be out of date
  cases ev with
  | appendReply m =>
    simp only [Timely, not_forall] at hev
    obtain ⟨⟨k, reply⟩, hm, c, hc, hnot⟩ := hev
    simp only [Raft.step, Option.bind_eq_bind, Option.bind_eq_some_iff, Option.guard_eq_some',
      Option.some.injEq] at h
    obtain ⟨⟨k', reply'⟩, hm', c', hc', _, _, rfl⟩ := h
    obtain ⟨rfl, rfl⟩ := Prod.mk.inj (Option.some.inj (hm'.symm.trans hm))
    obtain rfl := Option.some.inj (hc'.symm.trans hc)
    obtain ⟨hi, hp⟩ := hl.caller c' (List.mem_of_getElem? hc)
    have hnot : ¬UpToDate (s.nodes c'.caller) c'.callee c'.args reply' := hnot
    obtain ⟨hlead, hlead', hterm, hless⟩ := UpToDate.lost hnot (replicateToReply_outcome _ _ _ _)
    have hmono := hkept.monotone c'.caller hi hlead
    have hord := hkept.ordered c'.caller hi
    simp only [System.setNode, Function.update_self] at hmono hord
    have := hmono hlead' hterm c'.callee hp
    have := (hord hlead' c'.callee hp).1
    omega
  | startElection | start | replicateTo | deliverVote | deliverAppend | voteReply | apply
  | restart => exact hev trivial

end Progress

/-- **Progress is monotone exactly without late replies.**  In a run of a cluster, whatever its
    storages do, every step keeps the progress of every leader if and only if no reply is
    handled that falls behind what its leader knows of the peer. -/
theorem progress_iff (C : Cluster) (storages : NodeID → σ) (es : List Event) {s : System σ}
    (hrun : Reaches C storages es s) :
    (∀ es₁ e s₁ s₂, es₁ ++ [e] <+: es → Reaches C storages es₁ s₁ → step C s₁ e = some s₂ →
      ProgressKept C s₁ s₂) ↔
      Along (step C) Timely (System.init C storages) es := by
  refine run_steps_iff (F := fun _ _ => True) (I := fun t => Leading C t ∧ Ahead C t)
    (R := fun t _ t' => ProgressKept C t t') ?_ ?_ ⟨leading_init C storages, ?_⟩
    (along_of_forall (P := fun _ => True) fun _ _ => trivial) hrun
  · -- one step of a timely run keeps the progress; a late answer loses it
    rintro t e t' ⟨hl, hahead⟩ - hev hstep
    obtain ⟨hahead', hkept⟩ := hl.progress hahead hstep hev
    exact ⟨⟨hl.step hstep, hahead'⟩, hkept⟩
  · exact fun t e t' hI _ hev hstep => hI.1.progress_lost hstep hev
  · -- nobody leads yet
    intro i _ hlead
    simp only [System.init, new_eq] at hlead
    cases hlead

/-- Node 0 leads term 1 and sends a heartbeat to node 1, then an entry; both are delivered. -/
def twoCalls : List Event :=
  [.startElection 0, .deliverVote 0, .voteReply 0, .replicateTo 0 1, .start 0 [7],
    .replicateTo 0 1, .deliverAppend 0, .deliverAppend 1]

/-- Handle one reply after `twoCalls`, then another: role, term and what node 0 knows of node 1
    before and after the second. -/
def handleReplies (m m' : Nat) : Option ((State × Nat × Nat) × State × Nat × Nat) := do
  let s ← run (step threeNodes) (System.init threeNodes fun _ => newMemoryStorage)
    (twoCalls ++ [.appendReply m])
  let s' ← step threeNodes s (.appendReply m')
  some (((s.nodes 0).state, (s.nodes 0).currentTerm, (s.nodes 0).matchIndex 1),
    (s'.nodes 0).state, (s'.nodes 0).currentTerm, (s'.nodes 0).matchIndex 1)

theorem handleReplies_eq_some {m m' : Nat} {a b : State × Nat × Nat}
    (h : handleReplies m m' = some (a, b)) : ∃ s s',
      Reaches threeNodes (fun _ => newMemoryStorage) (twoCalls ++ [.appendReply m]) s ∧
        step threeNodes s (.appendReply m') = some s' ∧
        ((s.nodes 0).state, (s.nodes 0).currentTerm, (s.nodes 0).matchIndex 1) = a ∧
        ((s'.nodes 0).state, (s'.nodes 0).currentTerm, (s'.nodes 0).matchIndex 1) = b := by
  simp only [handleReplies, Option.bind_eq_bind, Option.bind_eq_some_iff, Option.some.injEq,
    Prod.mk.injEq] at h
  obtain ⟨s, hs, s', hs', ha, hb⟩ := h
  exact ⟨s, s', hs, hs', ha, hb⟩

/-- When the replies are handled in order, node 0 first knows nothing new and then index 1. -/
theorem progress_inOrder : ∃ s s',
    Reaches threeNodes (fun _ => newMemoryStorage) (twoCalls ++ [.appendReply 0]) s ∧
      step threeNodes s (.appendReply 1) = some s' ∧ (s'.nodes 0).matchIndex 1 = 1 ∧
      (s.nodes 0).matchIndex 1 ≤ (s'.nodes 0).matchIndex 1 ∧
      (s'.nodes 0).matchIndex 1 < (s'.nodes 0).nextIndex 1 := by
  -- the answers arrive in the order of the calls
  have htimely : Along (step threeNodes) Timely (System.init threeNodes fun _ => newMemoryStorage)
      (twoCalls ++ [.appendReply 0] ++ [.appendReply 1]) := by decide
  obtain ⟨s, s', hs, hs', ha, hb⟩ := handleReplies_eq_some
    (show handleReplies 0 1 = some ((.leader, 1, 0), .leader, 1, 1) by decide)
  simp only [Prod.mk.injEq] at ha hb
  have hkept := (progress_iff threeNodes _ _ (run_concat hs hs')).mpr htimely _ _ s s'
    List.prefix_rfl hs hs'
  exact ⟨s, s', hs, hs', hb.2.2, hkept.monotone 0 (by decide) ha.1 hb.1 (hb.2.1.trans ha.2.1.symm)
    1 (by decide), (hkept.ordered 0 (by decide) hb.1 1 (by decide)).1⟩

/-- When the reply to the heartbeat is handled last, node 0 forgets that node 1 holds index 1. -/
theorem progress_lost_reordered : ∃ s s',
    Reaches threeNodes (fun _ => newMemoryStorage) (twoCalls ++ [.appendReply 1]) s ∧
      step threeNodes s (.appendReply 0) = some s' ∧ (s.nodes 0).state = .leader ∧
      (s'.nodes 0).state = .leader ∧ (s'.nodes 0).currentTerm = (s.nodes 0).currentTerm ∧
      (s.nodes 0).matchIndex 1 = 1 ∧ (s'.nodes 0).matchIndex 1 = 0 := by
  obtain ⟨s, s', hs, hs', ha, hb⟩ := handleReplies_eq_some
    (show handleReplies 1 0 = some ((.leader, 1, 1), .leader, 1, 0) by decide)
  simp only [Prod.mk.injEq] at ha hb
  exact ⟨s, s', hs, hs', ha.1, hb.1, hb.2.1.trans ha.2.1.symm, ha.2.2, hb.2.2⟩

end EventLog.Raft
