import EventLog.Raft.Leading

/-!
# Majorities take effect

Both thresholds are tested only where a reply is handled: a vote that completes a majority
makes the candidate a leader, and an acknowledgement that completes one moves the commit
index.  Every other step that changes a counter, an index, the log or the term has to leave
the thresholds unreached.

A node without peers gets no replies.  Its own vote is a majority and it stays a candidate
(`lone_candidate`); with at least one peer majorities always take effect
(`majorities_iff`).
-/

namespace EventLog.Raft

open EventLog.Lib

variable {σ : Type}

/-! ## The property -/

/-- The election `n` is the last one node `i` started. -/
structure LastElection (s : System σ) (i : NodeID) (n : Nat) (e : Election) : Prop where
  get : s.elections[n]? = some e
  candidate : e.candidate = i
  last : ∀ m e', s.elections[m]? = some e' → e'.candidate = i → m ≤ n

/-- No candidate has a majority in its election, and no leader has a majority for an entry of
    its term that it has not committed. -/
structure MajoritiesCount (C : Cluster) (s : System σ) : Prop where
  votes : ∀ i ∈ C.ids, ∀ n e, LastElection s i n e → (s.nodes i).majority ≤ e.votes →
    ¬((s.nodes i).state = .candidate ∧ (s.nodes i).currentTerm = e.term)
  commit : ∀ i ∈ C.ids, (s.nodes i).state = .leader → ∀ n < (s.nodes i).log.length,
    termAt (s.nodes i).log n = (s.nodes i).currentTerm →
    (s.nodes i).majority ≤ (s.nodes i).replicaCount n → n ≤ (s.nodes i).commitIndex

/-! ## The loop of `advanceCommitLocked` -/

/-- The loop passes over no index of the current term that a majority holds. -/
theorem le_advanceCommitLoop (r : Raft σ) {n m : Nat} (hle : n ≤ m)
    (hterm : termAt r.log n = r.currentTerm) (hmaj : r.majority ≤ r.replicaCount n) :
    n ≤ r.advanceCommitLoop m := by
  -- the loop counts down from `m` and stops at the first index that qualifies
  induction m with
  | zero => exact Nat.le_trans hle (Nat.zero_le _)
  | succ m ih =>
    unfold advanceCommitLoop
    split_ifs with hgt hother hcount
    · -- an index of another term is not the one we look for
      refine ih (Nat.le_of_lt_succ (Nat.lt_of_le_of_ne hle ?_))
      rintro rfl
      exact hother hterm
    · exact hle
    · -- no more does an index without a majority
      refine ih (Nat.le_of_lt_succ (Nat.lt_of_le_of_ne hle ?_))
      rintro rfl
      exact hcount hmaj
    · omega

/-- An index no peer is known to hold is held by the leader alone. -/
theorem replicaCount_eq_one {r : Raft σ} {n : Nat} (h : ∀ p, r.matchIndex p < n) :
    r.replicaCount n = 1 := by
  have hnone : r.peers.filter (fun p => r.matchIndex p ≥ n) = [] :=
    List.filter_eq_nil_iff.mpr fun p _ => by simpa using h p
  rw [replicaCount, hnone]
  rfl

/-! ## The invariant -/

/-- Whoever stood for election has peers, and votes are counted for their candidate. -/
structure Standing (C : Cluster) (s : System σ) : Prop where
  peers : ∀ i ∈ C.ids, (s.nodes i).state ≠ .follower → C.peers i ≠ []
  call : ∀ c ∈ s.voteCalls, ∃ e, s.elections[c.election]? = some e ∧ e.candidate = c.caller

/-- Only nodes with peers start elections. -/
def HasPeers (C : Cluster) : Event → Prop
  | .startElection i => C.peers i ≠ []
  | _ => True

section Steps

variable [Storage σ] {C : Cluster} {s s' : System σ} {ev : Event} {i : NodeID}

/-- An election keeps its index and its candidate. -/
theorem election_kept (hstep : step C s ev = some s') {n : Nat} {e : Election}
    (hn : s.elections[n]? = some e) :
    ∃ e', s'.elections[n]? = some e' ∧ e'.candidate = e.candidate := by
  obtain ⟨_, htrans⟩ := step_transition hstep
  cases htrans with
  | startElection => exact ⟨e, getElem?_mono (List.prefix_append _ _) hn, rfl⟩
  -- counting a vote changes the number, not the candidate
  | voteReply k reply c d r votes _ _ hd =>
    by_cases heq : c.election = n
    · subst heq
      obtain rfl : d = e := Option.some.inj (hd.symm.trans hn)
      exact ⟨_, List.getElem?_set_self (List.getElem?_eq_some_iff.mp hn).1, rfl⟩
    · exact ⟨e, by rw [List.getElem?_set_ne heq, hn], rfl⟩
  | _ => exact ⟨e, hn, rfl⟩

/-- Where the counters come from. -/
inductive Tally (s : System σ) (ev : Event) (s' : System σ) (n : Nat) : Election → Prop where
  | kept (e) : s.elections[n]? = some e → Tally s ev s' n e
  /-- An election starts with the candidate's own vote. -/
  | started (j) : ev = .startElection j → n = s.elections.length →
      Tally s ev s' n ⟨j, (s.nodes j).currentTerm + 1, 1⟩
  /-- A reply changes the counter of its own election. -/
  | replied (c e reply votes) : c ∈ s.voteCalls → c.election = n → s.elections[n]? = some e →
      VoteReplyOutcome (s.nodes c.caller) c.args.term e.votes reply (s'.nodes c.caller) votes →
      Tally s ev s' n { e with votes := votes }

theorem step_tally (hstep : step C s ev = some s') {n : Nat} {e : Election}
    (hn : s'.elections[n]? = some e) : Tally s ev s' n e := by
  cases ev <;> simp only [step, Option.bind_eq_bind, Option.bind_eq_some_iff,
    Option.guard_eq_some', Option.some.injEq] at hstep
  case startElection j =>
    obtain ⟨_, _, rfl⟩ := hstep
    -- the new election is the last of the list
    rw [List.getElem?_append] at hn
    split_ifs at hn with hlt
    · exact .kept e hn
    · have hlen : n = s.elections.length := by
        have := (List.getElem?_eq_some_iff.mp hn).1
        simp only [List.length_singleton] at this
        omega
      obtain rfl := List.mem_singleton.mp (List.mem_of_getElem? hn)
      exact .started j rfl hlen
  case voteReply m =>
    obtain ⟨⟨k, reply⟩, _, c, hc, d, hd, _, _, rfl⟩ := hstep
    simp only at hn
    -- the election the reply belongs to, or another one
    by_cases heq : c.election = n
    · subst heq
      rw [List.getElem?_set_self (List.getElem?_eq_some_iff.mp hd).1] at hn
      obtain rfl := Option.some.inj hn
      refine .replied c d reply _ (List.mem_of_getElem? hc) rfl hd ?_
      simp only [System.setNode, Function.update_self]
      exact startElectionReply_outcome _ _ _ _
    · rw [List.getElem?_set_ne heq] at hn
      exact .kept e hn
  case start j command =>
    obtain ⟨_, _, rfl⟩ := hstep
    exact .kept e hn
  case replicateTo j peer =>
    obtain ⟨_, _, _, _, rfl⟩ := hstep
    exact .kept e hn
  case deliverVote k =>
    obtain ⟨c, _, rfl⟩ := hstep
    exact .kept e hn
  case deliverAppend k =>
    obtain ⟨c, _, rfl⟩ := hstep
    exact .kept e hn
  case appendReply m =>
    obtain ⟨_, _, c, _, _, _, rfl⟩ := hstep
    exact .kept e hn
  case apply j =>
    obtain ⟨_, _, _, _, rfl⟩ := hstep
    exact .kept e hn
  case restart j =>
    obtain ⟨_, _, rfl⟩ := hstep
    exact .kept e hn

theorem Standing.step (h : Standing C s) (hev : HasPeers C ev)
    (hstep : Raft.step C s ev = some s') : Standing C s' where
  peers i hi hst := by
    have hold := h.peers i hi
    have hrole := step_role hstep i
    generalize s'.nodes i = r' at hrole hst
    cases hrole with
    | kept => exact hold hst
    | followed _ hfollow => exact absurd hfollow hst
    -- the event is the one that has to have peers
    | stood hstart =>
      subst hstart
      exact hev
    | elected hcand => exact hold (by rw [hcand]; decide)
    | extended _ hlead => exact hold (by rw [hlead]; decide)
    | replied m k call reply =>
      have hout := replicateToReply_outcome (s.nodes i) call.callee call.args reply
      generalize (s.nodes i).replicateToReply call.callee call.args reply = r' at hout hst
      cases hout with
      | ignored | matched | backedUp => exact hold hst
      | steppedDown => exact absurd rfl hst
    | restarted =>
      rw [new_eq] at hst
      exact absurd rfl hst
  call := by
    intro c hc
    have hkept : c ∈ s.voteCalls → ∃ e, s'.elections[c.election]? = some e ∧
        e.candidate = c.caller := fun hc => by
      obtain ⟨e, he, hcand⟩ := h.call c hc
      obtain ⟨e', he', hcand'⟩ := election_kept hstep he
      exact ⟨e', he', hcand'.trans hcand⟩
    obtain ⟨_, htrans⟩ := step_transition hstep
    cases htrans with
    -- the calls of the new election find it at the end of the list
    | startElection i =>
      rcases List.mem_append.mp hc with hc | hc
      · exact hkept hc
      · obtain ⟨p, _, rfl⟩ := List.mem_map.mp hc
        exact ⟨_, List.getElem?_concat_length, rfl⟩
    | _ => exact hkept hc

/-- What was the last election of a node. -/
theorem LastElection.of_step {n : Nat} {e e' : Election} (h : LastElection s' i n e')
    (hstep : Raft.step C s ev = some s') (hn : s.elections[n]? = some e)
    (hcand : e.candidate = i) : LastElection s i n e where
  get := hn
  candidate := hcand
  last m d hd hdc := by
    obtain ⟨d', hd', hdc'⟩ := election_kept hstep hd
    exact h.last m d' hd' (hdc'.trans hdc)

/-- A candidate still lacks votes in its last election. -/
def Lacking (C : Cluster) (s : System σ) : Prop :=
  ∀ i ∈ C.ids, ∀ n e, LastElection s i n e → (s.nodes i).state = .candidate →
    (s.nodes i).currentTerm = e.term → e.votes < (s.nodes i).majority

/-- Nothing but an election of its own makes a node a candidate. -/
theorem RoleStep.candidate {r' : Raft σ} (h : RoleStep C s ev s' i r') (hst : r'.state = .candidate)
    (hev : ev ≠ .startElection i) :
    (s.nodes i).state = .candidate ∧ r'.currentTerm = (s.nodes i).currentTerm ∧
      r'.majority = (s.nodes i).majority := by
  cases h with
  | kept => exact ⟨hst, rfl, rfl⟩
  -- a candidate cannot come from a follower's outcome; only an election makes one
  | followed _ hfollow =>
    rw [hfollow] at hst
    cases hst
  | stood hstart => exact absurd hstart hev
  | elected => cases hst
  | extended _ hlead => exact absurd (hlead.symm.trans hst) (by decide)
  | replied m k call reply =>
    have hout := replicateToReply_outcome (s.nodes i) call.callee call.args reply
    generalize (s.nodes i).replicateToReply call.callee call.args reply = r' at hout hst
    cases hout with
    | ignored => exact ⟨hst, rfl, rfl⟩
    | steppedDown => cases hst
    | matched hcounts | backedUp hcounts => exact absurd (hcounts.1.symm.trans hst) (by decide)
  | restarted =>
    rw [new_eq] at hst
    cases hst

/-- **Step lemma**: the vote that completes a majority makes a leader. -/
theorem Lacking.step (h : Lacking C s) (hstand : Standing C s) (hl : Leading C s)
    (hev : HasPeers C ev) (hstep : Raft.step C s ev = some s') : Lacking C s' := by
  intro i hi n e' hlast hst hterm
  cases step_tally hstep hlast.get with
  | kept _ hn =>
    have hlast' := hlast.of_step hstep hn hlast.candidate
    by_cases hstart : ev = .startElection i
    · -- it is no longer the last one
      subst hstart
      simp only [Raft.step, Option.bind_eq_bind, Option.bind_eq_some_iff, Option.guard_eq_some',
        Option.some.injEq] at hstep
      obtain ⟨_, _, rfl⟩ := hstep
      have hle := hlast.last s.elections.length _ List.getElem?_concat_length rfl
      exact absurd (List.getElem?_eq_some_iff.mp hn).1 (Nat.not_lt.mpr hle)
    · obtain ⟨hst', hterm', hmaj⟩ := (step_role hstep i).candidate hst hstart
      rw [hmaj]
      exact h i hi n e' hlast' hst' (hterm'.symm.trans hterm)
  | started j hstart =>
    obtain rfl : j = i := hlast.candidate
    subst hstart
    have hpeers := hl.step_peers hstep j hi
    exact two_le_majority (by rw [hpeers]; exact hev)
  -- a vote that does not complete the majority leaves the node a candidate
  | replied c e reply votes hc hn he hout =>
    subst hn
    obtain ⟨d, hd, hcand⟩ := hstand.call c hc
    obtain rfl : e = d := Option.some.inj (he.symm.trans hd)
    obtain rfl : c.caller = i := hcand.symm.trans hlast.candidate
    have hlast' := hlast.of_step hstep he hcand
    generalize s'.nodes c.caller = r' at hout hst hterm
    cases hout with
    | ignored => exact h c.caller hi _ e hlast' hst hterm
    | steppedDown => cases hst
    | counted _ _ _ hlt => exact hlt
    | elected => cases hst

/-- A leader has committed what a majority of the cluster holds of its term. -/
def Settled (r : Raft σ) : Prop :=
  r.state = .leader → ∀ n < r.log.length, termAt r.log n = r.currentTerm →
    r.majority ≤ r.replicaCount n → n ≤ r.commitIndex

omit [Storage σ] in
/-- An acknowledgement is followed by a search for the new commit index. -/
theorem settled_advanceCommitLocked (r : Raft σ) : Settled r.advanceCommitLocked := by
  intro _ n hn hterm hmaj
  have hn : n < r.log.length := hn
  exact le_advanceCommitLoop r (Nat.le_sub_one_of_lt hn) hterm hmaj

/-- A new entry is held by nobody else yet. -/
theorem Settled.extendLog {r : Raft σ} (h : Settled r) (hr : Recorded r) (hlead : r.state = .leader)
    (hpeers : r.peers ≠ []) (command : Command) : Settled (r.extendLog command) := by
  intro _ n hn hterm hmaj
  have hmaj : r.majority ≤ r.replicaCount n := hmaj
  have hlen : (r.extendLog command).log.length = r.log.length + 1 := List.length_append
  rw [hlen] at hn
  -- an old entry, or the new one, which nobody but the leader has
  rcases Nat.lt_or_eq_of_le (Nat.le_of_lt_succ hn) with hlt | rfl
  · refine h hlead n hlt ?_ hmaj
    have hterm : termAt (r.log ++ [⟨r.currentTerm, command⟩]) n = r.currentTerm := hterm
    rwa [termAt, List.getD_eq_getElem?_getD, List.getElem?_append_left hlt,
      ← List.getD_eq_getElem?_getD] at hterm
  · rw [replicaCount_eq_one (hr.matchIndex hlead)] at hmaj
    have := two_le_majority hpeers
    omega

omit [Storage σ] in
/-- Nobody is known to hold anything of a new leader. -/
theorem settled_asLeader {r : Raft σ} (hpeers : r.peers ≠ []) : Settled r.asLeader := by
  intro _ n _ _ hmaj
  have hmaj : r.majority ≤ r.asLeader.replicaCount n := hmaj
  rcases Nat.eq_zero_or_pos n with rfl | hpos
  · exact Nat.zero_le _
  · rw [replicaCount_eq_one fun _ => hpos] at hmaj
    have := two_le_majority hpeers
    omega

/-- **Step lemma**: the acknowledgement that completes a majority moves the commit index. -/
theorem Settled.step (h : Settled (s.nodes i)) (hstand : Standing C s) (hl : Leading C s)
    (hi : i ∈ C.ids) (hstep : Raft.step C s ev = some s') : Settled (s'.nodes i) := by
  have hpeers : (s.nodes i).state ≠ .follower → (s.nodes i).peers ≠ [] := fun hst => by
    rw [hl.peers i hi]
    exact hstand.peers i hi hst
  have hrole := step_role hstep i
  generalize s'.nodes i = r' at hrole
  cases hrole with
  | kept => exact h
  | followed _ hfollow =>
    intro hlead
    rw [hfollow] at hlead
    cases hlead
  | stood => exact nofun
  -- a candidate has peers, so the new leader's log alone is no majority
  | elected hcand => exact settled_asLeader (hpeers (by rw [hcand]; decide))
  | extended command hlead =>
    exact h.extendLog (hl.node i hi) hlead (hpeers (by rw [hlead]; decide)) command
  | replied m k call reply =>
    have hout := replicateToReply_outcome (s.nodes i) call.callee call.args reply
    generalize (s.nodes i).replicateToReply call.callee call.args reply = r' at hout
    cases hout with
    | ignored => exact h
    | steppedDown => exact nofun
    -- the commit index was just advanced as far as the majorities go
    | matched => exact settled_advanceCommitLocked _
    | backedUp => exact h
  | restarted =>
    rw [new_eq]
    exact nofun

end Steps

/-! ## The result -/

/-- All of it. -/
structure MajorityInv [Storage σ] (C : Cluster) (s : System σ) : Prop where
  leading : Leading C s
  standing : Standing C s
  lacking : Lacking C s
  settled : ∀ i ∈ C.ids, Settled (s.nodes i)

section Result

variable [Storage σ] {C : Cluster} {s s' : System σ} {ev : Event}

theorem MajorityInv.majoritiesCount (h : MajorityInv C s) : MajoritiesCount C s where
  votes i hi n e hlast hmaj hcand :=
    absurd (h.lacking i hi n e hlast hcand.1 hcand.2) (Nat.not_lt.mpr hmaj)
  commit i hi := h.settled i hi

theorem MajorityInv.step (h : MajorityInv C s) (hev : HasPeers C ev)
    (hstep : Raft.step C s ev = some s') : MajorityInv C s' where
  leading := h.leading.step hstep
  standing := h.standing.step hev hstep
  lacking := h.lacking.step h.standing h.leading hev hstep
  settled i hi := (h.settled i hi).step h.standing h.leading hi hstep

theorem majorityInv_init (C : Cluster) (storages : NodeID → σ) :
    MajorityInv C (System.init C storages) where
  leading := leading_init C storages
  standing :=
    { peers := fun i _ hst => absurd (by simp [System.init, new_eq]) hst
      call := by simp [System.init] }
  lacking i _ n e hlast := by
    have := hlast.get
    simp [System.init] at this
  settled i _ hlead := by
    simp only [System.init, new_eq] at hlead
    cases hlead

/-- A node without peers is elected by its own vote, and nobody tells it. -/
theorem not_majoritiesCount_of_lone (hl : Leading C s) (hev : ¬HasPeers C ev)
    (hstep : step C s ev = some s') : ¬MajoritiesCount C s' := by
  intro hcount
  cases ev with
  | startElection i =>
    have hnone : C.peers i = [] := not_not.mp hev
    have hpeers := hl.step_peers hstep
    simp only [step, Option.bind_eq_bind, Option.bind_eq_some_iff, Option.guard_eq_some',
      Option.some.injEq] at hstep
    obtain ⟨_, hi, rfl⟩ := hstep
    -- one vote is the majority here, and the candidate still waits
    refine hcount.votes i hi s.elections.length _ ⟨List.getElem?_concat_length, rfl, ?_⟩ ?_ ?_
    · intro m e hm _
      have := (List.getElem?_eq_some_iff.mp hm).1
      rw [List.length_append, List.length_singleton] at this
      omega
    · have hlone := hpeers i hi
      rw [hnone] at hlone
      rw [majority, clusterSize, hlone]
      rfl
    · simp only [System.setNode, Function.update_self]
      exact ⟨rfl, rfl⟩
  | start | replicateTo | deliverVote | deliverAppend | voteReply | appendReply | apply
  | restart => exact hev trivial

end Result

/-- **Majorities take effect exactly in clusters with peers.**  In a run of a cluster of any
    size, whatever its storages do, majorities take effect at every moment if and only if only
    nodes with peers start elections. -/
theorem majorities_iff [Storage σ] (C : Cluster) (storages : NodeID → σ) (es : List Event)
    {s : System σ} (hrun : Reaches C storages es s) :
    (∀ es₁ s₁, es₁ <+: es → Reaches C storages es₁ s₁ → MajoritiesCount C s₁) ↔
      ∀ i, .startElection i ∈ es → C.peers i ≠ [] := by
  have hiff := run_property_iff (F := fun _ _ => True) (P := fun _ => HasPeers C)
    (I := MajorityInv C) (Q := MajoritiesCount C) (fun _ h => h.majoritiesCount)
    (fun t e t' h _ hev hstep => h.step hev hstep)
    (fun t e t' h _ hev hstep => not_majoritiesCount_of_lone h.leading hev hstep)
    (majorityInv_init C storages) (along_of_forall (P := fun _ => True) fun _ _ => trivial) hrun
  rw [along_iff_forall hrun] at hiff
  refine hiff.trans ⟨fun h i hi => h (.startElection i) hi, fun h e he => ?_⟩
  -- only the start of an election asks for peers
  cases e with
  | startElection i => exact h i he
  | start | replicateTo | deliverVote | deliverAppend | voteReply | appendReply | apply
  | restart => trivial

/-- After `twoCalls`, node 1 acknowledges index 1 and node 0 commits it. -/
theorem majorities_twoCalls : ∃ s,
    Reaches threeNodes (fun _ => newMemoryStorage) (twoCalls ++ [.appendReply 1]) s ∧
      (s.nodes 0).state = .leader ∧ (s.nodes 0).replicaCount 1 = (s.nodes 0).majority ∧
      1 ≤ (s.nodes 0).commitIndex := by
  have hrun : (run (step threeNodes) (System.init threeNodes fun _ => newMemoryStorage)
      (twoCalls ++ [.appendReply 1])).map (fun s => ((s.nodes 0).state, (s.nodes 0).log,
        (s.nodes 0).currentTerm, (s.nodes 0).replicaCount 1, (s.nodes 0).majority)) =
      some (.leader, [sentinel, ⟨1, [7]⟩], 1, 2, 2) := by decide
  obtain ⟨s, hs, heq⟩ := Option.map_eq_some_iff.mp hrun
  simp only [Prod.mk.injEq] at heq
  obtain ⟨hlead, hlog, hterm, hcount, hmaj⟩ := heq
  have hpeers : ∀ i, .startElection i ∈ twoCalls ++ [.appendReply 1] →
      threeNodes.peers i ≠ [] := by
    intro i hi
    obtain rfl : i = 0 := by simpa [twoCalls] using hi
    decide
  refine ⟨s, hs, hlead, hcount.trans hmaj.symm, ?_⟩
  refine ((majorities_iff threeNodes _ _ hs).mpr hpeers _ s List.prefix_rfl hs).commit 0 (by decide)
    hlead 1 ?_ ?_ ?_
  · -- the entry is of the leader's term and on two of three nodes
    rw [hlog]
    decide
  · rw [hlog, hterm]
    rfl
  · rw [hcount, hmaj]

/-- The cluster of node 0 alone. -/
def loneNode : Cluster := Cluster.ofIds [0] (by decide) (by decide)

/-- It has all the votes of its election and stays a candidate. -/
theorem lone_candidate : ∃ s,
    Reaches loneNode (fun _ => newMemoryStorage) [.startElection 0] s ∧
      LastElection s 0 0 ⟨0, 1, 1⟩ ∧ (s.nodes 0).majority = 1 ∧
      (s.nodes 0).state = .candidate ∧ (s.nodes 0).currentTerm = 1 := by
  refine ⟨_, rfl, ⟨rfl, rfl, fun m e hm _ => ?_⟩, rfl, rfl, rfl⟩
  exact Nat.le_of_lt_succ (List.getElem?_eq_some_iff.mp hm).1

end EventLog.Raft
