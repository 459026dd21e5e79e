import EventLog.Lib.Reach
import EventLog.Raft.Bounds
import EventLog.Raft.CatchUp
import Mathlib.Data.Finset.Max
import Mathlib.Data.Prod.Lex

/-!
# A majority can elect a leader

From every reachable state the members of a majority can elect one of them, without a crash
and without a step of anybody else (`exists_leader`).

* Leaders left over from before step down: of two leaders the one with the lower term hears of
  the higher one, and a last one hears of a later election (`exists_leaderless`).
* The member with the most up-to-date log starts elections until its term is above all
  others, and collects the votes (`Campaign`).  It has to be this one, as everybody whose log
  is ahead would refuse.
-/

namespace EventLog.Raft

open EventLog.Lib

variable {σ : Type}

/-! ## Events of a majority -/

/-- What the nodes do by themselves: neither a crash nor a call of `Start`, and an election
    only of a node that `electionLoop` finds not to be leader. -/
def Event.Spontaneous (s : System σ) : Event → Prop
  | .start _ _ | .restart _ => False
  | .startElection i => (s.nodes i).state ≠ .leader
  | _ => True

/-- The nodes of `Q` act by themselves, and nobody else does. -/
def Within (Q : Finset NodeID) (s : System σ) (ev : Event) : Prop :=
  ev.Spontaneous s ∧ ∃ i ∈ Q, ev.node s = some i

/-! ## Reachable states -/

/-- What every reachable state has. -/
structure Running [ReliableStorage σ] (C : Cluster) (s : System σ) : Prop where
  inv : ∃ g, Inv C s g
  ordered : Ordered C s
  fresh : FreshCalls s

section Running

variable [ReliableStorage σ] {C : Cluster} {s s' : System σ}

theorem Running.step {ev : Event} (hr : Running C s) (h : step C s ev = some s') :
    Running C s' := by
  obtain ⟨g, hg⟩ := hr.inv
  obtain ⟨o, ht⟩ := step_transition h
  exact ⟨⟨_, hg.step ht⟩, hr.ordered.step hg h, hr.fresh.step ht⟩

theorem Running.reach {Q : Finset NodeID} (hr : Running C s)
    (h : CanReach (Raft.step C) (Within Q) s s') : Running C s' :=
  h.invariant (fun _ _ _ hr _ hstep => hr.step hstep) hr

theorem running_of_run {storages : NodeID → σ}
    (hfresh : ∀ i, Storage.load (storages i) = .ok none) {es : List Event}
    (hrun : Reaches C storages es s) : Running C s := by
  have hinit : Running C (System.init C storages) :=
    ⟨⟨_, inv_init hfresh⟩, ordered_init storages, ⟨fun _ _ => rfl, fun _ _ => rfl⟩⟩
  exact run_invariant (P := fun _ _ => True) (fun _ _ _ hr _ hstep => hr.step hstep) hinit
    (along_of_forall fun _ _ => trivial) hrun

/-- The logs of a cluster are ordered by term. -/
theorem Inv.termsOrdered {g : History} (hi : Inv C s g) {i : NodeID} (hmem : i ∈ C.ids) :
    TermsOrdered (s.nodes i).log := by
  have hwf := hi.sound.logs.node i hmem
  refine ⟨hwf.head, fun k hk hpos => ?_, fun j hj k hkj => ?_⟩
  · -- an entry of term 0 would be in the log of term 0, which is the sentinel alone
    obtain ⟨e, he, hterm, _⟩ := getElem?_termAt hk
    rw [← hterm]
    by_contra hzero
    have hpre := hwf.coherent.agree k e he
    rw [Nat.lt_one_iff.mp (Nat.lt_of_not_le hzero), hi.sound.logs.zero] at hpre
    have hlen := hpre.length_le
    rw [List.length_take, List.length_singleton] at hlen
    omega
  · -- an earlier entry has a term that is no higher
    obtain ⟨e, he, hterm, _⟩ := getElem?_termAt hj
    obtain ⟨e', he', hterm', _⟩ := getElem?_termAt (Nat.lt_of_le_of_lt hkj hj)
    rw [← hterm, ← hterm']
    exact hwf.coherent.mono k j e' e hkj he' he

theorem Inv.logsMatch {g : History} (hi : Inv C s g) {i j : NodeID} (hmem : i ∈ C.ids)
    (hmem' : j ∈ C.ids) : LogsMatch (s.nodes i).log (s.nodes j).log := by
  intro k hk hk' hterm
  exact (hi.sound.logs.node i hmem).matching (hi.sound.logs.node j hmem') hk hk' hterm

end Running

/-! ## Stepping down -/

section StepDown

variable [ReliableStorage σ] {C : Cluster} {s : System σ} {Q : Finset NodeID} {i p : NodeID}

/-- One exchange between two members, as three events. -/
theorem canReach_exchange (hr : Running C s) (hi : i ∈ Q) (hp : p ∈ Q) (hQ : ∀ q ∈ Q, q ∈ C.ids)
    (hpi : p ≠ i) :
    ∃ s', CanReach (step C) (Within Q) s s' ∧
      (s'.nodes i, s'.nodes p) = (exchange p (s.nodes i, s.nodes p)).1 ∧
      ∀ q, q ≠ i → q ≠ p → s'.nodes q = s.nodes q := by
  obtain ⟨g, hg⟩ := hr.inv
  unfold exchange
  cases hargs : (s.nodes i).replicateTo p with
  | none => exact ⟨s, .refl s, rfl, fun _ _ _ => rfl⟩
  | some args =>
    have hpeer : p ∈ (s.nodes i).peers := by
      rw [hg.sound.basic.peers i (hQ i hi), C.mem_peers i (hQ i hi)]
      exact ⟨hQ p hp, hpi⟩
    -- the request is sent
    obtain ⟨s₁, hstep₁, hnodes₁, hcalls₁, hopen₁⟩ : ∃ s₁,
        step C s (.replicateTo i p) = some s₁ ∧ s₁.nodes = s.nodes ∧
        s₁.appendCalls = s.appendCalls ++ [⟨i, p, args⟩] ∧ s₁.appendOpen = s.appendOpen :=
      ⟨_, step_replicateTo (hQ i hi) hpeer hargs, rfl, rfl, rfl⟩
    have hc₁ : s₁.appendCalls[s.appendCalls.length]? = some ⟨i, p, args⟩ := by
      rw [hcalls₁]
      simp
    -- and handled
    obtain ⟨s₂, hstep₂, hnodes₂, hreplies₂, hcalls₂, hopen₂⟩ : ∃ s₂,
        step C s₁ (.deliverAppend s.appendCalls.length) = some s₂ ∧
        s₂.nodes = Function.update s₁.nodes p ((s₁.nodes p).appendEntries args).1 ∧
        s₂.appendReplies = s₁.appendReplies ++
          [(s.appendCalls.length, ((s₁.nodes p).appendEntries args).2)] ∧
        s₂.appendCalls = s₁.appendCalls ∧ s₂.appendOpen = s₁.appendOpen :=
      ⟨_, step_deliverAppend hc₁, rfl, rfl, rfl, rfl⟩
    have hm : s₂.appendReplies[s₁.appendReplies.length]? =
        some (s.appendCalls.length, ((s.nodes p).appendEntries args).2) := by
      rw [hreplies₂, hnodes₁]
      simp
    have hself₂ : s₂.nodes i = s.nodes i := by
      rw [hnodes₂, Function.update_of_ne hpi.symm, hnodes₁]
    -- and the reply comes back
    obtain ⟨s₃, hstep₃, hnodes₃⟩ : ∃ s₃,
        step C s₂ (.appendReply s₁.appendReplies.length) = some s₃ ∧
        s₃.nodes = Function.update s₂.nodes i ((s₂.nodes i).replicateToReply p args
          ((s.nodes p).appendEntries args).2) :=
      ⟨_, step_appendReply hm (hcalls₂ ▸ hc₁)
        (by rw [hopen₂, hopen₁]; exact hr.fresh.append _ (Nat.le_refl _)), rfl⟩
    -- the three events in the order of the messages, each at a member of `Q`
    refine ⟨s₃, .head (e := .replicateTo i p) ⟨trivial, i, hi, rfl⟩ hstep₁
      (.head (e := .deliverAppend s.appendCalls.length) ⟨trivial, p, hp, ?_⟩ hstep₂
        (.single (e := .appendReply s₁.appendReplies.length) ⟨trivial, i, hi, ?_⟩ hstep₃)),
      ?_, fun q hqi hqp => ?_⟩
    · simp [Event.node, hc₁]
    · simp [Event.node, hm, hcalls₂, hc₁]
    · rw [hnodes₃, Function.update_self, Function.update_of_ne hpi, hself₂, hnodes₂,
        Function.update_self, hnodes₁]
    · rw [hnodes₃, Function.update_of_ne hqi, hnodes₂, Function.update_of_ne hqp, hnodes₁]

/-- A leader that hears of a higher term from a follower steps down. -/
theorem exchange_stale {r r' : Raft σ} (hstate : r.state = .leader)
    (hlt : r.currentTerm < r'.currentTerm) :
    (exchange p (r, r')).1 = (r.becomeFollowerLocked r'.currentTerm, r') := by
  have hargs : ∃ args, r.replicateTo p = some args ∧ args.term = r.currentTerm := by
    unfold replicateTo
    rw [if_neg (not_not.mpr hstate)]
    exact ⟨_, rfl, rfl⟩
  obtain ⟨args, hargs, hterm⟩ := hargs
  simp [exchange, hargs, appendEntries, replicateToReply, hterm, hstate, hlt]

/-- A vote request of a higher term turns any node into a follower. -/
theorem requestVote_higher {r : Raft σ} {args : RequestVoteArgs} (hlt : r.currentTerm < args.term) :
    (r.requestVote args).1.state = .follower := by
  unfold requestVote observeTerm
  simp only [gt_iff_lt, hlt, if_true]
  split_ifs <;> rfl

/-- A node that does not lead can start elections until its term is as high as it likes. -/
theorem raise_term (hi : i ∈ Q) (hmem : i ∈ C.ids) (hstate : (s.nodes i).state ≠ .leader)
    (n : Nat) :
    ∃ s', CanReach (step C) (Within Q) s s' ∧
      (s'.nodes i).currentTerm = (s.nodes i).currentTerm + n ∧ (s'.nodes i).state ≠ .leader ∧
      (s'.nodes i).log = (s.nodes i).log ∧ ∀ j, j ≠ i → s'.nodes j = s.nodes j := by
  -- every election raises the term by one, and nobody else hears of it
  refine canReach_iterate (Q := fun k (s' : System σ) => (s'.nodes i).currentTerm =
    (s.nodes i).currentTerm + k ∧ (s'.nodes i).state ≠ .leader ∧
      (s'.nodes i).log = (s.nodes i).log ∧ ∀ j, j ≠ i → s'.nodes j = s.nodes j) n ?_
    ⟨rfl, hstate, rfl, fun _ _ => rfl⟩
  rintro k t _ ⟨hterm, hnot, hlog, hothers⟩
  obtain ⟨t', hstep, hnodes⟩ : ∃ t', step C t (.startElection i) = some t' ∧
      t'.nodes = Function.update t.nodes i (t.nodes i).startElection.1 :=
    ⟨_, step_startElection hmem, rfl⟩
  refine ⟨t', .single (e := .startElection i) ⟨hnot, i, hi, rfl⟩ hstep, ?_, ?_, ?_,
    fun j hj => ?_⟩
  · rw [hnodes, Function.update_self]
    show (t.nodes i).currentTerm + 1 = _
    rw [hterm]
    rfl
  · rw [hnodes, Function.update_self]
    exact State.noConfusion
  · rw [hnodes, Function.update_self]
    exact hlog
  · rw [hnodes, Function.update_of_ne hj]
    exact hothers j hj

/-- Starting an election asks every peer. -/
theorem exists_voteCall (hr : Running C s) (hmem : i ∈ C.ids) {s' : System σ}
    (hstep : step C s (.startElection i) = some s') (hp : p ∈ C.peers i) :
    ∃ k, s'.voteCalls[k]? = some ⟨i, p, (s.nodes i).startElection.2, s.elections.length⟩ ∧
      s'.voteOpen k = true := by
  obtain rfl := Option.some.inj ((step_startElection hmem).symm.trans hstep)
  obtain ⟨g, hg⟩ := hr.inv
  have hpeers : (s.nodes i).startElection.1.peers = C.peers i := hg.sound.basic.peers i hmem
  obtain ⟨n, hn⟩ := List.mem_iff_getElem?.mp hp
  -- the new calls are appended, one for each peer, in the order of the peers
  refine ⟨s.voteCalls.length + n, ?_, hr.fresh.vote _ (Nat.le_add_right _ _)⟩
  show (s.voteCalls ++ (s.nodes i).startElection.1.peers.map _)[s.voteCalls.length + n]? = _
  rw [List.getElem?_append_right (Nat.le_add_right _ _), Nat.add_sub_cancel_left,
    List.getElem?_map, hpeers, hn]
  rfl

/-- No node leads that did not lead before. -/
def NoNewLeader (s s' : System σ) : Prop :=
  ∀ j, (s'.nodes j).state = .leader → (s.nodes j).state = .leader

omit [ReliableStorage σ] in
theorem NoNewLeader.trans {s' s'' : System σ} (h : NoNewLeader s s') (h' : NoNewLeader s' s'') :
    NoNewLeader s s'' := fun j hj => h j (h' j hj)

/-- A leader learns of the higher term of another member. -/
theorem canReach_outdated (hr : Running C s) (hi : i ∈ Q) (hp : p ∈ Q) (hQ : ∀ q ∈ Q, q ∈ C.ids)
    (hstate : (s.nodes i).state = .leader)
    (hlt : (s.nodes i).currentTerm < (s.nodes p).currentTerm) :
    ∃ s', CanReach (step C) (Within Q) s s' ∧ (s'.nodes i).state ≠ .leader ∧
      NoNewLeader s s' := by
  have hpi : p ≠ i := by
    rintro rfl
    exact absurd hlt (Nat.lt_irrefl _)
  obtain ⟨s', hreach, hpair, hothers⟩ := canReach_exchange hr hi hp hQ hpi
  rw [exchange_stale hstate hlt] at hpair
  obtain ⟨hself, hother⟩ := Prod.mk.inj hpair
  -- the deposed node was a leader before, and nobody else changed its role
  refine ⟨s', hreach, by rw [hself]; exact State.noConfusion, fun j hj => ?_⟩
  by_cases hji : j = i
  · rw [hji]
    exact hstate
  · by_cases hjp : j = p
    · rw [hjp, hother] at hj
      rw [hjp]
      exact hj
    · rwa [hothers j hji hjp] at hj

/-- A member that does not lead can campaign until any leader hears of a higher term. -/
theorem canReach_outvoted (hr : Running C s) (hi : i ∈ Q) (hp : p ∈ Q) (hQ : ∀ q ∈ Q, q ∈ C.ids)
    (hpi : p ≠ i) (hstate : (s.nodes p).state ≠ .leader) :
    ∃ s', CanReach (step C) (Within Q) s s' ∧ (s'.nodes i).state ≠ .leader ∧
      NoNewLeader s s' := by
  obtain ⟨s₁, hreach₁, hterm₁, hstate₁, _, hothers₁⟩ :=
    raise_term hp (hQ p hp) hstate (s.nodes i).currentTerm
  -- one more election, and its request reaches the leader
  obtain ⟨s₂, hstep₂, hnodes₂⟩ : ∃ s₂, step C s₁ (.startElection p) = some s₂ ∧
      s₂.nodes = Function.update s₁.nodes p (s₁.nodes p).startElection.1 :=
    ⟨_, step_startElection (hQ p hp), rfl⟩
  obtain ⟨k, hk, _⟩ := exists_voteCall (hr.reach hreach₁) (hQ p hp) hstep₂
    ((C.mem_peers p (hQ p hp) i).mpr ⟨hQ i hi, hpi.symm⟩)
  obtain ⟨s₃, hstep₃, hnodes₃⟩ : ∃ s₃, step C s₂ (.deliverVote k) = some s₃ ∧
      s₃.nodes = Function.update s₂.nodes i
        ((s₂.nodes i).requestVote (s₁.nodes p).startElection.2).1 :=
    ⟨_, step_deliverVote hk, rfl⟩
  -- the leader has not heard of the elections so far
  have hlead₂ : s₂.nodes i = s.nodes i := by
    rw [hnodes₂, Function.update_of_ne hpi.symm, hothers₁ i hpi.symm]
  have hhigher : (s₂.nodes i).currentTerm < (s₁.nodes p).startElection.2.term := by
    rw [hlead₂]
    show (s.nodes i).currentTerm < (s₁.nodes p).currentTerm + 1
    omega
  have hself₃ : (s₃.nodes i).state = .follower := by
    rw [hnodes₃, Function.update_self]
    exact requestVote_higher hhigher
  refine ⟨s₃, hreach₁.trans (.head (e := .startElection p) ⟨hstate₁, p, hp, rfl⟩ hstep₂
    (.single (e := .deliverVote k) ⟨trivial, i, hi, by simp [Event.node, hk]⟩ hstep₃)),
    by rw [hself₃]; exact State.noConfusion, fun j hj => ?_⟩
  -- the leader has stepped down, and the candidate does not lead
  by_cases hji : j = i
  · rw [hji, hself₃] at hj
    cases hj
  · rw [hnodes₃, Function.update_of_ne hji, hnodes₂] at hj
    by_cases hjp : j = p
    · rw [hjp, Function.update_self] at hj
      cases hj
    · rwa [Function.update_of_ne hjp, hothers₁ j hjp] at hj

/-- **Any leader can be made to step down** by another member. -/
theorem canReach_deposed (hr : Running C s) (hi : i ∈ Q) (hp : p ∈ Q) (hQ : ∀ q ∈ Q, q ∈ C.ids)
    (hpi : p ≠ i) :
    ∃ s', CanReach (step C) (Within Q) s s' ∧ (s'.nodes i).state ≠ .leader ∧
      NoNewLeader s s' := by
  by_cases hstate : (s.nodes i).state = .leader
  swap
  · exact ⟨s, .refl s, hstate, fun _ hj => hj⟩
  by_cases hstate' : (s.nodes p).state = .leader
  swap
  · exact canReach_outvoted hr hi hp hQ hpi hstate'
  -- two leaders have different terms, and the one with the lower steps down first
  obtain ⟨g, hg⟩ := hr.inv
  rcases Nat.lt_trichotomy (s.nodes i).currentTerm (s.nodes p).currentTerm with hlt | heq | hgt
  · exact canReach_outdated hr hi hp hQ hstate hlt
  · have hlead := hg.sound.leaders.leader i (hQ i hi) hstate
    rw [heq, hg.sound.leaders.leader p (hQ p hp) hstate'] at hlead
    exact absurd (Option.some.inj hlead) hpi
  · obtain ⟨s₁, hreach₁, hdown, hnone₁⟩ := canReach_outdated hr hp hi hQ hstate' hgt
    obtain ⟨s₂, hreach₂, hdown₂, hnone₂⟩ :=
      canReach_outvoted (hr.reach hreach₁) hi hp hQ hpi hdown
    exact ⟨s₂, hreach₁.trans hreach₂, hdown₂, hnone₁.trans hnone₂⟩

/-- Two or more members can see to it that none of them leads. -/
theorem exists_leaderless (hr : Running C s) (hQ : ∀ q ∈ Q, q ∈ C.ids) (hcard : 2 ≤ Q.card) :
    ∃ s', CanReach (step C) (Within Q) s s' ∧ Running C s' ∧
      ∀ q ∈ Q, (s'.nodes q).state ≠ .leader := by
  -- one leader of `Q` after the other is deposed, and none comes back
  refine canReach_insert (Q := fun done (t : System σ) => Running C t ∧
    ∀ q ∈ done, (t.nodes q).state ≠ .leader) Q ?_ ⟨hr, by simp⟩
  rintro done i t _ hins ⟨hrt, hdone⟩
  have hi := hins (Finset.mem_insert_self i done)
  obtain ⟨p, hp, hpi⟩ := Finset.exists_mem_ne (Nat.lt_of_succ_le hcard) i
  obtain ⟨t', hreach, hdown, hnone⟩ := canReach_deposed hrt hi hp hQ hpi
  refine ⟨t', hreach, hrt.reach hreach, fun q hq hlead => ?_⟩
  rcases Finset.mem_insert.mp hq with rfl | hq
  · exact hdown hlead
  · exact hdone q hq (hnone q hlead)

end StepDown

/-! ## Winning an election -/

section Votes

variable [Storage σ] {r : Raft σ} {args : RequestVoteArgs}

/-- A node in an earlier term grants its vote to a candidate with an up-to-date log. -/
theorem requestVote_grants (hterm : r.currentTerm < args.term)
    (hup : r.candidateUpToDateLocked args = true) :
    r.requestVote args =
      ({ r.becomeFollowerLocked args.term with votedFor := args.candidateID }.persistLocked,
        { term := args.term, voteGranted := true }) := by
  have hup' : (r.becomeFollowerLocked args.term).candidateUpToDateLocked args = true := hup
  have hvote : (r.becomeFollowerLocked args.term).votedFor = None := rfl
  have hcur : (r.becomeFollowerLocked args.term).currentTerm = args.term := rfl
  simp [requestVote, observeTerm, hterm, hup', hvote, hcur]

/-- A candidate counts a vote of its term, and leads when the vote completes a majority. -/
theorem startElectionReply_granted {term votes : Nat} (hstate : r.state = .candidate)
    (hterm : r.currentTerm = term) :
    r.startElectionReply term votes { term := term, voteGranted := true } =
      (if r.majority ≤ votes + 1 then r.asLeader else r, votes + 1) := by
  by_cases hmaj : r.majority ≤ votes + 1
  · simp [startElectionReply, hstate, hterm, hmaj, becomeLeaderLocked, asLeader]
  · simp [startElectionReply, hstate, hterm, hmaj]

/-- A leader has no use for further votes. -/
theorem startElectionReply_leader {term votes : Nat} {reply : RequestVoteReply}
    (hstate : r.state = .leader) : r.startElectionReply term votes reply = (r, votes) := by
  simp [startElectionReply, hstate]

end Votes

/-- The election of `i` with the given arguments, in which the nodes in `voted` have answered
    and the other members of `Q` still wait to be asked. -/
structure Campaign [Storage σ] (C : Cluster) (Q : Finset NodeID) (i : NodeID) (election : Nat)
    (args : RequestVoteArgs) (L : List LogEntry) (voted : Finset NodeID) (s : System σ) :
    Prop where
  term : (s.nodes i).currentTerm = args.term
  log : (s.nodes i).log = L
  votes : ∃ votes, s.elections[election]? = some ⟨i, args.term, votes⟩ ∧
    ((s.nodes i).state = .candidate ∧ votes = voted.card + 1 ∧ votes < (s.nodes i).majority ∨
      (s.nodes i).state = .leader ∧ ∀ p ∈ C.peers i, (s.nodes i).nextIndex p = L.length)
  answered : ∀ p ∈ voted, (s.nodes p).currentTerm = args.term
  waiting : ∀ p ∈ Q.erase i, p ∉ voted → (s.nodes p).currentTerm < args.term ∧
    (s.nodes p).candidateUpToDateLocked args = true ∧
    ∃ k, s.voteCalls[k]? = some ⟨i, p, args, election⟩ ∧ s.voteOpen k = true

section Campaign

variable [ReliableStorage σ] {C : Cluster} {s : System σ} {Q voted : Finset NodeID} {i p : NodeID}
  {election : Nat} {args : RequestVoteArgs} {L : List LogEntry}

/-- A node whose term is not behind and whose log is not behind opens a campaign. -/
theorem Campaign.begin (hr : Running C s) (htwo : 2 ≤ C.ids.length) (hi : i ∈ Q)
    (hQ : ∀ q ∈ Q, q ∈ C.ids) (hstate : (s.nodes i).state ≠ .leader)
    (hterm : ∀ q ∈ Q.erase i, (s.nodes q).currentTerm ≤ (s.nodes i).currentTerm)
    (hup : ∀ q ∈ Q.erase i,
      (s.nodes q).candidateUpToDateLocked (s.nodes i).startElection.2 = true) :
    ∃ s', CanReach (step C) (Within Q) s s' ∧
      Campaign C Q i s.elections.length (s.nodes i).startElection.2 (s.nodes i).log ∅ s' := by
  have hmem := hQ i hi
  obtain ⟨s', hstep, hnodes, helections⟩ : ∃ s', step C s (.startElection i) = some s' ∧
      s'.nodes = Function.update s.nodes i (s.nodes i).startElection.1 ∧
      s'.elections = s.elections ++ [⟨i, (s.nodes i).startElection.2.term, 1⟩] :=
    ⟨_, step_startElection hmem, rfl, rfl⟩
  obtain ⟨g, hg⟩ := hr.inv
  have hself : s'.nodes i = (s.nodes i).startElection.1 := by rw [hnodes, Function.update_self]
  -- the candidate starts with its own vote
  refine ⟨s', .single (e := .startElection i) ⟨hstate, i, hi, rfl⟩ hstep, ?_, ?_,
    ⟨1, ?_, Or.inl ⟨?_, rfl, ?_⟩⟩, ?_, ?_⟩
  · rw [hself]
    rfl
  · rw [hself]
    rfl
  · rw [helections]
    simp
  · rw [hself]
    rfl
  · -- one vote is no majority of two nodes
    have hpeers : (s'.nodes i).peers = C.peers i := by
      rw [hself]
      exact hg.sound.basic.peers i hmem
    exact two_le_majority (hpeers ▸ C.peers_ne_nil htwo hmem)
  · simp
  · -- the others have not been asked: their terms are lower and their requests are open
    intro q hq _
    have hqi := Finset.ne_of_mem_erase hq
    have hqC := hQ q (Finset.mem_of_mem_erase hq)
    rw [hnodes, Function.update_of_ne hqi]
    refine ⟨Nat.lt_succ_of_le (hterm q hq), hup q hq, ?_⟩
    exact exists_voteCall hr hmem hstep ((C.mem_peers i hmem q).mpr ⟨hqC, hqi⟩)

/-- A granted vote leaves the candidate's term and log, and makes it leader once the votes
    are a majority. -/
theorem Campaign.counted (hc : Campaign C Q i election args L voted s)
    (hpeers : (s.nodes i).peers = C.peers i) (hlog : L ≠ []) {votes : Nat}
    (hvotes : s.elections[election]? = some ⟨i, args.term, votes⟩) :
    ∃ r votes', (s.nodes i).startElectionReply args.term votes
        { term := args.term, voteGranted := true } = (r, votes') ∧
      r.currentTerm = args.term ∧ r.log = L ∧
      (r.state = .candidate ∧ votes' = voted.card + 2 ∧ votes' < r.majority ∨
        r.state = .leader ∧ ∀ p ∈ C.peers i, r.nextIndex p = L.length) := by
  obtain ⟨votes₀, hvotes₀, hrole⟩ := hc.votes
  rw [hvotes] at hvotes₀
  obtain rfl : votes = votes₀ := by simpa using hvotes₀
  rcases hrole with ⟨hcand, hcount, _⟩ | ⟨hlead, hnext⟩
  · -- a candidate counts the vote, and this one may be the majority
    refine ⟨_, _, startElectionReply_granted hcand hc.term, ?_⟩
    split_ifs with hmaj
    · refine ⟨hc.term, hc.log, Or.inr ⟨rfl, fun p hp => ?_⟩⟩
      have hpos := List.length_pos_iff.mpr hlog
      show (if p ∈ (s.nodes i).peers then (s.nodes i).log.length - 1 + 1 else 0) = L.length
      rw [if_pos (hpeers ▸ hp), hc.log, Nat.sub_add_cancel hpos]
    · exact ⟨hc.term, hc.log, Or.inl ⟨hcand, by omega, Nat.lt_of_not_le hmaj⟩⟩
  · -- a leader keeps what it has
    exact ⟨_, _, startElectionReply_leader hlead, hc.term, hc.log, Or.inr ⟨hlead, hnext⟩⟩

/-- Asking one more member for its vote. -/
theorem Campaign.collect (hr : Running C s) (hc : Campaign C Q i election args L voted s)
    (hi : i ∈ Q) (hQ : ∀ q ∈ Q, q ∈ C.ids) (hp : p ∉ voted) (hsub : insert p voted ⊆ Q.erase i) :
    ∃ s', CanReach (step C) (Within Q) s s' ∧
      Campaign C Q i election args L (insert p voted) s' := by
  have hpQ := hsub (Finset.mem_insert_self p voted)
  have hpi := Finset.ne_of_mem_erase hpQ
  obtain ⟨hlt, hup, k, hk, hopen⟩ := hc.waiting p hpQ hp
  obtain ⟨votes, hvotes, _⟩ := hc.votes
  obtain ⟨g, hg⟩ := hr.inv
  have hlog : L ≠ [] := hc.log ▸ (hg.sound.logs.node i (hQ i hi)).ne_nil
  obtain ⟨r, votes', hreply, hterm', hlog', hrole'⟩ :=
    hc.counted (hg.sound.basic.peers i (hQ i hi)) hlog hvotes
  -- the request reaches the member, which grants its vote
  obtain ⟨s₁, hstep₁, hnodes₁, hreplies₁, helections₁, hcalls₁, hopen₁⟩ :
      ∃ s₁, step C s (.deliverVote k) = some s₁ ∧
      s₁.nodes = Function.update s.nodes p ((s.nodes p).requestVote args).1 ∧
      s₁.voteReplies = s.voteReplies ++ [(k, ((s.nodes p).requestVote args).2)] ∧
      s₁.elections = s.elections ∧ s₁.voteCalls = s.voteCalls ∧ s₁.voteOpen = s.voteOpen :=
    ⟨_, step_deliverVote hk, rfl, rfl, rfl, rfl, rfl⟩
  rw [requestVote_grants hlt hup] at hnodes₁ hreplies₁
  have hself₁ : s₁.nodes i = s.nodes i := by rw [hnodes₁, Function.update_of_ne hpi.symm]
  -- the reply reaches the candidate
  have hm : s₁.voteReplies[s.voteReplies.length]? =
      some (k, { term := args.term, voteGranted := true }) := by
    rw [hreplies₁]
    simp
  obtain ⟨s₂, hstep₂, hnodes₂, helections₂, hcalls₂, hopen₂⟩ :
      ∃ s₂, step C s₁ (.voteReply s.voteReplies.length) = some s₂ ∧
      s₂.nodes = Function.update s₁.nodes i r ∧
      s₂.elections = s₁.elections.set election ⟨i, args.term, votes'⟩ ∧
      s₂.voteCalls = s₁.voteCalls ∧ s₂.voteOpen = Function.update s₁.voteOpen k false :=
    ⟨_, step_voteReply hm (hcalls₁ ▸ hk) (helections₁ ▸ hvotes) (hopen₁ ▸ hopen)
      (hself₁ ▸ hreply), rfl, rfl, rfl, rfl⟩
  have hother : ∀ q, q ≠ i → q ≠ p → s₂.nodes q = s.nodes q := by
    intro q hqi hqp
    rw [hnodes₂, Function.update_of_ne hqi, hnodes₁, Function.update_of_ne hqp]
  have hself₂ : s₂.nodes i = r := by rw [hnodes₂, Function.update_self]
  refine ⟨s₂, .head (e := .deliverVote k) ⟨trivial, p, Finset.mem_of_mem_erase hpQ, ?_⟩ hstep₁
    (.single (e := .voteReply s.voteReplies.length) ⟨trivial, i, hi, ?_⟩ hstep₂), ?_⟩
  · simp [Event.node, hk]
  · simp [Event.node, hm, hcalls₁, hk]
  -- the vote is counted once; the others are as before
  refine ⟨hself₂ ▸ hterm', hself₂ ▸ hlog', ⟨votes', ?_, ?_⟩, ?_, ?_⟩
  · rw [helections₂, helections₁]
    exact List.getElem?_set_self (List.getElem?_eq_some_iff.mp hvotes).1
  · rw [hself₂, Finset.card_insert_of_notMem hp]
    exact hrole'
  · intro q hq
    have hqi := Finset.ne_of_mem_erase (hsub hq)
    by_cases hqp : q = p
    · rw [hqp, hnodes₂, Function.update_of_ne hpi, hnodes₁, Function.update_self]
      rfl
    · rw [hother q hqi hqp]
      exact hc.answered q (Finset.mem_of_mem_insert_of_ne hq hqp)
  · intro q hq hnew
    rw [Finset.mem_insert, not_or] at hnew
    obtain ⟨hqlt, hqup, k', hk', hopen'⟩ := hc.waiting q hq hnew.2
    rw [hother q (Finset.ne_of_mem_erase hq) hnew.1]
    refine ⟨hqlt, hqup, k', by rw [hcalls₂, hcalls₁]; exact hk', ?_⟩
    -- the call to `q` is another one
    have hne : k' ≠ k := by
      rintro rfl
      rw [hk] at hk'
      exact hnew.1 (VoteCall.mk.inj (Option.some.inj hk')).2.1.symm
    rw [hopen₂, Function.update_of_ne hne, hopen₁]
    exact hopen'

/-- `i` leads a majority whose members have all heard of its term. -/
structure LeadsMajority (C : Cluster) (Q : Finset NodeID) (i : NodeID) (s : System σ) : Prop where
  state : (s.nodes i).state = .leader
  next : ∀ p ∈ C.peers i, (s.nodes i).nextIndex p = (s.nodes i).log.length
  terms : ∀ p ∈ Q, (s.nodes p).currentTerm = (s.nodes i).currentTerm

/-- The votes of a majority suffice. -/
theorem Campaign.won (hr : Running C s) (hQ : IsMajority C.members Q) (hi : i ∈ Q)
    (hc : Campaign C Q i election args L (Q.erase i) s) : LeadsMajority C Q i s := by
  obtain ⟨g, hg⟩ := hr.inv
  have hmem : i ∈ C.ids := Cluster.mem_members.mp (hQ.1 hi)
  -- everybody in `Q` has adopted the candidate's term
  have hterms : ∀ p ∈ Q, (s.nodes p).currentTerm = (s.nodes i).currentTerm := by
    intro p hp
    by_cases hpi : p = i
    · rw [hpi]
    · rw [hc.term]
      exact hc.answered p (Finset.mem_erase.mpr ⟨hpi, hp⟩)
  obtain ⟨votes, _, ⟨_, hvotes, hlt⟩ | ⟨hlead, hnext⟩⟩ := hc.votes
  · -- everybody in `Q` voted, so the candidate would have a majority
    have hcard := Finset.card_erase_add_one hi
    have hmaj := hQ.2
    rw [Cluster.card_members hmem] at hmaj
    rw [Raft.majority, Raft.clusterSize, hg.sound.basic.peers i hmem] at hlt
    omega
  · exact ⟨hlead, by rw [hc.log]; exact hnext, hterms⟩

omit [ReliableStorage σ] in
/-- Among the members of a finite set one has a log that is not behind any other. -/
theorem exists_upToDate (s : System σ) (hne : Q.Nonempty) :
    ∃ i ∈ Q, ∀ q ∈ Q, termAt (s.nodes q).log ((s.nodes q).log.length - 1) <
        termAt (s.nodes i).log ((s.nodes i).log.length - 1) ∨
      termAt (s.nodes q).log ((s.nodes q).log.length - 1) =
        termAt (s.nodes i).log ((s.nodes i).log.length - 1) ∧
      (s.nodes q).log.length - 1 ≤ (s.nodes i).log.length - 1 := by
  obtain ⟨i, hi, hmax⟩ := Finset.exists_max_image Q (fun q => toLex
    (termAt (s.nodes q).log ((s.nodes q).log.length - 1), (s.nodes q).log.length - 1)) hne
  exact ⟨i, hi, fun q hq => Prod.Lex.toLex_le_toLex.mp (hmax q hq)⟩

/-- **A majority can elect a leader.** -/
theorem exists_leader (hr : Running C s) (htwo : 2 ≤ C.ids.length)
    (hQ : IsMajority C.members Q) :
    ∃ i ∈ Q, ∃ s', CanReach (step C) (Within Q) s s' ∧ LeadsMajority C Q i s' := by
  have hsub : ∀ q ∈ Q, q ∈ C.ids := fun q hq => Cluster.mem_members.mp (hQ.1 hq)
  -- a majority of two nodes or more has at least two members
  have hcard : 2 ≤ Q.card := by
    have hmaj := hQ.2
    rw [Cluster.members, List.toFinset_card_of_nodup C.ids_nodup] at hmaj
    omega
  obtain ⟨s₀, hreach₀, hr₀, hnone⟩ := exists_leaderless hr hsub hcard
  obtain ⟨i, hi, hmax⟩ := exists_upToDate s₀ (Finset.card_pos.mp (Nat.zero_lt_of_lt hcard))
  -- no term in the majority is above the candidate's
  obtain ⟨s₁, hreach₁, hterm₁, hstate₁, hlog₁, hothers₁⟩ :=
    raise_term hi (hsub i hi) (hnone i hi) (Q.sup fun q => (s₀.nodes q).currentTerm)
  have hr₁ := hr₀.reach hreach₁
  obtain ⟨s₂, hreach₂, hc₂⟩ := Campaign.begin hr₁ htwo hi hsub hstate₁
    (fun q hq => by
      rw [hothers₁ q (Finset.ne_of_mem_erase hq), hterm₁]
      exact Nat.le_trans (Finset.le_sup (f := fun q => (s₀.nodes q).currentTerm)
        (Finset.mem_of_mem_erase hq)) (Nat.le_add_left _ _))
    -- its log is at least as up to date as any other in `Q`
    (fun q hq => by
      rw [candidateUpToDateLocked_iff, hothers₁ q (Finset.ne_of_mem_erase hq)]
      have hle := hmax q (Finset.mem_of_mem_erase hq)
      rw [← hlog₁] at hle
      exact hle)
  -- then everybody is asked
  obtain ⟨s₃, hreach₃, hr₃, hc₃⟩ := canReach_insert (P := Within Q)
    (Q := fun voted t => Running C t ∧ Campaign C Q i _ _ _ voted t) (Q.erase i)
    (fun voted p t hp hins h => by
      obtain ⟨t', hreach, hct'⟩ := h.2.collect h.1 hi hsub hp hins
      exact ⟨t', hreach, h.1.reach hreach, hct'⟩)
    ⟨hr₁.reach hreach₂, hc₂⟩
  exact ⟨i, hi, s₃, hreach₀.trans (hreach₁.trans (hreach₂.trans hreach₃)),
    hc₃.won hr₃ hQ hi⟩

end Campaign

end EventLog.Raft
