import EventLog.Raft.Votes

/-!
# Election safety

The history of a run records for every term who led it and the log that leader last
held.  A leader was chosen by a majority of votes, two majorities share a voter, and a
voter votes once per term, so a term has one leader over the whole run.
-/

namespace EventLog.Raft

open EventLog.Lib

variable {σ : Type}

/-! ## The history of a run -/

/-- Who led each term, and the log the leader of each term last held in it. -/
@[ext] structure History where
  leader : Nat → Option NodeID
  leaderLog : Nat → List LogEntry

/-- Leaders are never replaced and their logs only grow. -/
instance : Preorder History where
  le g g' := (∀ t i, g.leader t = some i → g'.leader t = some i) ∧
    ∀ t, g.leaderLog t <+: g'.leaderLog t
  le_refl g := ⟨fun _ _ h => h, fun _ => List.prefix_rfl⟩
  le_trans _ _ _ h₁ h₂ :=
    ⟨fun t i h => h₂.1 t i (h₁.1 t i h), fun t => (h₁.2 t).trans (h₂.2 t)⟩

namespace History

/-- Before the first election only term 0 has a log, the sentinel all nodes share. -/
def init : History where
  leader _ := none
  leaderLog t := if t = 0 then [sentinel] else []

/-- Record `i` as leader of term `t` with the given log. -/
def lead (g : History) (t : Nat) (i : NodeID) (log : List LogEntry) : History where
  leader := Function.update g.leader t (some i)
  leaderLog := Function.update g.leaderLog t log

/-- The history after a transition that named the node `o`. -/
def observe (g : History) (s : System σ) : Option NodeID → History
  | none => g
  | some i => g.lead (s.nodes i).currentTerm i (s.nodes i).log

variable (g : History) (s : System σ) (i : NodeID)

@[simp] theorem observe_leader_self :
    (g.observe s (some i)).leader (s.nodes i).currentTerm = some i :=
  Function.update_self ..

@[simp] theorem observe_leaderLog_self :
    (g.observe s (some i)).leaderLog (s.nodes i).currentTerm = (s.nodes i).log :=
  Function.update_self ..

theorem observe_leader_of_ne {t : Nat} (h : t ≠ (s.nodes i).currentTerm) :
    (g.observe s (some i)).leader t = g.leader t :=
  Function.update_of_ne h ..

theorem observe_leaderLog_of_ne {t : Nat} (h : t ≠ (s.nodes i).currentTerm) :
    (g.observe s (some i)).leaderLog t = g.leaderLog t :=
  Function.update_of_ne h ..

end History

/-! ## The member set -/

/-- The identities as a finite set. -/
def Cluster.members (C : Cluster) : Finset NodeID := C.ids.toFinset

theorem Cluster.mem_members {C : Cluster} {i : NodeID} : i ∈ C.members ↔ i ∈ C.ids :=
  List.mem_toFinset

/-- `majority()` is computed from the peers, and counts a majority of the members. -/
theorem Cluster.card_members {C : Cluster} {i : NodeID} (hi : i ∈ C.ids) :
    C.members.card = (C.peers i).length + 1 := by
  -- a node and its peers are the members
  have hins : C.members = insert i (C.peers i).toFinset := by
    ext j
    simp only [Cluster.mem_members, Finset.mem_insert, List.mem_toFinset, C.mem_peers i hi]
    constructor
    · intro hj
      by_cases hji : j = i
      · exact Or.inl hji
      · exact Or.inr ⟨hj, hji⟩
    · rintro (rfl | ⟨hj, _⟩)
      · exact hi
      · exact hj
  have hnot : i ∉ (C.peers i).toFinset := by
    rw [List.mem_toFinset, C.mem_peers i hi]
    exact fun h => h.2 rfl
  rw [hins, Finset.card_insert_of_notMem hnot, List.toFinset_card_of_nodup (C.peers_nodup i hi)]

theorem Cluster.peers_ne_nil (C : Cluster) {i : NodeID} (htwo : 2 ≤ C.ids.length)
    (hi : i ∈ C.ids) : C.peers i ≠ [] := by
  have hcard := Cluster.card_members hi
  rw [Cluster.members, List.toFinset_card_of_nodup C.ids_nodup] at hcard
  exact List.length_pos_iff.mp (by omega)

/-- A node with a peer needs a vote besides its own. -/
theorem two_le_majority {r : Raft σ} (h : r.peers ≠ []) : 2 ≤ r.majority := by
  have := List.length_pos_iff.mpr h
  unfold majority clusterSize
  omega

/-! ## The invariant -/

/-- The leader invariant. -/
structure Leaders (C : Cluster) (s : System σ) (g : History) : Prop where
  leader : ∀ i ∈ C.ids, (s.nodes i).state = .leader → g.leader (s.nodes i).currentTerm = some i
  candidate : ∀ i ∈ C.ids, (s.nodes i).state = .candidate →
    g.leader (s.nodes i).currentTerm ≠ some i
  elected : ∀ t c, g.leader t = some c →
    Ran s c t ∧ ∃ Q, IsMajority C.members Q ∧ ∀ p ∈ Q, Voted s p t c
  appendCall : ∀ c ∈ s.appendCalls, g.leader c.args.term = some c.caller
  leaderID : ∀ i ∈ C.ids, (s.nodes i).leaderID ≠ None →
    g.leader (s.nodes i).currentTerm = some (s.nodes i).leaderID

/-- The transition turned the candidate `c` into a leader and changed nothing else that
    later arguments look at. -/
structure Elected (C : Cluster) (s s' : System σ) (c : NodeID) : Prop where
  mem : c ∈ C.ids
  candidate : (s.nodes c).state = .candidate
  node : s'.nodes c = asLeader (s.nodes c)
  others : ∀ j, j ≠ c → s'.nodes j = s.nodes j
  voteCalls : s'.voteCalls = s.voteCalls
  voteReplies : s'.voteReplies = s.voteReplies
  appendCalls : s'.appendCalls = s.appendCalls
  appendReplies : s'.appendReplies = s.appendReplies
  quorum : ∃ Q, IsMajority C.members Q ∧ ∀ p ∈ Q, Voted s p (s.nodes c).currentTerm c

/-- The transition appended a command to the log of the leader `i` and changed nothing
    else. -/
structure Extended [Storage σ] (C : Cluster) (s s' : System σ) (i : NodeID) (command : Command) :
    Prop where
  mem : i ∈ C.ids
  leader : (s.nodes i).state = .leader
  node : s'.nodes i = (s.nodes i).extendLog command
  others : ∀ j, j ≠ i → s'.nodes j = s.nodes j
  voteCalls : s'.voteCalls = s.voteCalls
  voteReplies : s'.voteReplies = s.voteReplies
  appendCalls : s'.appendCalls = s.appendCalls
  appendReplies : s'.appendReplies = s.appendReplies

section Node

variable {C : Cluster} {s s' : System σ} {c : NodeID}

theorem Elected.state (h : Elected C s s' c) : (s'.nodes c).state = .leader := by
  rw [h.node]
  rfl

theorem Elected.term (h : Elected C s s' c) :
    (s'.nodes c).currentTerm = (s.nodes c).currentTerm := by
  rw [h.node]
  rfl

theorem Elected.log (h : Elected C s s' c) : (s'.nodes c).log = (s.nodes c).log := by
  rw [h.node]
  rfl

variable [Storage σ] {command : Command}

theorem Extended.state (h : Extended C s s' c command) : (s'.nodes c).state = .leader := by
  rw [h.node]
  exact h.leader

theorem Extended.term (h : Extended C s s' c command) :
    (s'.nodes c).currentTerm = (s.nodes c).currentTerm := by
  rw [h.node]
  rfl

end Node

section Steps

variable [ReliableStorage σ] {C : Cluster} {s s' : System σ} {o : Option NodeID} {g : History}

theorem Transition.voted_mono (h : Transition C s o s') {p c : NodeID} {t : Nat}
    (hv : Voted s p t c) : Voted s' p t c := by
  rcases hv with hg | ⟨rfl, hr⟩
  · exact Or.inl (h.granted_mono hg)
  · exact Or.inr ⟨rfl, h.ran_mono hr⟩

/-- The winner's vote, the votes counted before and the last one form a majority. -/
theorem quorum_of_tally (hb : Basic C s) (hv : Votes C s) {k : Nat} {reply : RequestVoteReply}
    {call : VoteCall} {e : Election} (hmem : (k, reply) ∈ s.voteReplies)
    (hcall : s.voteCalls[k]? = some call) (he : s.elections[call.election]? = some e)
    (hopen : s.voteOpen k = true) (hyes : reply.voteGranted = true)
    (hmaj : (s.nodes call.caller).majority ≤ e.votes + 1) :
    ∃ Q, IsMajority C.members Q ∧ ∀ p ∈ Q, Voted s p call.args.term call.caller := by
  have hcm := List.mem_of_getElem? hcall
  have hci := hb.voteCaller call hcm
  obtain ⟨e', he', hcand, hterm⟩ := hv.callElection call hcm
  obtain rfl : e' = e := Option.some.inj (he'.symm.trans he)
  obtain ⟨Q, hcard, hQ⟩ := hv.tally _ e' he
  -- the last voter is counted here for the first time
  have hpeer : ∀ q ∈ insert call.callee Q, q ∈ C.peers call.caller := by
    intro q hq
    rcases Finset.mem_insert.mp hq with rfl | hq
    · exact hb.voteCallee call hcm
    · exact hcand ▸ (hQ q hq).1
  have hfresh : call.callee ∉ Q := by
    intro hin
    have hclosed := (hQ _ hin).2.2 k call hcall rfl rfl
    rw [hopen] at hclosed
    cases hclosed
  -- the candidate is not among its peers
  have hself : call.caller ∉ insert call.callee Q := fun hin =>
    ((C.mem_peers _ hci _).mp (hpeer _ hin)).2 rfl
  refine ⟨insert call.caller (insert call.callee Q), ⟨?_, ?_⟩, ?_⟩
  · intro q hq
    rw [Cluster.mem_members]
    rcases Finset.mem_insert.mp hq with rfl | hq
    · exact hci
    · exact ((C.mem_peers _ hci _).mp (hpeer q hq)).1
  · -- its own vote, the ones counted and the last one make the majority
    rw [Finset.card_insert_of_notMem hself, Finset.card_insert_of_notMem hfresh,
      Cluster.card_members hci]
    rw [Raft.majority, Raft.clusterSize, hb.peers _ hci] at hmaj
    omega
  · -- each of them has voted: the candidate for itself, the others by a granted reply
    intro q hq
    rcases Finset.mem_insert.mp hq with rfl | hq
    · refine Or.inr ⟨rfl, e', List.mem_of_getElem? he, hcand, hterm⟩
    · rcases Finset.mem_insert.mp hq with rfl | hq
      · exact Or.inl ⟨k, reply, call, hmem, hcall, hyes, rfl, rfl, rfl⟩
      · have := (hQ q hq).2.1
        rw [hcand, hterm] at this
        exact Or.inl this

/-- How leadership moves in a transition: the named node wins its election or extends
    its log, and otherwise every leader was one before. -/
inductive Leadership (C : Cluster) (s s' : System σ) : Option NodeID → Prop where
  | elected (c) : Elected C s s' c → Leadership C s s' (some c)
  | extended (i command) : Extended C s s' i command → Leadership C s s' (some i)
  | kept : (∀ i, (s'.nodes i).state = .leader → (s.nodes i).state = .leader ∧
      (s'.nodes i).currentTerm = (s.nodes i).currentTerm ∧ (s'.nodes i).log = (s.nodes i).log) →
      Leadership C s s' none

omit [ReliableStorage σ] in
/-- Replacing one node by one that leads only if it led before keeps the leaders. -/
theorem kept_update {nodes : NodeID → Raft σ} {j : NodeID} {r : Raft σ}
    (hr : r.state = .leader → (nodes j).state = .leader ∧
      r.currentTerm = (nodes j).currentTerm ∧ r.log = (nodes j).log) (i : NodeID)
    (hl : (Function.update nodes j r i).state = .leader) :
    (nodes i).state = .leader ∧
      (Function.update nodes j r i).currentTerm = (nodes i).currentTerm ∧
      (Function.update nodes j r i).log = (nodes i).log := by
  by_cases hij : i = j
  · subst hij
    rw [Function.update_self] at hl ⊢
    exact hr hl
  · rw [Function.update_of_ne hij] at hl ⊢
    exact ⟨hl, rfl, rfl⟩

theorem Transition.leadership (hb : Basic C s) (hv : Votes C s) (h : Transition C s o s') :
    Leadership C s s' o := by
  cases h with
  | idle => exact .kept fun i hl => ⟨hl, rfl, rfl⟩
  -- a candidate does not lead, and the others are as they were
  | startElection j => exact .kept (kept_update fun hl => by cases hl)
  | start i command hi hl =>
    exact .extended i command ⟨hi, hl, Function.update_self ..,
      fun j hj => Function.update_of_ne hj .., rfl, rfl, rfl, rfl⟩
  | replicateTo => exact .kept fun i hl => ⟨hl, rfl, rfl⟩
  -- a request of the node's own term leaves its role, one of a higher term makes it a follower
  | deliverVote k c r reply _ hr =>
    refine .kept (kept_update fun hl => ?_)
    cases hr with
    | refused => exact ⟨hl, rfl, rfl⟩
    | adopted => cases hl
    | granted => exact ⟨hl, rfl, rfl⟩
    | adoptedGranted => cases hl
  -- whoever handles an append that is not stale is a follower afterwards
  | deliverAppend k c r reply _ hr =>
    refine .kept (kept_update fun hl => ?_)
    cases hr with
    | stale => exact ⟨hl, rfl, rfl⟩
    | rejected => rw [persistIf_state] at hl; cases hl
    | accepted => rw [persistIf_state] at hl; cases hl
  -- only here can a node become leader
  | voteReply k reply c e r votes hmem hcall he hopen hr =>
    cases hr with
    | ignored =>
      rw [newLeader_eq_none fun hl => hl]
      exact .kept (kept_update fun hl => ⟨hl, rfl, rfl⟩)
    | steppedDown =>
      rw [newLeader_eq_none fun hl => by cases hl]
      exact .kept (kept_update fun hl => by cases hl)
    | counted hcand =>
      rw [newLeader_eq_none fun hl => hl]
      exact .kept (kept_update fun hl => ⟨hl, rfl, rfl⟩)
    -- the vote that completes the majority
    | elected hcand hterm hyes hmaj =>
      rw [newLeader, if_pos ⟨hcand, rfl⟩]
      refine .elected _ ⟨hb.voteCaller c (List.mem_of_getElem? hcall), hcand,
        Function.update_self .., fun j hj => Function.update_of_ne hj .., rfl, rfl, rfl, rfl, ?_⟩
      rw [hterm]
      exact quorum_of_tally hb hv hmem hcall he hopen hyes hmaj
  -- a reply changes what the leader knows of a peer, or makes it step down
  | appendReply k reply c r _ _ _ hr =>
    refine .kept (kept_update fun hl => ?_)
    cases hr with
    | ignored => exact ⟨hl, rfl, rfl⟩
    | steppedDown => cases hl
    | matched => exact ⟨hl, rfl, rfl⟩
    | backedUp => exact ⟨hl, rfl, rfl⟩
  | apply i r msg _ hr =>
    obtain ⟨_, rfl, _⟩ := applyLoop_eq_some hr
    exact .kept (kept_update fun hl => ⟨hl, rfl, rfl⟩)
  -- a restarted node is a follower
  | restart i =>
    refine .kept (kept_update fun hl => ?_)
    rw [new_eq] at hl
    cases hl

/-- A winner's term has no leader yet: a common voter would have voted twice. -/
theorem Elected.unled (hv : Votes C s) (hl : Leaders C s g) {c : NodeID} (he : Elected C s s' c) :
    g.leader (s.nodes c).currentTerm = none := by
  cases hled : g.leader (s.nodes c).currentTerm with
  | none => rfl
  | some c' =>
    obtain ⟨Q, hQ, hvoted⟩ := he.quorum
    obtain ⟨_, Q', hQ', hvoted'⟩ := hl.elected _ _ hled
    -- two majorities share a voter
    obtain ⟨p, hp, hp'⟩ := hQ.inter hQ'
    obtain rfl : c = c' := hv.unique p _ _ _ (hvoted p hp) (hvoted' p hp')
    exact absurd hled (hl.candidate c he.mem he.candidate)

/-! ## Preservation -/

/-- Leaders recorded before a transition stay recorded. -/
theorem Leaders.observe_mono (hv : Votes C s) (hl : Leaders C s g) (h : Leadership C s s' o)
    {t : Nat} {i : NodeID} (ht : g.leader t = some i) : (g.observe s' o).leader t = some i := by
  cases h with
  | elected c he =>
    -- no term has two winners, so the new one is of another term
    have hne : t ≠ (s'.nodes c).currentTerm := by
      rintro rfl
      rw [he.node] at ht
      exact Option.some_ne_none i (ht.symm.trans (he.unled hv hl))
    exact (g.observe_leader_of_ne s' c hne).trans ht
  | extended j command he =>
    have hterm := he.term
    -- it leads its term already
    by_cases htj : t = (s'.nodes j).currentTerm
    · subst htj
      rw [hterm, hl.leader j he.mem he.leader] at ht
      exact (g.observe_leader_self s' j).trans ht
    · exact (g.observe_leader_of_ne s' j htj).trans ht
  | kept => exact ht

/-- A leader recorded after a transition was recorded before it or has just won. -/
theorem Leaders.observe_inv (hl : Leaders C s g) (h : Leadership C s s' o)
    {t : Nat} {i : NodeID} (ht : (g.observe s' o).leader t = some i) :
    g.leader t = some i ∨ (Elected C s s' i ∧ t = (s.nodes i).currentTerm) := by
  cases h with
  | elected c he =>
    have hterm := he.term
    by_cases htc : t = (s'.nodes c).currentTerm
    · have hset : (g.observe s' (some c)).leader t = some c := by
        rw [htc, g.observe_leader_self]
      obtain rfl : c = i := Option.some.inj (hset.symm.trans ht)
      exact Or.inr ⟨he, htc.trans hterm⟩
    · exact Or.inl ((g.observe_leader_of_ne s' c htc).symm.trans ht)
  | extended j command he =>
    have hterm := he.term
    left
    by_cases htj : t = (s'.nodes j).currentTerm
    · have hset : (g.observe s' (some j)).leader t = some j := by
        rw [htj, g.observe_leader_self]
      obtain rfl : j = i := Option.some.inj (hset.symm.trans ht)
      -- extending its log does not change who leads the term
      rw [htj, hterm]
      exact hl.leader j he.mem he.leader
    · exact (g.observe_leader_of_ne s' j htj).symm.trans ht
  | kept => exact Or.inl ht

/-- Every leader after a transition is recorded. -/
theorem Leaders.step_leader (hv : Votes C s) (hl : Leaders C s g) (h : Leadership C s s' o) :
    ∀ i ∈ C.ids, (s'.nodes i).state = .leader →
      (g.observe s' o).leader (s'.nodes i).currentTerm = some i := by
  intro i hi hlead
  have hmono := fun t j => hl.observe_mono hv h (t := t) (i := j)
  cases h with
  | elected c he =>
    -- the new leader, or one that led before
    by_cases hic : i = c
    · subst hic
      exact g.observe_leader_self s' i
    · rw [he.others i hic] at hlead ⊢
      exact hmono _ _ (hl.leader i hi hlead)
  | extended j command he =>
    by_cases hij : i = j
    · subst hij
      exact g.observe_leader_self s' i
    · rw [he.others i hij] at hlead ⊢
      exact hmono _ _ (hl.leader i hi hlead)
  | kept hkept =>
    obtain ⟨hold, hterm, _⟩ := hkept i hlead
    rw [hterm]
    exact hl.leader i hi hold

/-- A candidate's own term is not one it already won. -/
theorem Leaders.step_candidate (hb : Basic C s) (hv : Votes C s) (hl : Leaders C s g)
    (h : Transition C s o s') :
    ∀ i ∈ C.ids, (s'.nodes i).state = .candidate →
      (g.observe s' o).leader (s'.nodes i).currentTerm ≠ some i := by
  intro i hi hcand hled
  -- a candidate of this term that leads it would have been elected in it
  rcases hl.observe_inv (h.leadership hb hv) hled with hold | ⟨he, _⟩
  · rcases h.candidate_inv hcand with ⟨hc, hterm, _⟩ | ⟨_, hnode, _⟩
    · rw [hterm] at hold
      exact hl.candidate i hi hc hold
    · -- the new term lies above everything the node has saved
      have hpin := (hv.election _ _ (hl.elected _ _ hold).1).2.2.le
      have hle := (hb.persisted i hi).term_le
      have hterm : (s'.nodes i).currentTerm = (s.nodes i).currentTerm + 1 := by rw [hnode]; rfl
      omega
  · rw [he.node] at hcand
    cases hcand

/-- The leader a node knows of led the node's term. -/
theorem Leaders.step_leaderID (hb : Basic C s) (hv : Votes C s) (hl : Leaders C s g)
    (h : Transition C s o s') :
    ∀ i ∈ C.ids, (s'.nodes i).leaderID ≠ None →
      (g.observe s' o).leader (s'.nodes i).currentTerm = some (s'.nodes i).leaderID := by
  intro i hi hne
  have hmono := fun t j => hl.observe_mono hv (h.leadership hb hv) (t := t) (i := j)
  have hled := hl.step_leader hv (h.leadership hb hv) i hi
  have hid := (h.advances hb hi).id.trans (hb.id i hi)
  have hstep := h.node i
  have hold := hl.leaderID i hi
  generalize s'.nodes i = r' at hstep hne hled hid ⊢
  -- the leader a node names is from the same term, until it forgets it
  cases hstep with
  | same => exact hmono _ _ (hold hne)
  | startElection => exact absurd rfl hne
  | start command => exact hmono _ _ (hold hne)
  | requestVote call r reply _ _ hr =>
    cases hr with
    | refused => exact hmono _ _ (hold hne)
    | adopted => exact absurd rfl hne
    | granted => exact hmono _ _ (hold hne)
    | adoptedGranted => exact absurd rfl hne
  -- the first contact of a term tells the follower who leads
  | appendEntries call r reply hcall _ hr =>
    -- the sender led the term of the call
    have hlead := hmono _ _ (hl.appendCall call hcall)
    rw [← hb.appendArgs call hcall] at hlead
    cases hr with
    | stale => exact hmono _ _ (hold hne)
    | rejected => simpa [Raft.follow] using hlead
    | accepted => simpa [Raft.follow] using hlead
  | voteReply call r reply votes votes' _ _ hr =>
    cases hr with
    | ignored => exact hmono _ _ (hold hne)
    | steppedDown => exact absurd rfl hne
    | counted => exact hmono _ _ (hold hne)
    | elected =>
      have : (asLeader (s.nodes i)).leaderID = i := hid
      rw [this]
      exact hled rfl
  | appendReply k call r reply _ _ _ hr =>
    cases hr with
    | ignored => exact hmono _ _ (hold hne)
    | steppedDown => exact absurd rfl hne
    | matched => exact hmono _ _ (hold hne)
    | backedUp => exact hmono _ _ (hold hne)
  | apply r msg _ hr =>
    obtain ⟨_, rfl, _⟩ := applyLoop_eq_some hr
    exact hmono _ _ (hold hne)
  | restart =>
    rw [new_eq] at hne
    exact absurd rfl hne

/-- **Step lemma** for the leader invariant. -/
theorem Leaders.step (hb : Basic C s) (hv : Votes C s) (hl : Leaders C s g)
    (h : Transition C s o s') : Leaders C s' (g.observe s' o) where
  leader := hl.step_leader hv (h.leadership hb hv)
  candidate := hl.step_candidate hb hv h
  elected t c hled := by
    have hkeep : ∀ Q : Finset NodeID, (∀ p ∈ Q, Voted s p t c) → ∀ p ∈ Q, Voted s' p t c :=
      fun Q hQ p hp => h.voted_mono (hQ p hp)
    rcases hl.observe_inv (h.leadership hb hv) hled with hold | ⟨he, rfl⟩
    · obtain ⟨hran, Q, hQ, hvoted⟩ := hl.elected t c hold
      exact ⟨h.ran_mono hran, Q, hQ, hkeep Q hvoted⟩
    · obtain ⟨Q, hQ, hvoted⟩ := he.quorum
      exact ⟨h.ran_mono (hv.candidate c he.mem he.candidate), Q, hQ, hkeep Q hvoted⟩
  -- only `replicateTo` adds a call, and its sender leads
  appendCall c hc := by
    have hmono := fun t j => hl.observe_mono hv (h.leadership hb hv) (t := t) (i := j)
    cases h with
    | replicateTo i peer hi _ hlead =>
      rcases List.mem_append.mp hc with hc | hc
      · exact hl.appendCall c hc
      · obtain rfl := List.mem_singleton.mp hc
        exact hl.leader i hi hlead
    | _ => exact hmono _ _ (hl.appendCall c hc)
  leaderID := hl.step_leaderID hb hv h

theorem leaders_init (storages : NodeID → σ) :
    Leaders C (System.init C storages) History.init where
  leader i _ hl := by
    rw [init_state] at hl
    cases hl
  candidate i _ _ := by simp [History.init]
  elected t c hled := by simp [History.init] at hled
  appendCall c hc := by simp [System.init] at hc
  leaderID i _ hne := by
    simp only [System.init, new_eq] at hne
    exact absurd rfl hne

/-! ## Election safety -/

/-- At some moment of the run over `es` the node `i` was leader of term `t`. -/
def LedIn (C : Cluster) (storages : NodeID → σ) (es : List Event) (i : NodeID) (t : Nat) : Prop :=
  ∃ es₁ s₁, es₁ <+: es ∧ Reaches C storages es₁ s₁ ∧ i ∈ C.ids ∧
    (s₁.nodes i).state = .leader ∧ (s₁.nodes i).currentTerm = t

/-- What the last event of a run adds to `LedIn`. -/
theorem ledIn_concat {storages : NodeID → σ} {es : List Event} {e : Event} {i : NodeID} {t : Nat}
    (hrun : Reaches C storages (es ++ [e]) s') :
    LedIn C storages (es ++ [e]) i t ↔ LedIn C storages es i t ∨
      (i ∈ C.ids ∧ (s'.nodes i).state = .leader ∧ (s'.nodes i).currentTerm = t) := by
  constructor
  · rintro ⟨es₁, s₁, hpre, hreach, hlead⟩
    -- the moment is the end of the run or an earlier one
    rcases List.prefix_concat_iff.mp hpre with rfl | hpre
    · obtain rfl : s₁ = s' := Option.some.inj (hreach.symm.trans hrun)
      exact Or.inr hlead
    · exact Or.inl ⟨es₁, s₁, hpre, hreach, hlead⟩
  · rintro (⟨es₁, s₁, hpre, hrest⟩ | hlead)
    · exact ⟨es₁, s₁, hpre.trans (List.prefix_append _ _), hrest⟩
    · exact ⟨_, s', List.prefix_rfl, hrun, hlead⟩

/-- **Run lemma**: the history of a run records exactly the leaders it had. -/
theorem history_of_run {storages : NodeID → σ} {es : List Event}
    (hfresh : ∀ i, Storage.load (storages i) = .ok none) (hrun : Reaches C storages es s) :
    ∃ g, Leaders C s g ∧ ∀ t i, g.leader t = some i ↔ LedIn C storages es i t := by
  suffices h : Basic C s ∧ Votes C s ∧
      ∃ g, Leaders C s g ∧ ∀ t i, g.leader t = some i ↔ LedIn C storages es i t from h.2.2
  refine run_induction (P := fun es s => Basic C s ∧ Votes C s ∧
    ∃ g, Leaders C s g ∧ ∀ t i, g.leader t = some i ↔ LedIn C storages es i t) ?_ ?_ hrun
  · refine ⟨basic_init storages hfresh, votes_init storages, _, leaders_init storages, ?_⟩
    intro t i
    simp only [History.init, reduceCtorEq, false_iff]
    -- nobody leads before the first event
    rintro ⟨es₁, s₁, hpre, hreach, _, hlead, _⟩
    obtain rfl := List.prefix_nil.mp hpre
    obtain rfl := Option.some.inj hreach
    rw [init_state] at hlead
    cases hlead
  · rintro es t e t' hes ⟨hb, hv, g, hl, hg⟩ hstep
    obtain ⟨o, h⟩ := step_transition hstep
    have hes' : Reaches C storages (es ++ [e]) t' := run_concat hes hstep
    refine ⟨hb.step h, hv.step hb h, _, hl.step hb hv h, fun u i => ?_⟩
    rw [ledIn_concat hes', ← hg u i]
    constructor
    · intro hled
      rcases hl.observe_inv (h.leadership hb hv) hled with hold | ⟨he, rfl⟩
      · exact Or.inl hold
      -- a winner leads at the end of the longer run
      · exact Or.inr ⟨he.mem, he.state, he.term⟩
    · rintro (hold | ⟨hi, hlead, rfl⟩)
      · exact hl.observe_mono hv (h.leadership hb hv) hold
      · exact hl.step_leader hv (h.leadership hb hv) i hi hlead

/-- **Election safety**: over a whole run a term has at most one leader, and the leader
    a node knows of is the one of the node's term. -/
theorem election_safety (C : Cluster) (storages : NodeID → σ)
    (hfresh : ∀ i, Storage.load (storages i) = .ok none) (es : List Event) (s : System σ)
    (hrun : Reaches C storages es s) :
    (∀ i j t, LedIn C storages es i t → LedIn C storages es j t → i = j) ∧
      ∀ i ∈ C.ids, (s.nodes i).leaderID ≠ None →
        LedIn C storages es (s.nodes i).leaderID (s.nodes i).currentTerm := by
  obtain ⟨g, hl, hg⟩ := history_of_run hfresh hrun
  refine ⟨fun i j t hi hj => ?_, fun i hi hne => ?_⟩
  · have hgi := (hg t i).mpr hi
    have hgj := (hg t j).mpr hj
    exact Option.some.inj (hgi.symm.trans hgj)
  · exact (hg _ _).mp (hl.leaderID i hi hne)

end Steps

/-- Three nodes on memory storages. -/
def threeNodes : Cluster := Cluster.ofIds [0, 1, 2] (by decide) (by decide)

/-- Node 0 wins an election and node 1 hears its heartbeat. -/
theorem election_safety_three_nodes : ∃ s,
    Reaches threeNodes (fun _ => newMemoryStorage)
      [.startElection 0, .deliverVote 0, .voteReply 0, .replicateTo 0 1, .deliverAppend 0] s ∧
    (s.nodes 1).leaderID = 0 ∧
    LedIn threeNodes (fun _ => newMemoryStorage)
      [.startElection 0, .deliverVote 0, .voteReply 0, .replicateTo 0 1, .deliverAppend 0] 0
      (s.nodes 1).currentTerm := by
  have hrun : (run (step threeNodes) (System.init threeNodes fun _ => newMemoryStorage)
      [.startElection 0, .deliverVote 0, .voteReply 0, .replicateTo 0 1, .deliverAppend 0]).map
        (fun s => (s.nodes 1).leaderID) = some 0 := by decide
  obtain ⟨s, hs, hid⟩ := Option.map_eq_some_iff.mp hrun
  have hsafe := election_safety threeNodes _ (fun _ => rfl) _ s hs
  have hled := hsafe.2 1 (by decide) (by rw [hid]; decide)
  rw [hid] at hled
  exact ⟨s, hs, hid, hled⟩

end EventLog.Raft
