import EventLog.Raft.Persistence

/-!
# One vote per node and term

Who voted for whom can be read off the run itself: a grant is a reply in the network,
a candidate's vote for itself is an entry in the list of elections.  A vote is pinned
by the durable state of the voter, so it survives restarts, and a second vote in the
same term can only repeat the first.

The `tally` clause accounts for the captured counter of every election: it never
exceeds one (the candidate itself) plus the peers whose grant was counted.
-/

namespace EventLog.Raft

variable {σ : Type}

/-! ## Votes cast in a run -/

/-- `p` granted its vote of term `t` to `c`. -/
def Granted (s : System σ) (p : NodeID) (t : Nat) (c : NodeID) : Prop :=
  ∃ k reply call, (k, reply) ∈ s.voteReplies ∧ s.voteCalls[k]? = some call ∧
    reply.voteGranted = true ∧ call.callee = p ∧ call.args.term = t ∧ call.caller = c

/-- `c` ran for leader in term `t`. -/
def Ran (s : System σ) (c : NodeID) (t : Nat) : Prop :=
  ∃ e ∈ s.elections, e.candidate = c ∧ e.term = t

/-- `p` voted for `c` in term `t`: as a voter, or as the candidate itself. -/
def Voted (s : System σ) (p : NodeID) (t : Nat) (c : NodeID) : Prop :=
  Granted s p t c ∨ (p = c ∧ Ran s c t)

/-- The saved state rules out any other vote in term `t`. -/
def Pinned (p : PersistentState) (t : Nat) (c : NodeID) : Prop :=
  t < p.currentTerm ∨ (t = p.currentTerm ∧ p.votedFor = c)

theorem Pinned.le {p : PersistentState} {t : Nat} {c : NodeID} (h : Pinned p t c) :
    t ≤ p.currentTerm := by
  rcases h with h | h
  · exact Nat.le_of_lt h
  · exact Nat.le_of_eq h.1

theorem Pinned.mono {p p' : PersistentState} {t : Nat} {c : NodeID} (h : Pinned p t c)
    (hc : c ≠ None) (hle : DurableLe p p') : Pinned p' t c := by
  -- the durable term passed `t`, or is `t` with the vote for `c`
  rcases h with h | ⟨rfl, rfl⟩
  · left
    rcases hle with hlt | ⟨heq, _⟩
    · exact Nat.lt_trans h hlt
    · exact heq ▸ h
  · rcases hle with hlt | ⟨heq, hnone | hvote⟩
    · exact Or.inl hlt
    -- a vote that was cast is never withdrawn within its term
    · exact absurd hnone hc
    · exact Or.inr ⟨heq, hvote.symm⟩

/-! ## How votes come about -/

section Transitions

variable [Storage σ] {C : Cluster} {s s' : System σ} {o : Option NodeID}

theorem Transition.granted_mono (h : Transition C s o s') {p : NodeID} {t : Nat} {c : NodeID}
    (hg : Granted s p t c) : Granted s' p t c := by
  obtain ⟨k, reply, call, hmem, hcall, rest⟩ := hg
  exact ⟨k, reply, call, h.voteReplies_mono.subset hmem,
    Lib.getElem?_mono h.voteCalls_mono hcall, rest⟩

/-- Counting a vote leaves the runs for leader as they are. -/
theorem ran_set {es : List Election} {n v t : Nat} {e : Election} {c : NodeID}
    (he : es[n]? = some e) :
    (∃ e' ∈ es.set n { e with votes := v }, e'.candidate = c ∧ e'.term = t) ↔
      ∃ e' ∈ es, e'.candidate = c ∧ e'.term = t := by
  obtain ⟨hlt, heq⟩ := List.getElem?_eq_some_iff.mp he
  constructor
  · -- counting a vote changes neither the candidate nor the term
    rintro ⟨e', hmem, hc, ht⟩
    rcases List.mem_or_eq_of_mem_set hmem with hm | rfl
    · exact ⟨e', hm, hc, ht⟩
    · exact ⟨e, List.mem_of_getElem? he, hc, ht⟩
  · rintro ⟨e', hmem, hc, ht⟩
    obtain ⟨m, hm, rfl⟩ := List.getElem_of_mem hmem
    by_cases hmn : m = n
    · subst hmn
      refine ⟨{ e with votes := v }, List.mem_set hlt _, ?_, ?_⟩
      · rw [← hc, heq]
      · rw [← ht, heq]
    · refine ⟨es[m], ?_, hc, ht⟩
      rw [List.mem_iff_getElem]
      exact ⟨m, by simpa using hm, by rw [List.getElem_set_ne (Ne.symm hmn)]⟩

theorem Transition.ran_mono (h : Transition C s o s') {c : NodeID} {t : Nat}
    (hr : Ran s c t) : Ran s' c t := by
  cases h with
  | startElection i =>
    obtain ⟨e, he, hrest⟩ := hr
    exact ⟨e, List.mem_append_left _ he, hrest⟩
  | voteReply k reply call e r votes _ _ he => exact (ran_set he).mpr hr
  | _ => exact hr

/-- A run for leader is old, or the candidate just started it in its next term. -/
theorem Transition.ran_inv (h : Transition C s o s') {c : NodeID} {t : Nat} (hr : Ran s' c t) :
    Ran s c t ∨ (c ∈ C.ids ∧ t = (s.nodes c).currentTerm + 1 ∧
      s'.nodes c = (s.nodes c).startElection.1) := by
  cases h with
  | startElection i hi =>
    obtain ⟨e, he, rfl, rfl⟩ := hr
    rcases List.mem_append.mp he with he | he
    · exact Or.inl ⟨e, he, rfl, rfl⟩
    · obtain rfl := List.mem_singleton.mp he
      exact Or.inr ⟨hi, rfl, Function.update_self ..⟩
  | voteReply k reply call e r votes _ _ he => exact Or.inl ((ran_set he).mp hr)
  | _ => exact Or.inl hr

/-- A grant is old, or the voter just answered the request. -/
theorem Transition.granted_inv
    (hvalid : ∀ k reply, (k, reply) ∈ s.voteReplies → k < s.voteCalls.length)
    (h : Transition C s o s') {p : NodeID} {t : Nat} {c : NodeID} (hg : Granted s' p t c) :
    Granted s p t c ∨
      ∃ call reply, call ∈ s.voteCalls ∧ call.callee = p ∧ call.args.term = t ∧
        call.caller = c ∧ (s.nodes p).currentTerm ≤ t ∧
        RequestVoteOutcome (s.nodes p) call.args (s'.nodes p) reply ∧
        reply.voteGranted = true := by
  obtain ⟨k, reply, call, hmem, hcall, hyes, rfl, rfl, rfl⟩ := hg
  -- a reply recorded before the step names a call recorded before the step
  have hold : (k, reply) ∈ s.voteReplies → Granted s call.callee call.args.term call.caller := by
    intro hm
    refine ⟨k, reply, call, hm, ?_, hyes, rfl, rfl, rfl⟩
    rw [Lib.getElem?_prefix_of_lt h.voteCalls_mono (hvalid k reply hm)]
    exact hcall
  cases h with
  -- only here is a vote granted
  | deliverVote k' c r reply' hc hr hterm =>
    rcases List.mem_append.mp hmem with hm | hm
    · exact Or.inl (hold hm)
    · simp only [List.mem_singleton, Prod.mk.injEq] at hm
      obtain ⟨rfl, rfl⟩ := hm
      obtain rfl : call = c := by
        rw [show s.voteCalls[k]? = some call from hcall] at hc
        exact Option.some.inj hc
      refine Or.inr ⟨call, reply, List.mem_of_getElem? hcall, rfl, rfl, rfl, hterm hyes, ?_, hyes⟩
      simpa [System.setNode] using hr
  | _ => exact Or.inl (hold hmem)

/-- A candidate was one before, in the same term and with the same log, or it just
    started an election. -/
theorem Transition.candidate_inv (h : Transition C s o s') {i : NodeID}
    (hc : (s'.nodes i).state = .candidate) :
    ((s.nodes i).state = .candidate ∧ (s'.nodes i).currentTerm = (s.nodes i).currentTerm ∧
        (s'.nodes i).log = (s.nodes i).log) ∨
      (i ∈ C.ids ∧ s'.nodes i = (s.nodes i).startElection.1 ∧
        Ran s' i ((s.nodes i).currentTerm + 1)) := by
  have hstep := h.node i
  generalize s'.nodes i = r' at hstep hc ⊢
  cases hstep with
  | same => exact Or.inl ⟨hc, rfl, rfl⟩
  | startElection hi hmem => exact Or.inr ⟨hi, rfl, _, hmem, rfl, rfl⟩
  -- only a leader takes commands
  | start command _ hl => exact absurd (hl.symm.trans hc) (by decide)
  | requestVote call r reply _ _ hr =>
    cases hr with
    | refused => exact Or.inl ⟨hc, rfl, rfl⟩
    | adopted => cases hc
    | granted => exact Or.inl ⟨hc, rfl, rfl⟩
    | adoptedGranted => cases hc
  | appendEntries call r reply _ _ hr =>
    -- following a leader ends every candidacy
    cases hr with
    | stale => exact Or.inl ⟨hc, rfl, rfl⟩
    | rejected => unfold persistIf at hc; split_ifs at hc <;> cases hc
    | accepted => unfold persistIf at hc; split_ifs at hc <;> cases hc
  | voteReply call r reply votes votes' _ _ hr =>
    cases hr with
    | ignored => exact Or.inl ⟨hc, rfl, rfl⟩
    | steppedDown => cases hc
    | counted => exact Or.inl ⟨hc, rfl, rfl⟩
    | elected => cases hc
  | appendReply k call r reply _ _ _ hr =>
    cases hr with
    | ignored => exact Or.inl ⟨hc, rfl, rfl⟩
    | steppedDown => cases hc
    | matched => exact Or.inl ⟨hc, rfl, rfl⟩
    | backedUp => exact Or.inl ⟨hc, rfl, rfl⟩
  | apply r msg _ hr =>
    obtain ⟨_, rfl, _⟩ := applyLoop_eq_some hr
    exact Or.inl ⟨hc, rfl, rfl⟩
  -- a restarted node is a follower
  | restart =>
    rw [new_eq] at hc
    cases hc

end Transitions

/-! ## The invariant -/

/-- The vote invariant. -/
structure Votes [Storage σ] (C : Cluster) (s : System σ) : Prop where
  election : ∀ c t, Ran s c t →
    c ∈ C.ids ∧ 0 < t ∧ Pinned (durable (s.nodes c).storage) t c
  granted : ∀ p t c, Granted s p t c → Pinned (durable (s.nodes p).storage) t c
  unique : ∀ p t c c', Voted s p t c → Voted s p t c' → c = c'
  candidate : ∀ i ∈ C.ids, (s.nodes i).state = .candidate → Ran s i (s.nodes i).currentTerm
  replyCall : ∀ k reply, (k, reply) ∈ s.voteReplies → k < s.voteCalls.length
  callElection : ∀ c ∈ s.voteCalls, ∃ e, s.elections[c.election]? = some e ∧
    e.candidate = c.caller ∧ e.term = c.args.term
  callUnique : ∀ (k k' : Nat) (c c' : VoteCall), s.voteCalls[k]? = some c →
    s.voteCalls[k']? = some c' → c.election = c'.election → c.callee = c'.callee → k = k'
  tally : ∀ (n : Nat) (e : Election), s.elections[n]? = some e →
    ∃ Q : Finset NodeID, Q.card + 1 = e.votes ∧
      ∀ p ∈ Q, p ∈ C.peers e.candidate ∧ Granted s p e.term e.candidate ∧
        ∀ (k : Nat) (c : VoteCall), s.voteCalls[k]? = some c → c.election = n →
          c.callee = p → s.voteOpen k = false

/-- The peers in `Q` granted their vote to election `n`, and the calls to them are closed,
    so none is counted again. -/
def Counted (C : Cluster) (s : System σ) (n : Nat) (e : Election) (Q : Finset NodeID) : Prop :=
  ∀ p ∈ Q, p ∈ C.peers e.candidate ∧ Granted s p e.term e.candidate ∧
    ∀ (k : Nat) (c : VoteCall), s.voteCalls[k]? = some c → c.election = n →
      c.callee = p → s.voteOpen k = false

theorem Counted.insert {C : Cluster} {s : System σ} {n : Nat} {e : Election}
    {Q : Finset NodeID} {p : NodeID} (hQ : Counted C s n e Q)
    (hpeer : p ∈ C.peers e.candidate) (hg : Granted s p e.term e.candidate)
    (hclosed : ∀ (k : Nat) (c : VoteCall), s.voteCalls[k]? = some c → c.election = n →
      c.callee = p → s.voteOpen k = false) : Counted C s n e (insert p Q) := by
  intro q hq
  rcases Finset.mem_insert.mp hq with rfl | hq
  · exact ⟨hpeer, hg, hclosed⟩
  · exact hQ q hq

section Steps

variable [ReliableStorage σ] {C : Cluster} {s s' : System σ} {o : Option NodeID}
  {p c : NodeID} {t : Nat}

theorem Granted.mem (hb : Basic C s) (h : Granted s p t c) : p ∈ C.ids ∧ c ∈ C.ids := by
  obtain ⟨k, reply, call, _, hcall, _, rfl, _, rfl⟩ := h
  exact ⟨hb.callee_mem hcall, hb.voteCaller call (List.mem_of_getElem? hcall)⟩

theorem Voted.mem (hb : Basic C s) (hv : Votes C s) (h : Voted s p t c) :
    p ∈ C.ids ∧ c ∈ C.ids := by
  rcases h with h | ⟨rfl, h⟩
  · exact h.mem hb
  · exact ⟨(hv.election _ _ h).1, (hv.election _ _ h).1⟩

theorem Voted.pinned (hv : Votes C s) (h : Voted s p t c) :
    Pinned (durable (s.nodes p).storage) t c := by
  rcases h with h | ⟨rfl, h⟩
  · exact hv.granted _ _ _ h
  · exact (hv.election _ _ h).2.2

theorem Cluster.ne_none (h : c ∈ C.ids) : c ≠ None := fun heq => C.none_notMem (heq ▸ h)

/-- A saved vote is pinned. -/
theorem pinned_persistLocked {r : Raft σ} (hlog : r.log ≠ []) (ht : r.currentTerm = t)
    (hv : r.votedFor = c) : Pinned (durable r.persistLocked.storage) t c := by
  rw [durable_persistLocked r hlog]
  exact Or.inr ⟨ht.symm, hv⟩

/-- A vote cast by the last transition. -/
structure FreshVote (s s' : System σ) (p : NodeID) (t : Nat) (c : NodeID) : Prop where
  term : (s'.nodes p).currentTerm = t
  vote : (s'.nodes p).votedFor = c
  pinned : Pinned (durable (s'.nodes p).storage) t c
  before : (s.nodes p).currentTerm < t ∨
    ((s.nodes p).currentTerm = t ∧
      ((s.nodes p).votedFor = None ∨ (s.nodes p).votedFor = c))

/-- A vote is old or fresh. -/
theorem Transition.voted_inv (hb : Basic C s) (hv : Votes C s) (h : Transition C s o s')
    (hvote : Voted s' p t c) : Voted s p t c ∨ FreshVote s s' p t c := by
  rcases hvote with hg | ⟨rfl, hr⟩
  · rcases h.granted_inv hv.replyCall hg with hold | ⟨call, reply, hmem, rfl, rfl, rfl, _, hr, hyes⟩
    · exact Or.inl (Or.inl hold)
    · right
      have hp := hb.persisted call.callee
        ((C.mem_peers _ (hb.voteCaller _ hmem) _).mp (hb.voteCallee _ hmem)).1
      -- a grant saves the vote before the reply is sent
      have hcand := hb.voteArgs _ hmem
      generalize hr' : s'.nodes call.callee = r' at hr
      cases hr with
      | refused _ hno => exact absurd (hno.symm.trans hyes) (by decide)
      | adopted _ _ hno => exact absurd (hno.symm.trans hyes) (by decide)
      | granted _ heq hfree =>
        refine ⟨by rw [hr']; exact heq, by rw [hr']; exact hcand, ?_, Or.inr ⟨heq, hcand ▸ hfree⟩⟩
        rw [hr']
        exact pinned_persistLocked hp.log_ne heq hcand
      | adoptedGranted _ hlt =>
        refine ⟨by rw [hr']; rfl, by rw [hr']; exact hcand, ?_, Or.inl hlt⟩
        rw [hr']
        exact pinned_persistLocked hp.log_ne rfl hcand
  · -- a candidate votes for itself when it starts the election
    rcases h.ran_inv hr with hold | ⟨hmem, rfl, hnode⟩
    · exact Or.inl (Or.inr ⟨rfl, hold⟩)
    · right
      refine ⟨by rw [hnode]; rfl, by rw [hnode]; exact hb.id _ hmem, ?_,
        Or.inl (Nat.lt_succ_self _)⟩
      rw [hnode]
      exact pinned_persistLocked (hb.persisted _ hmem).log_ne rfl (hb.id _ hmem)

/-- A fresh vote agrees with every earlier vote of its term. -/
theorem FreshVote.eq_old (hb : Basic C s) (hv : Votes C s) {c' : NodeID}
    (hf : FreshVote s s' p t c) (hold : Voted s p t c') : c = c' := by
  obtain ⟨hp, hc'⟩ := hold.mem hb hv
  have hpin := hold.pinned hv
  have hper := hb.persisted p hp
  have hle := hper.term_le
  have hpin_le := hpin.le
  -- a later term than any before has no earlier vote
  rcases hf.before with hlt | ⟨heq, hfree⟩
  · omega
  · -- the durable term is `t`, so the durable vote is the current one
    have hdt : (durable (s.nodes p).storage).currentTerm = (s.nodes p).currentTerm := by omega
    have hdv : (durable (s.nodes p).storage).votedFor = c' := by
      rcases hpin with hlt | ⟨_, h⟩
      · omega
      · exact h
    rw [← hper.vote_eq hdt, hdv] at hfree
    rcases hfree with hnone | h
    · exact absurd hnone (Cluster.ne_none hc')
    · exact h.symm

theorem Transition.pinned_mono (hb : Basic C s) (h : Transition C s o s') (hp : p ∈ C.ids)
    (hc : c ∈ C.ids) (hpin : Pinned (durable (s.nodes p).storage) t c) :
    Pinned (durable (s'.nodes p).storage) t c :=
  hpin.mono (Cluster.ne_none hc) (h.advances hb hp).durable

/-! ## Preservation -/

/-- Calls stay open for at most as long as they were. -/
theorem Transition.voteOpen_le (h : Transition C s o s') (k : Nat) (hk : s.voteOpen k = false) :
    s'.voteOpen k = false := by
  cases h with
  | voteReply k' =>
    by_cases hkk : k = k'
    · subst hkk
      exact Function.update_self ..
    · simpa [System.setNode, Function.update_of_ne hkk] using hk
  | restart i => simp [hk]
  | _ => exact hk

theorem Votes.step_replyCall (hv : Votes C s) (h : Transition C s o s') :
    ∀ k reply, (k, reply) ∈ s'.voteReplies → k < s'.voteCalls.length := by
  intro k reply hmem
  have hlen := h.voteCalls_mono.length_le
  cases h with
  | deliverVote k' call r reply' hc =>
    rcases List.mem_append.mp hmem with hm | hm
    · exact hv.replyCall k reply hm
    · simp only [List.mem_singleton, Prod.mk.injEq] at hm
      rw [hm.1]
      exact (List.getElem?_eq_some_iff.mp hc).1
  | _ => exact Nat.lt_of_lt_of_le (hv.replyCall k reply hmem) hlen

theorem Votes.step_callElection (hv : Votes C s) (h : Transition C s o s') :
    ∀ c ∈ s'.voteCalls, ∃ e, s'.elections[c.election]? = some e ∧
      e.candidate = c.caller ∧ e.term = c.args.term := by
  intro c hc
  cases h with
  | startElection i hi =>
    rcases List.mem_append.mp hc with hc | hc
    · obtain ⟨e, he, hrest⟩ := hv.callElection c hc
      refine ⟨e, ?_, hrest⟩
      exact Lib.getElem?_mono (List.prefix_append _ _) he
    · obtain ⟨q, _, rfl⟩ := List.mem_map.mp hc
      exact ⟨⟨i, (s.nodes i).startElection.2.term, 1⟩, by simp, rfl, rfl⟩
  | voteReply k reply call e r votes _ _ he =>
    obtain ⟨e', he', hrest⟩ := hv.callElection c hc
    by_cases hn : c.election = call.election
    · rw [hn] at he' ⊢
      obtain rfl : e = e' := Option.some.inj (he.symm.trans he')
      refine ⟨{ e with votes := votes }, ?_, hrest⟩
      exact List.getElem?_set_self (List.getElem?_eq_some_iff.mp he).1
    · exact ⟨e', by rw [List.getElem?_set_ne (Ne.symm hn)]; exact he', hrest⟩
  | _ => exact hv.callElection c hc

/-- The calls that a new election adds: one for each peer. -/
theorem newCalls_getElem? {i : NodeID} {n : Nat} {d : VoteCall} (hn : s.voteCalls.length ≤ n)
    (hd : (s.voteCalls ++ (s.nodes i).peers.map fun q =>
      (⟨i, q, (s.nodes i).startElection.2, s.elections.length⟩ : VoteCall))[n]? = some d) :
    d.election = s.elections.length ∧
      (s.nodes i).peers[n - s.voteCalls.length]? = some d.callee := by
  rw [List.getElem?_append_right hn, List.getElem?_map, Option.map_eq_some_iff] at hd
  obtain ⟨q, hq, rfl⟩ := hd
  exact ⟨rfl, hq⟩

theorem Votes.step_callUnique (hb : Basic C s) (hv : Votes C s) (h : Transition C s o s') :
    ∀ (k k' : Nat) (c c' : VoteCall), s'.voteCalls[k]? = some c → s'.voteCalls[k']? = some c' →
      c.election = c'.election → c.callee = c'.callee → k = k' := by
  intro k k' c c' hc hc' hel hcal
  cases h with
  | startElection i hi =>
    -- an old call belongs to an old election, so it never meets a new one
    have hold : ∀ {n : Nat} {d : VoteCall}, s.voteCalls[n]? = some d →
        d.election < s.elections.length := by
      intro n d hd
      obtain ⟨e, he, _⟩ := hv.callElection d (List.mem_of_getElem? hd)
      exact (List.getElem?_eq_some_iff.mp he).1
    -- both calls old, one of each, or both new
    rcases Nat.lt_or_ge k s.voteCalls.length with hk | hk <;>
      rcases Nat.lt_or_ge k' s.voteCalls.length with hk' | hk'
    · rw [List.getElem?_append_left hk] at hc
      rw [List.getElem?_append_left hk'] at hc'
      exact hv.callUnique k k' c c' hc hc' hel hcal
    · rw [List.getElem?_append_left hk] at hc
      have h1 := hold hc
      have h2 := (newCalls_getElem? hk' hc').1
      omega
    · rw [List.getElem?_append_left hk'] at hc'
      have h1 := hold hc'
      have h2 := (newCalls_getElem? hk hc).1
      omega
    · -- two new calls to one peer are the same call, as no peer is listed twice
      have h1 := (newCalls_getElem? hk hc).2
      have h2 := (newCalls_getElem? hk' hc').2
      rw [hcal] at h1
      obtain ⟨hl1, h1⟩ := List.getElem?_eq_some_iff.mp h1
      obtain ⟨hl2, h2⟩ := List.getElem?_eq_some_iff.mp h2
      have hnd : (s.nodes i).peers.Nodup := by
        rw [hb.peers i hi]
        exact C.peers_nodup i hi
      have := (List.Nodup.getElem_inj_iff hnd).mp (h1.trans h2.symm)
      omega
  | _ => exact hv.callUnique k k' c c' hc hc' hel hcal

/-- Voters stay counted in a step that adds no call to their election. -/
theorem Counted.step {n : Nat} {e : Election} {Q : Finset NodeID} (hQ : Counted C s n e Q)
    (h : Transition C s o s')
    (hcalls : ∀ (k : Nat) (c : VoteCall), s'.voteCalls[k]? = some c → c.election = n →
      s.voteCalls[k]? = some c) : Counted C s' n e Q := by
  intro p hp
  obtain ⟨hpeer, hgr, hclosed⟩ := hQ p hp
  refine ⟨hpeer, h.granted_mono hgr, fun k c hc hn hcp => ?_⟩
  exact h.voteOpen_le k (hclosed k c (hcalls k c hc hn) hn hcp)

/-- A new election starts with the candidate's own vote; the others are as before. -/
theorem Votes.step_tally_startElection (hv : Votes C s) {i : NodeID} {n : Nat} {e : Election}
    (h : Transition C s o s')
    (hcalls : s'.voteCalls = s.voteCalls ++ (s.nodes i).peers.map fun q =>
      (⟨i, q, (s.nodes i).startElection.2, s.elections.length⟩ : VoteCall))
    (he : (s.elections ++ [(⟨i, (s.nodes i).startElection.2.term, 1⟩ : Election)])[n]? = some e) :
    ∃ Q : Finset NodeID, Q.card + 1 = e.votes ∧ Counted C s' n e Q := by
  -- an election from before, or the new one, where only the candidate has voted
  rcases Nat.lt_or_ge n s.elections.length with hn | hn
  · rw [List.getElem?_append_left hn] at he
    obtain ⟨Q, hcard, hQ⟩ := hv.tally n e he
    refine ⟨Q, hcard, Counted.step hQ h fun k c hc hcn => ?_⟩
    rw [hcalls] at hc
    rcases Nat.lt_or_ge k s.voteCalls.length with hk | hk
    · rwa [List.getElem?_append_left hk] at hc
    · -- a new call belongs to the new election, not to `n`
      have := (newCalls_getElem? hk hc).1
      omega
  · have hlt := (List.getElem?_eq_some_iff.mp he).1
    simp only [List.length_append, List.length_singleton] at hlt
    obtain rfl : n = s.elections.length := by omega
    simp only [List.getElem?_concat_length, Option.some.injEq] at he
    subst he
    exact ⟨∅, rfl, by simp [Counted]⟩

theorem Votes.step_tally (hb : Basic C s) (hv : Votes C s) (h : Transition C s o s') :
    ∀ (n : Nat) (e : Election), s'.elections[n]? = some e →
      ∃ Q : Finset NodeID, Q.card + 1 = e.votes ∧ Counted C s' n e Q := by
  intro n e he
  have htr := h
  cases h with
  | startElection i hi => exact hv.step_tally_startElection htr rfl he
  | voteReply k reply call e₀ r votes hmem hcall he₀ hopen hr =>
    by_cases hn : n = call.election
    · subst hn
      have hlt := (List.getElem?_eq_some_iff.mp he₀).1
      rw [List.getElem?_set_self hlt, Option.some.injEq] at he
      subst he
      obtain ⟨Q, hcard, hQ⟩ := hv.tally _ e₀ he₀
      have hkeep := Counted.step hQ htr fun k c hc _ => hc
      obtain ⟨e₁, he₁, hcand, hterm⟩ := hv.callElection call (List.mem_of_getElem? hcall)
      obtain rfl : e₁ = e₀ := Option.some.inj (he₁.symm.trans he₀)
      -- the callee of an open call has not been counted yet
      have hfresh : call.callee ∉ Q := by
        intro hin
        have := (hQ _ hin).2.2 k call hcall rfl rfl
        rw [hopen] at this
        cases this
      -- counting it closes the only call to it in this election
      have hadd : reply.voteGranted = true → votes = e₁.votes + 1 →
          ∃ Q' : Finset NodeID, Q'.card + 1 = votes ∧
            Counted C { s.setNode call.caller r with
              elections := s.elections.set call.election { e₁ with votes := votes }
              voteOpen := Function.update s.voteOpen k false } call.election e₁ Q' := by
        intro hyes hvotes
        refine ⟨insert call.callee Q, ?_, hkeep.insert ?_ ?_ fun k' c hc hcn hcq => ?_⟩
        · rw [Finset.card_insert_of_notMem hfresh, hvotes, ← hcard]
        · rw [hcand]
          exact hb.voteCallee call (List.mem_of_getElem? hcall)
        · exact ⟨k, reply, call, hmem, hcall, hyes, rfl, hterm.symm, hcand.symm⟩
        · obtain rfl : k' = k := hv.callUnique k' k c call hc hcall hcn hcq
          exact Function.update_self ..
      cases hr with
      | ignored => exact ⟨Q, hcard, hkeep⟩
      | steppedDown => exact ⟨Q, hcard, hkeep⟩
      | counted _ _ hyes => exact hadd hyes rfl
      | elected _ _ hyes => exact hadd hyes rfl
    · rw [List.getElem?_set_ne (Ne.symm hn)] at he
      obtain ⟨Q, hcard, hQ⟩ := hv.tally n e he
      exact ⟨Q, hcard, Counted.step hQ htr fun k c hc _ => hc⟩
  | _ =>
    obtain ⟨Q, hcard, hQ⟩ := hv.tally n e he
    exact ⟨Q, hcard, Counted.step hQ htr fun k c hc _ => hc⟩

/-- **Step lemma** for votes. -/
theorem Votes.step (hb : Basic C s) (hv : Votes C s) (h : Transition C s o s') : Votes C s' where
  -- the candidacy is old and stays pinned, or was saved when it started
  election c t hr := by
    rcases h.ran_inv hr with hold | ⟨hc, rfl, hnode⟩
    · obtain ⟨hc, hpos, hpin⟩ := hv.election c t hold
      exact ⟨hc, hpos, h.pinned_mono hb hc hc hpin⟩
    · refine ⟨hc, Nat.succ_pos _, ?_⟩
      rw [hnode]
      exact pinned_persistLocked (hb.persisted _ hc).log_ne rfl (hb.id _ hc)
  granted p t c hg := by
    rcases h.voted_inv hb hv (Or.inl hg) with hold | hfresh
    · obtain ⟨hp, hc⟩ := hold.mem hb hv
      exact h.pinned_mono hb hp hc (hold.pinned hv)
    · exact hfresh.pinned
  unique p t c c' h₁ h₂ := by
    -- two votes of one step are the node's one vote
    rcases h.voted_inv hb hv h₁ with hold₁ | hf₁ <;> rcases h.voted_inv hb hv h₂ with hold₂ | hf₂
    · exact hv.unique p t c c' hold₁ hold₂
    · exact (hf₂.eq_old hb hv hold₁).symm
    · exact hf₁.eq_old hb hv hold₂
    · exact hf₁.vote.symm.trans hf₂.vote
  candidate i hi hc := by
    rcases h.candidate_inv hc with ⟨hold, hterm, _⟩ | ⟨_, hnode, hran⟩
    · rw [hterm]
      exact h.ran_mono (hv.candidate i hi hold)
    · rw [hnode]
      exact hran
  replyCall := hv.step_replyCall h
  callElection := hv.step_callElection h
  callUnique := hv.step_callUnique hb h
  tally := hv.step_tally hb h

theorem votes_init (storages : NodeID → σ) : Votes C (System.init C storages) where
  election c t hr := by
    obtain ⟨e, he, _⟩ := hr
    simp [System.init] at he
  granted p t c hg := by
    obtain ⟨k, reply, call, hmem, _⟩ := hg
    simp [System.init] at hmem
  unique p t c c' h₁ _ := by
    rcases h₁ with ⟨k, reply, call, hmem, _⟩ | ⟨_, e, he, _⟩
    · simp [System.init] at hmem
    · simp [System.init] at he
  candidate i _ hc := by
    rw [init_state] at hc
    cases hc
  replyCall := by simp [System.init]
  callElection := by simp [System.init]
  callUnique := by simp [System.init]
  tally := by simp [System.init]

end Steps

end EventLog.Raft
