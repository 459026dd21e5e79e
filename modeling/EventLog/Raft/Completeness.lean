import EventLog.Raft.LogMatching

/-!
# Leader completeness

A node that acknowledged the leader log of term `T` up to an entry of that term keeps
it, unless a leader of a later term lacked it.  The election restriction carries this
from the voters to the winner, so once a majority acknowledged, induction on the term
rules the exception out: every later leader holds what was acknowledged.
-/

namespace EventLog.Raft

open EventLog.Lib

variable {σ : Type}

/-! ## Acknowledgements -/

/-- The leader log of term `t` up to index `n`. -/
def History.upTo (g : History) (t n : Nat) : List LogEntry := (g.leaderLog t).take (n + 1)

/-- Index `n` of the leader log of `t` exists and was created in term `t`. -/
def History.Own (g : History) (t n : Nat) : Prop :=
  ∃ e, (g.leaderLog t)[n]? = some e ∧ e.term = t

/-- `p` acknowledged the leader log of term `t` up to `n`: as the leader itself, or by a
    successful `AppendEntries` reply. -/
def Acked (s : System σ) (g : History) (p : NodeID) (t n : Nat) : Prop :=
  (g.leader t = some p ∧ n < (g.leaderLog t).length) ∨
    ∃ k reply call, (k, reply) ∈ s.appendReplies ∧ s.appendCalls[k]? = some call ∧
      reply.success = true ∧ call.callee = p ∧ call.args.term = t ∧
      n ≤ call.args.prevLogIndex + call.args.entries.length

/-- Some leader of a term between `t` and `b` lacks the leader log of `t` up to `n`. -/
def History.Lost (g : History) (t n b : Nat) : Prop :=
  ∃ v c, t < v ∧ v < b ∧ g.leader v = some c ∧ ¬ g.upTo t n <+: g.leaderLog v

/-- What a vote of `p` in term `u` guarantees about the log it was cast for. -/
def VoteOK (s : System σ) (g : History) (p : NodeID) (u : Nat) (log : List LogEntry) : Prop :=
  ∀ t n, t < u → Acked s g p t n → g.Own t n → g.upTo t n <+: log ∨ g.Lost t n u

/-- The acknowledgement invariant. -/
structure Acks [Storage σ] (C : Cluster) (s : System σ) (g : History) : Prop where
  keeps : ∀ p t n, Acked s g p t n → g.Own t n → t ≤ durTerm (s.nodes p) ∧
    (g.upTo t n <+: (s.nodes p).log ∨ g.Lost t n (durTerm (s.nodes p) + 1))
  voteCall : ∀ c ∈ s.voteCalls, (s.nodes c.caller).state = .candidate →
    (s.nodes c.caller).currentTerm = c.args.term →
    (c.args.lastLogTerm, c.args.lastLogIndex) = (s.nodes c.caller).lastLogTermIndexLocked
  vote : ∀ p u c, Voted s p u c → g.leader u = none → (s.nodes c).state = .candidate →
    (s.nodes c).currentTerm = u → VoteOK s g p u (s.nodes c).log
  quorum : ∀ u c, g.leader u = some c →
    ∃ Q, IsMajority C.members Q ∧ ∀ p ∈ Q, Voted s p u c ∧ VoteOK s g p u (g.leaderLog u)

/-! ## Completeness from the invariant -/

/-- A majority acknowledged the leader log of `t` up to its own entry `n`. -/
def Committed (C : Cluster) (s : System σ) (g : History) (t n : Nat) : Prop :=
  g.Own t n ∧ ∃ Q, IsMajority C.members Q ∧ ∀ p ∈ Q, Acked s g p t n

/-- **Leader completeness**: what a majority acknowledged is in every later leader's log. -/
theorem Acks.complete [Storage σ] {C : Cluster} {s : System σ} {g : History} (ha : Acks C s g)
    {t n : Nat} (hc : Committed C s g t n) :
    ∀ u c, t ≤ u → g.leader u = some c → g.upTo t n <+: g.leaderLog u := by
  obtain ⟨hown, Q, hQ, hacked⟩ := hc
  intro u
  induction u using Nat.strongRecOn with
  | _ u ih =>
    intro c hle hled
    rcases Nat.eq_or_lt_of_le hle with rfl | hlt
    · exact List.take_prefix _ _
    · -- a node that acknowledged also voted for the leader of `u`
      obtain ⟨Q', hQ', hvote⟩ := ha.quorum u c hled
      obtain ⟨p, hp, hp'⟩ := hQ.inter hQ'
      rcases (hvote p hp').2 t n hlt (hacked p hp) hown with hpre | ⟨v, c', htv, hvu, hv, hlost⟩
      · exact hpre
      · exact absurd (ih v hvu c' (Nat.le_of_lt htv) hv) hlost

/-! ## Acknowledgements across a transition -/

section Steps

variable [ReliableStorage σ] {C : Cluster} {s s' : System σ} {o : Option NodeID} {g : History}
  {p : NodeID} {t n : Nat}

theorem Acked.led (hs : Sound C s g) (h : Acked s g p t n) : ∃ c, g.leader t = some c := by
  rcases h with ⟨hled, _⟩ | ⟨k, reply, call, _, hcall, _, _, rfl, _⟩
  · exact ⟨p, hled⟩
  · exact ⟨_, hs.leaders.appendCall call (List.mem_of_getElem? hcall)⟩

theorem Acked.lt (hs : Sound C s g) (h : Acked s g p t n) : n < (g.leaderLog t).length := by
  rcases h with ⟨_, hlt⟩ | ⟨k, reply, call, _, hcall, _, _, rfl, hn⟩
  · exact hlt
  · have := (hs.logs.call call (List.mem_of_getElem? hcall)).length_le
    omega

theorem Acked.mem (hs : Sound C s g) (h : Acked s g p t n) : p ∈ C.ids := by
  rcases h with ⟨hled, _⟩ | ⟨k, reply, call, _, hcall, _, rfl, _⟩
  · exact hs.leader_mem hled
  · exact hs.basic.appendCallee_mem hcall

/-- What was acknowledged is fixed: leader logs only grow. -/
theorem History.upTo_grow {g' : History} (hle : g ≤ g') (hn : n < (g.leaderLog t).length) :
    g'.upTo t n = g.upTo t n := by
  obtain ⟨rest, hrest⟩ := hle.2 t
  rw [History.upTo, History.upTo, ← hrest, List.take_append_of_le_length (by omega)]

theorem History.own_grow {g' : History} (hle : g ≤ g') (hn : n < (g.leaderLog t).length) :
    g'.Own t n ↔ g.Own t n := by
  rw [History.Own, History.Own, getElem?_prefix_of_lt (hle.2 t) hn]

/-- The last entry of an acknowledged prefix. -/
theorem History.Own.last (h : g.Own t n) :
    ∃ e, (g.upTo t n)[(g.upTo t n).length - 1]? = some e ∧ e.term = t := by
  obtain ⟨e, he, hterm⟩ := h
  have hlt := (List.getElem?_eq_some_iff.mp he).1
  refine ⟨e, ?_, hterm⟩
  have hlen : (g.upTo t n).length = n + 1 := by
    rw [History.upTo, List.length_take]
    omega
  rw [hlen, Nat.add_sub_cancel, History.upTo, List.getElem?_take_of_lt (Nat.lt_succ_self n), he]

/-- A later leader never comes to hold what it lacked: it only adds entries of its own
    term. -/
theorem History.Lost.step (hs : Sound C s g) (h : Transition C s o s') {c : NodeID} {b b' : Nat}
    (hled : g.leader t = some c) (hn : n < (g.leaderLog t).length) (hlost : g.Lost t n b)
    (hb : b ≤ b') : (g.observe s' o).Lost t n b' := by
  obtain ⟨v, c', htv, hvb, hv, hnot⟩ := hlost
  refine ⟨v, c', htv, Nat.lt_of_lt_of_le hvb hb, (hs.le h).1 v c' hv, ?_⟩
  rw [History.upTo_grow (hs.le h) hn]
  intro hpre
  cases hs.leadership h with
  | elected d he =>
    have hterm := he.term
    rw [g.observe_leaderLog_of_ne] at hpre
    · exact hnot hpre
    -- the winner of this step is the first leader of its term, so it is not `v`
    · rintro rfl
      rw [hterm, he.unled hs.votes hs.leaders] at hv
      cases hv
  | extended j command he =>
    have hterm := he.term
    by_cases hvj : v = (s'.nodes j).currentTerm
    · subst hvj
      rw [g.observe_leaderLog_self, he.node] at hpre
      rw [hterm, hs.logs.leader j he.mem he.leader] at hnot
      -- the entry it adds is of its own, later term, so it completes nothing of term `t`
      refine hnot (prefix_of_prefix_concat (fun hin => ?_) hpre)
      have hle := (hs.logs.led t c hled).le _ (List.mem_of_mem_take hin)
      rw [hterm] at htv
      exact absurd htv (Nat.not_lt.mpr hle)
    · rw [g.observe_leaderLog_of_ne s' j hvj] at hpre
      exact hnot hpre
  | kept => exact hnot hpre

omit [ReliableStorage σ] in
/-- A leader acknowledges its own log: the recorded one is old or the node's current log. -/
theorem acked_of_observe {j : NodeID}
    (hterm : (s'.nodes j).currentTerm = (s.nodes j).currentTerm)
    (hled : (g.observe s' (some j)).leader t = some p)
    (hn : n < ((g.observe s' (some j)).leaderLog t).length) :
    Acked s g p t n ∨ ((s.nodes p).currentTerm ≤ t ∧ (s'.nodes p).currentTerm = t ∧
      (g.observe s' (some j)).upTo t n <+: (s'.nodes p).log) := by
  by_cases htj : t = (s'.nodes j).currentTerm
  · subst htj
    rw [g.observe_leader_self] at hled
    obtain rfl := Option.some.inj hled
    refine Or.inr ⟨Nat.le_of_eq hterm.symm, rfl, ?_⟩
    rw [History.upTo, g.observe_leaderLog_self]
    exact List.take_prefix _ _
  · rw [g.observe_leader_of_ne s' j htj] at hled
    rw [g.observe_leaderLog_of_ne s' j htj] at hn
    exact Or.inl (Or.inl ⟨hled, hn⟩)

/-- An acknowledgement of this transition: the node holds the log, it was not past the
    term and is in it now. -/
theorem Transition.acked_inv (hs : Sound C s g) (h : Transition C s o s')
    (ha : Acked s' (g.observe s' o) p t n) :
    Acked s g p t n ∨ ((s.nodes p).currentTerm ≤ t ∧ (s'.nodes p).currentTerm = t ∧
      (g.observe s' o).upTo t n <+: (s'.nodes p).log) := by
  rcases ha with ⟨hled, hn⟩ | ⟨k, reply, call, hmem, hcall, hsucc, rfl, rfl, hn⟩
  · cases hs.leadership h with
    | elected c he => exact acked_of_observe he.term hled hn
    | extended j command he => exact acked_of_observe he.term hled hn
    | kept => exact Or.inl (Or.inl ⟨hled, hn⟩)
  · have hkeep : (k, reply) ∈ s.appendReplies →
        Acked s g call.callee call.args.term n := fun hold => by
      obtain ⟨c, hc, _⟩ := hs.logs.reply k reply hold
      have hc' := getElem?_mono h.appendCalls_mono hc
      obtain rfl : c = call := Option.some.inj (hc'.symm.trans hcall)
      exact Or.inr ⟨k, reply, c, hold, hc, hsucc, rfl, rfl, hn⟩
    cases h with
    | deliverAppend k' c r reply' hc hr =>
      rcases List.mem_append.mp hmem with hm | hm
      · exact Or.inl (hkeep hm)
      · obtain ⟨rfl, rfl⟩ := Prod.mk.inj (List.mem_singleton.mp hm)
        obtain rfl : c = call := Option.some.inj (hc.symm.trans hcall)
        right
        cases hr with
        | stale _ _ hfail => rw [hfail] at hsucc; cases hsucc
        | rejected _ _ hfail => rw [hfail] at hsucc; cases hsucc
        -- a success reply promises what the call described, which the merge put there
        | accepted _ hle hprev hterm =>
          refine ⟨hle, ?_, ?_⟩
          · show (Function.update s.nodes c.callee _ c.callee).currentTerm = c.args.term
            rw [Function.update_self, persistIf_currentTerm]
            rfl
          have hm := hs.logs.merged hs.leaders (List.mem_of_getElem? hc)
            (hs.basic.appendCallee_mem hc) hprev hterm
          have hholds := hm.holds
          show g.upTo c.args.term n <+: (Function.update s.nodes c.callee _ c.callee).log
          rw [Function.update_self, persistIf_log]
          refine List.IsPrefix.trans ?_ hholds
          exact List.take_prefix_take_left (by omega)
    | _ => exact Or.inl (hkeep hmem)

/-- A vote already saved: later transitions add no acknowledgement of an earlier term. -/
theorem VoteOK.step (hs : Sound C s g) (h : Transition C s o s') {u : Nat}
    {log log' : List LogEntry} (hp : p ∈ C.ids) (hu : u ≤ durTerm (s.nodes p))
    (hlog : log <+: log') (hok : VoteOK s g p u log) : VoteOK s' (g.observe s' o) p u log' := by
  intro t n htu hacked hown
  rcases h.acked_inv hs hacked with hold | ⟨hcur, _⟩
  · have hn := hold.lt hs
    obtain ⟨c, hled⟩ := hold.led hs
    rw [History.own_grow (hs.le h) hn] at hown
    rcases hok t n htu hold hown with hpre | hlost
    · left
      rw [History.upTo_grow (hs.le h) hn]
      exact hpre.trans hlog
    · exact Or.inr (hlost.step hs h hled hn (Nat.le_refl _))
  -- a new acknowledgement comes from a node that has not passed `t`, but `u` is saved
  · have hle : durTerm (s.nodes p) ≤ _ := (hs.basic.persisted p hp).term_le
    omega

/-! ## The election restriction -/

/-- A node that has not passed term `u` and keeps its log in this transition could vote in
    `u` for its own log. -/
theorem VoteOK.own (hs : Sound C s g) (ha : Acks C s g) (h : Transition C s o s') {u : Nat}
    (hp : p ∈ C.ids) (hu : (s.nodes p).currentTerm ≤ u)
    (hlog : (s'.nodes p).log = (s.nodes p).log) (hunled : (g.observe s' o).leader u = none) :
    VoteOK s' (g.observe s' o) p u (s'.nodes p).log := by
  intro t n htu hacked hown
  rcases h.acked_inv hs hacked with hold | ⟨_, _, hpre⟩
  · have hn := hold.lt hs
    obtain ⟨c, hled⟩ := hold.led hs
    rw [History.own_grow (hs.le h) hn] at hown
    rcases (ha.keeps p t n hold hown).2 with hpre | ⟨v, c', htv, hvb, hv, hnot⟩
    · left
      rw [History.upTo_grow (hs.le h) hn, hlog]
      exact hpre
    · have hdur : durTerm (s.nodes p) ≤ _ := (hs.basic.persisted p hp).term_le
      -- the log was lost before `u`, since `u` has no leader yet
      have hne : v ≠ u := by
        rintro rfl
        rw [(hs.le h).1 v c' hv] at hunled
        cases hunled
      exact Or.inr (History.Lost.step hs h hled hn ⟨v, c', htv, (by omega : v < u), hv, hnot⟩
        (Nat.le_refl _))
  · exact Or.inl hpre

omit [ReliableStorage σ] in
theorem candidateUpToDateLocked_iff {r : Raft σ} {args : RequestVoteArgs} :
    r.candidateUpToDateLocked args = true ↔
      termAt r.log (r.log.length - 1) < args.lastLogTerm ∨
        (termAt r.log (r.log.length - 1) = args.lastLogTerm ∧
          r.log.length - 1 ≤ args.lastLogIndex) := by
  unfold candidateUpToDateLocked lastLogTermIndexLocked lastIndexLocked
  by_cases heq : args.lastLogTerm = termAt r.log (r.log.length - 1)
  · simp [heq]
  · have hne : termAt r.log (r.log.length - 1) ≠ args.lastLogTerm := fun h => heq h.symm
    simp [heq, hne]

theorem WfLog.getLast {log : List LogEntry} (h : WfLog g t log) :
    ∃ e, log[log.length - 1]? = some e :=
  ⟨_, List.getElem?_eq_getElem (Nat.sub_lt h.length_pos Nat.one_pos)⟩

/-- **Election restriction**: a vote that is fine for one log is fine for every log at
    least as up to date, of terms below `u`. -/
theorem VoteOK.carry (hs : Sound C s g) {u t₁ t₂ : Nat} {log₁ log₂ : List LogEntry}
    (h₁ : WfLog g t₁ log₁) (h₂ : WfLog g t₂ log₂) (hbound : ∀ e ∈ log₂, e.term < u)
    (hup : termAt log₁ (log₁.length - 1) < termAt log₂ (log₂.length - 1) ∨
      (termAt log₁ (log₁.length - 1) = termAt log₂ (log₂.length - 1) ∧
        log₁.length - 1 ≤ log₂.length - 1))
    (hok : VoteOK s g p u log₁) : VoteOK s g p u log₂ := by
  intro t n htu hacked hown
  rcases hok t n htu hacked hown with hpre | hlost
  -- compare the last entries, as the voter did
  · obtain ⟨a, ha⟩ := h₁.getLast
    obtain ⟨b, hb⟩ := h₂.getLast
    rw [termAt_eq ha, termAt_eq hb] at hup
    have hup' : a.term < b.term ∨ (a.term = b.term ∧ log₁.length ≤ log₂.length) := by
      have hpos₂ := h₂.length_pos
      omega
    obtain ⟨e, he, hterm⟩ := hown.last
    have hpL : g.upTo t n <+: g.leaderLog e.term := by
      rw [hterm]
      exact List.take_prefix _ _
    rcases h₁.coherent.carry h₂.coherent hpre hpL he ha hb hup' with hres | ⟨hlt, hnot⟩
    · exact Or.inl hres
    · right
      rw [hterm] at hlt
      -- the last term of `log₂` is positive and in use, so it has a leader
      cases hled : g.leader b.term with
      | some c => exact ⟨b.term, c, hlt, hbound b (List.mem_of_getElem? hb), hled, hnot⟩
      | none =>
        have hpre₂ := h₂.coherent.prefix_last hb
        rw [hs.logs.unled _ (by omega) hled] at hpre₂
        exact absurd (List.prefix_nil.mp hpre₂) h₂.ne_nil
  · exact Or.inr hlost

/-! ## Preservation -/

theorem Acks.step_keeps (hs : Sound C s g) (ha : Acks C s g) (h : Transition C s o s') :
    ∀ p t n, Acked s' (g.observe s' o) p t n → (g.observe s' o).Own t n →
      t ≤ durTerm (s'.nodes p) ∧ ((g.observe s' o).upTo t n <+: (s'.nodes p).log ∨
        (g.observe s' o).Lost t n (durTerm (s'.nodes p) + 1)) := by
  intro p t n hacked hown
  rcases h.acked_inv hs hacked with hold | ⟨_, _, hpre⟩
  · have hp := hold.mem hs
    have hn := hold.lt hs
    obtain ⟨c, hled⟩ := hold.led hs
    have hdur := h.durTerm_le hs.basic hp
    rw [History.own_grow (hs.le h) hn] at hown
    obtain ⟨hle, hcase⟩ := ha.keeps p t n hold hown
    refine ⟨Nat.le_trans hle hdur, ?_⟩
    rcases hcase with hpre | hlost
    · rw [History.upTo_grow (hs.le h) hn]
      cases h.logStep hs.basic hp with
      | same hsame => exact Or.inl (hsame ▸ hpre)
      | extended command _ _ hext =>
        rw [hext]
        exact Or.inl (hpre.trans (List.prefix_append _ _))
      | merged call hcall _ hcur hprev hterm hlog hdur' =>
        -- a sender that holds the prefix leaves it in place; one that lacks it is a witness
        -- that the prefix is lost to a later leader
        by_cases hV : g.upTo t n <+: g.leaderLog call.args.term
        · left
          rw [hlog]
          exact (hs.logs.merged hs.leaders hcall hp hprev hterm).keeps hpre hV
        · right
          -- the leader of `t` itself holds the prefix
          have hne : t ≠ call.args.term := by
            intro heq
            exact hV (heq ▸ List.take_prefix _ _)
          have hper : durTerm (s.nodes p) ≤ _ := (hs.basic.persisted p hp).term_le
          refine History.Lost.step hs h hled hn ⟨call.args.term, call.caller, by omega,
            Nat.lt_succ_self _, hs.leaders.appendCall call hcall, hV⟩ ?_
          rw [hdur']
    · exact Or.inr (hlost.step hs h hled hn (by omega))
  · refine ⟨?_, Or.inl hpre⟩
    -- the acknowledged entry of term `t` is in the saved log
    have hp := hacked.mem (hs.step h)
    obtain ⟨e, he, rfl⟩ := hown.last
    exact ((hs.step h).logs.node p hp).le e (hpre.subset (List.mem_of_getElem? he))

/-- A candidate has not run in the term it is about to enter. -/
theorem Sound.not_ran_next (hs : Sound C s g) {c : NodeID} (hc : c ∈ C.ids) :
    ¬ Ran s c ((s.nodes c).currentTerm + 1) := fun hran => by
  have hpin := (hs.votes.election _ _ hran).2.2.le
  have hper := (hs.basic.persisted c hc).term_le
  omega

theorem Sound.ran_of_call (hs : Sound C s g) {c : VoteCall} (hc : c ∈ s.voteCalls) :
    Ran s c.caller c.args.term := by
  obtain ⟨e, he, hec, het⟩ := hs.votes.callElection c hc
  exact ⟨e, List.mem_of_getElem? he, hec, het⟩

theorem Granted.ran (hs : Sound C s g) {u : Nat} {c : NodeID} (h : Granted s p u c) :
    Ran s c u := by
  obtain ⟨k, reply, call, _, hcall, _, _, rfl, rfl⟩ := h
  exact hs.ran_of_call (List.mem_of_getElem? hcall)

theorem Acks.step_voteCall (hs : Sound C s g) (ha : Acks C s g) (h : Transition C s o s') :
    ∀ c ∈ s'.voteCalls, (s'.nodes c.caller).state = .candidate →
      (s'.nodes c.caller).currentTerm = c.args.term →
      (c.args.lastLogTerm, c.args.lastLogIndex) = (s'.nodes c.caller).lastLogTermIndexLocked := by
  intro c hc hcand hterm
  have hkeep : c ∈ s.voteCalls → (c.args.lastLogTerm, c.args.lastLogIndex) =
      (s'.nodes c.caller).lastLogTermIndexLocked := fun hold => by
    rcases h.candidate_inv hcand with ⟨hcand₀, hterm₀, hlog⟩ | ⟨hi, hnode, _⟩
    · rw [lastLogTermIndexLocked, lastIndexLocked, hlog]
      exact ha.voteCall c hold hcand₀ (hterm₀.symm.trans hterm)
    · -- an older call cannot carry the term of an election that starts now
      have hnext : c.args.term = (s.nodes c.caller).currentTerm + 1 := by
        rw [← hterm, hnode]
        rfl
      exact absurd (hnext ▸ hs.ran_of_call hold) (hs.not_ran_next hi)
  cases h with
  | startElection i hi =>
    rcases List.mem_append.mp hc with hc | hc
    · exact hkeep hc
    · obtain ⟨q, _, rfl⟩ := List.mem_map.mp hc
      show _ = (Function.update s.nodes i _ i).lastLogTermIndexLocked
      rw [Function.update_self]
      rfl
  | _ => exact hkeep hc

/-- A grant that was just given: the voter's log did not change and is not more up to
    date than the candidate's. -/
theorem RequestVoteOutcome.upToDate {r r' : Raft σ} {args : RequestVoteArgs}
    {reply : RequestVoteReply} (h : RequestVoteOutcome r args r' reply)
    (hyes : reply.voteGranted = true) :
    r'.log = r.log ∧ r.candidateUpToDateLocked args = true := by
  cases h with
  | refused _ hno => rw [hno] at hyes; cases hyes
  | adopted _ _ hno => rw [hno] at hyes; cases hyes
  | granted _ _ _ hup => exact ⟨rfl, hup⟩
  | adoptedGranted _ _ hup => exact ⟨rfl, hup⟩

theorem Acks.step_vote (hs : Sound C s g) (ha : Acks C s g) (h : Transition C s o s') :
    ∀ p u c, Voted s' p u c → (g.observe s' o).leader u = none →
      (s'.nodes c).state = .candidate → (s'.nodes c).currentTerm = u →
      VoteOK s' (g.observe s' o) p u (s'.nodes c).log := by
  intro p u c hvoted hunled' hcand hterm
  have hunled : g.leader u = none := by
    cases hled : g.leader u with
    | none => rfl
    | some d => rw [(hs.le h).1 u d hled] at hunled'; cases hunled'
  have hkeep : (s.nodes c).state = .candidate → (s.nodes c).currentTerm = u →
      (s'.nodes c).log = (s.nodes c).log → Voted s p u c →
      VoteOK s' (g.observe s' o) p u (s'.nodes c).log := fun hcand₀ hterm₀ hlog hold =>
    (ha.vote p u c hold hunled hcand₀ hterm₀).step hs h (hold.mem hs.basic hs.votes).1
      (hold.pinned hs.votes).le (hlog ▸ List.prefix_rfl)
  rcases h.candidate_inv hcand with ⟨hcand₀, hterm₀, hlog⟩ | ⟨hc, hnode, _⟩
  · -- the candidate was one already: the vote is old, or was granted now
    have hterm₁ : (s.nodes c).currentTerm = u := hterm₀.symm.trans hterm
    rcases hvoted with hg | ⟨rfl, hran⟩
    · rcases h.granted_inv hs.votes.replyCall hg with
        hold | ⟨call, reply, hcall, rfl, hu, rfl, hcur, hr, hyes⟩
      · exact hkeep hcand₀ hterm₁ hlog (Or.inl hold)
      -- the voter compared logs, and neither log changed in this step
      · obtain ⟨hsame, hup⟩ := hr.upToDate hyes
        have hci := hs.basic.voteCaller call hcall
        obtain ⟨k, hk⟩ := List.mem_iff_getElem?.mp hcall
        have hpi := hs.basic.callee_mem hk
        have hargs := Prod.mk.inj (ha.voteCall call hcall hcand₀ (hterm₁.trans hu.symm))
        rw [candidateUpToDateLocked_iff, hargs.1, hargs.2, ← hsame] at hup
        simp only [lastIndexLocked, ← hlog] at hup
        have hs' := hs.step h
        have hbound := hs'.logs.candidate _ hci hcand
        rw [hterm] at hbound
        exact VoteOK.carry hs' (hs'.logs.node _ hpi) (hs'.logs.node _ hci) hbound hup
          (VoteOK.own hs ha h hpi hcur hsame hunled')
    · rcases h.ran_inv hran with hold | ⟨_, hnext, _⟩
      · exact hkeep hcand₀ hterm₁ hlog (Or.inr ⟨rfl, hold⟩)
      · omega
  · -- the election started now: only the candidate itself has voted
    have hu : u = (s.nodes c).currentTerm + 1 := by
      rw [← hterm, hnode]
      rfl
    subst hu
    have hnot := hs.not_ran_next hc
    rcases hvoted with hg | ⟨rfl, _⟩
    · rcases h.granted_inv hs.votes.replyCall hg with
        hold | ⟨call, reply, hcall, rfl, hu, rfl, _⟩
      · exact absurd (hold.ran hs) hnot
      · exact absurd (hu ▸ hs.ran_of_call hcall) hnot
    · exact VoteOK.own hs ha h hc (Nat.le_succ _) (by rw [hnode]; rfl) hunled'

/-- **Step lemma** for acknowledgements. -/
theorem Acks.step (hs : Sound C s g) (ha : Acks C s g) (h : Transition C s o s') :
    Acks C s' (g.observe s' o) where
  keeps := ha.step_keeps hs h
  voteCall := ha.step_voteCall hs h
  vote := ha.step_vote hs h
  quorum u c hled := by
    rcases hs.leaders.observe_inv (hs.leadership h) hled with hold | ⟨he, rfl⟩
    · obtain ⟨Q, hQ, hvotes⟩ := ha.quorum u c hold
      refine ⟨Q, hQ, fun p hp => ?_⟩
      obtain ⟨hvoted, hok⟩ := hvotes p hp
      exact ⟨h.voted_mono hvoted, hok.step hs h (hvoted.mem hs.basic hs.votes).1
        (hvoted.pinned hs.votes).le ((hs.le h).2 u)⟩
    -- the votes were fine for the candidate's log, which is the new leader's log
    · obtain ⟨Q, hQ, hvotes⟩ := he.quorum
      refine ⟨Q, hQ, fun p hp => ?_⟩
      have hvoted := hvotes p hp
      have hok := ha.vote p _ c hvoted (he.unled hs.votes hs.leaders) he.candidate rfl
      have hown := (hs.step h).logs.leader c he.mem he.state
      rw [he.term, he.log] at hown
      refine ⟨h.voted_mono hvoted, hok.step hs h (hvoted.mem hs.basic hs.votes).1
        (hvoted.pinned hs.votes).le ?_⟩
      rw [hown]

theorem acks_init (storages : NodeID → σ) : Acks C (System.init C storages) History.init where
  keeps p t n hacked := by
    rcases hacked with ⟨hled, _⟩ | ⟨k, reply, call, hmem, _⟩
    · simp [History.init] at hled
    · simp [System.init] at hmem
  voteCall c hc := by simp [System.init] at hc
  vote p u c _ _ hst := by
    rw [init_state] at hst
    cases hst
  quorum u c hled := by simp [History.init] at hled

end Steps

end EventLog.Raft
