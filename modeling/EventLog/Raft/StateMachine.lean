import EventLog.Raft.Completeness

/-!
# State machine safety

A commit index always lies below an entry that a majority acknowledged, in the log of
the node that holds it.  Leader completeness then makes all nodes apply the same
commands, and keeps what is committed in every later leader's log.
-/

namespace EventLog.Raft

open EventLog.Lib

variable {σ : Type}

/-! ## The commit invariant -/

/-- Everything up to index `c` is committed by a term up to `b` and held in `log`. -/
def CommittedUpTo (C : Cluster) (s : System σ) (g : History) (b c : Nat) (log : List LogEntry) :
    Prop :=
  c = 0 ∨ ∃ t n, Committed C s g t n ∧ c ≤ n ∧ t ≤ b ∧ g.upTo t c <+: log

/-- The message carries the command committed at its index. -/
def Carries (C : Cluster) (s : System σ) (g : History) (msg : ApplyMsg) : Prop :=
  ∃ t n e, Committed C s g t n ∧ msg.commandIndex ≤ n ∧
    (g.leaderLog t)[msg.commandIndex]? = some e ∧ e.command = msg.command

/-- The commit invariant. -/
structure Commits (C : Cluster) (s : System σ) (g : History) : Prop where
  matched : ∀ i ∈ C.ids, (s.nodes i).state = .leader → ∀ p n, 0 < n →
    n ≤ (s.nodes i).matchIndex p → Acked s g p (s.nodes i).currentTerm n
  commit : ∀ i ∈ C.ids,
    CommittedUpTo C s g (s.nodes i).currentTerm (s.nodes i).commitIndex (s.nodes i).log
  call : ∀ c ∈ s.appendCalls,
    CommittedUpTo C s g c.args.term c.args.leaderCommit (g.leaderLog c.args.term)
  applied : ∀ i msg, (i, msg) ∈ s.applied → Carries C s g msg

/-! ## Consequences -/

section Agreement

variable [ReliableStorage σ] {C : Cluster} {s s' : System σ} {o : Option NodeID} {g : History}
  {t t' n n' : Nat}

theorem Committed.led (hs : Sound C s g) (hc : Committed C s g t n) :
    ∃ c, g.leader t = some c := by
  obtain ⟨_, Q, hQ, hacked⟩ := hc
  obtain ⟨p, hp, _⟩ := hQ.inter hQ
  exact (hacked p hp).led hs

omit [ReliableStorage σ] in
theorem Committed.lt (hc : Committed C s g t n) : n < (g.leaderLog t).length := by
  obtain ⟨⟨e, he, _⟩, _⟩ := hc
  exact (List.getElem?_eq_some_iff.mp he).1

/-- Two committed prefixes agree as far as both reach. -/
theorem Committed.agree (hs : Sound C s g) (ha : Acks C s g) (hc : Committed C s g t n)
    (hc' : Committed C s g t' n') {k : Nat} (hk : k ≤ n) (hk' : k ≤ n') :
    g.upTo t k = g.upTo t' k := by
  -- the prefix committed by the earlier term is in the later leader's log
  have key : ∀ {t t' n : Nat}, Committed C s g t n → (∃ c, g.leader t' = some c) → t ≤ t' →
      k ≤ n → g.upTo t k = g.upTo t' k := by
    intro t t' n hc ⟨c, hled⟩ hle hk
    obtain ⟨rest, hrest⟩ := ha.complete hc t' c hle hled
    have hlt := hc.lt
    have hlen : (g.upTo t n).length = n + 1 := by
      rw [History.upTo, List.length_take]
      omega
    unfold History.upTo
    rw [← hrest, List.take_append_of_le_length (by omega), History.upTo, List.take_take,
      Nat.min_eq_left (by omega)]
  -- the later of the two terms has both prefixes
  rcases Nat.le_total t t' with hle | hle
  · exact key hc (hc'.led hs) hle hk
  · exact (key hc' (hc.led hs) hle hk').symm

theorem History.getElem?_upTo (g : History) (t k : Nat) :
    (g.upTo t k)[k]? = (g.leaderLog t)[k]? :=
  List.getElem?_take_of_lt (Nat.lt_succ_self k)

/-- Messages applied at one index carry one command. -/
theorem Commits.applied_agree (hs : Sound C s g) (ha : Acks C s g) (hc : Commits C s g)
    {i j : NodeID} {m m' : ApplyMsg} (hm : (i, m) ∈ s.applied) (hm' : (j, m') ∈ s.applied)
    (hidx : m.commandIndex = m'.commandIndex) : m.command = m'.command := by
  obtain ⟨t, n, e, hcom, hle, he, hcmd⟩ := hc.applied i m hm
  obtain ⟨t', n', e', hcom', hle', he', hcmd'⟩ := hc.applied j m' hm'
  have hagree := hcom.agree hs ha hcom' hle (hidx ▸ hle')
  rw [← g.getElem?_upTo, hagree, g.getElem?_upTo, hidx, he'] at he
  rw [← hcmd, ← hcmd', Option.some.inj he]

end Agreement

/-! ## Preservation -/

section Steps

variable [ReliableStorage σ] {C : Cluster} {s s' : System σ} {o : Option NodeID} {g : History}
  {p : NodeID} {t n : Nat}

theorem Transition.acked_mono (hs : Sound C s g) (h : Transition C s o s')
    (ha : Acked s g p t n) : Acked s' (g.observe s' o) p t n := by
  rcases ha with ⟨hled, hn⟩ | ⟨k, reply, call, hmem, hcall, rest⟩
  · exact Or.inl ⟨(hs.le h).1 t p hled, Nat.lt_of_lt_of_le hn ((hs.le h).2 t).length_le⟩
  · exact Or.inr ⟨k, reply, call, h.appendReplies_mono.subset hmem,
      getElem?_mono h.appendCalls_mono hcall, rest⟩

theorem Committed.step (hs : Sound C s g) (h : Transition C s o s') (hc : Committed C s g t n) :
    Committed C s' (g.observe s' o) t n := by
  have hlt := hc.lt
  obtain ⟨hown, Q, hQ, hacked⟩ := hc
  exact ⟨(History.own_grow (hs.le h) hlt).mpr hown, Q, hQ,
    fun p hp => h.acked_mono hs (hacked p hp)⟩

theorem CommittedUpTo.step (hs : Sound C s g) (h : Transition C s o s') {b b' c : Nat}
    {log log' : List LogEntry} (hc : CommittedUpTo C s g b c log) (hb : b ≤ b')
    (hlog : ∀ t n, Committed C s g t n → c ≤ n → t ≤ b → g.upTo t c <+: log →
      g.upTo t c <+: log') :
    CommittedUpTo C s' (g.observe s' o) b' c log' := by
  rcases hc with hzero | ⟨t, n, hcom, hcn, htb, hpre⟩
  · exact Or.inl hzero
  · refine Or.inr ⟨t, n, hcom.step hs h, hcn, Nat.le_trans htb hb, ?_⟩
    rw [History.upTo_grow (hs.le h) (Nat.lt_of_le_of_lt hcn hcom.lt)]
    exact hlog t n hcom hcn htb hpre

theorem History.upTo_mono (g : History) (t : Nat) {k k' : Nat} (h : k ≤ k') :
    g.upTo t k <+: g.upTo t k' :=
  List.take_prefix_take_left (by omega)

/-- **Committed entries stay**: no transition takes a committed prefix out of a log that
    holds it. -/
theorem Committed.kept (hs : Sound C s g) (ha : Acks C s g) (h : Transition C s o s')
    {i : NodeID} (hi : i ∈ C.ids) {c : Nat} (hc : Committed C s g t n) (hcn : c ≤ n)
    (ht : t ≤ (s.nodes i).currentTerm) (hpre : g.upTo t c <+: (s.nodes i).log) :
    g.upTo t c <+: (s'.nodes i).log := by
  cases h.logStep hs.basic hi with
  | same hsame => exact hsame ▸ hpre
  | extended command _ _ hext =>
    rw [hext]
    exact hpre.trans (List.prefix_append _ _)
  | merged call hcall _ hcur hprev hterm hlog _ =>
    -- the sender leads a term that is not earlier, so it holds the prefix as well
    have hsender := ha.complete hc call.args.term call.caller (Nat.le_trans ht hcur)
      (hs.leaders.appendCall call hcall)
    rw [hlog]
    exact (hs.logs.merged hs.leaders hcall hi hprev hterm).keeps hpre
      ((g.upTo_mono t hcn).trans hsender)

theorem Commits.step_matched (hs : Sound C s g) (hc : Commits C s g) (h : Transition C s o s') :
    ∀ i ∈ C.ids, (s'.nodes i).state = .leader → ∀ p n, 0 < n →
      n ≤ (s'.nodes i).matchIndex p →
      Acked s' (g.observe s' o) p (s'.nodes i).currentTerm n := by
  intro i hi hst p n hpos hn
  have hmono := fun t => h.acked_mono hs (p := p) (t := t) (n := n)
  have hold := hc.matched i hi
  have hstep := h.node i
  generalize s'.nodes i = r' at hstep hst hn ⊢
  cases hstep.leader hst with
  | kept _ hlead hterm _ _ hmatch =>
    rw [hmatch] at hn
    rw [hterm]
    exact hmono _ (hold hlead p n hpos hn)
  -- a new leader knows of no match yet
  | elected => exact absurd hn (Nat.not_le.mpr hpos)
  | matched k call reply hlead hmem hcall hterm hsucc =>
    refine hmono _ ?_
    replace hn : n ≤ Function.update (s.nodes i).matchIndex call.callee
      (call.args.prevLogIndex + call.args.entries.length) p := hn
    -- the entry set by this reply is acknowledged by it
    by_cases hp : p = call.callee
    · subst hp
      rw [Function.update_self] at hn
      exact Or.inr ⟨k, reply, call, hmem, hcall, hsucc, rfl, hterm.symm, hn⟩
    · rw [Function.update_of_ne hp] at hn
      exact hold hlead p n hpos hn
  | backedUp k call reply v hlead => exact hmono _ (hold hlead p n hpos hn)

omit [ReliableStorage σ] in
/-- `advanceCommitLocked` leaves the commit index or moves it to an entry of the current
    term that a majority is known to hold. -/
theorem advanceCommitLoop_cases (r : Raft σ) (m : Nat) :
    r.advanceCommitLoop m = r.commitIndex ∨
      (r.commitIndex < r.advanceCommitLoop m ∧ r.advanceCommitLoop m ≤ m ∧
        termAt r.log (r.advanceCommitLoop m) = r.currentTerm ∧
        r.majority ≤ r.replicaCount (r.advanceCommitLoop m)) := by
  induction m with
  | zero => exact Or.inl rfl
  | succ m ih =>
    unfold advanceCommitLoop
    have hlift := ih.imp_right fun ⟨h1, h2, h3⟩ => (⟨h1, Nat.le_succ_of_le h2, h3⟩ :
      r.commitIndex < r.advanceCommitLoop m ∧ r.advanceCommitLoop m ≤ m + 1 ∧
        termAt r.log (r.advanceCommitLoop m) = r.currentTerm ∧
        r.majority ≤ r.replicaCount (r.advanceCommitLoop m))
    -- down to `commitIndex`: wrong term, found, too few replicas, end of the loop
    split_ifs with hgt hterm hmaj
    · exact hlift
    · exact Or.inr ⟨hgt, Nat.le_refl _, not_not.mp hterm, hmaj⟩
    · exact hlift
    · exact Or.inl rfl

/-- The peers counted by the leader, with the leader, are a majority of the members. -/
theorem Sound.replica_majority (hs : Sound C s g) {i : NodeID} (hi : i ∈ C.ids)
    (hmaj : (s.nodes i).majority ≤ (s.nodes i).replicaCount n) :
    IsMajority C.members
      (insert i ((s.nodes i).peers.filter fun p => (s.nodes i).matchIndex p ≥ n).toFinset) := by
  have hpeers := hs.basic.peers i hi
  have hmem : ∀ q ∈ ((s.nodes i).peers.filter fun p => (s.nodes i).matchIndex p ≥ n).toFinset,
      q ∈ C.ids ∧ q ≠ i := by
    intro q hq
    rw [List.mem_toFinset, List.mem_filter, hpeers] at hq
    exact (C.mem_peers i hi q).mp hq.1
  -- the leader is not among its peers, so it adds one to the count
  refine ⟨?_, ?_⟩
  · intro q hq
    rw [Cluster.mem_members]
    rcases Finset.mem_insert.mp hq with rfl | hq
    · exact hi
    · exact (hmem q hq).1
  · rw [Finset.card_insert_of_notMem fun hin => (hmem i hin).2 rfl,
      List.toFinset_card_of_nodup ((hpeers ▸ C.peers_nodup i hi).filter _),
      Cluster.card_members hi]
    rw [Raft.majority, Raft.clusterSize, Raft.replicaCount, hpeers] at hmaj
    rw [hpeers]
    omega

/-- An own entry that a leader counts on a majority is committed. -/
theorem Sound.committed_of_replicas (hs : Sound C s g) {i : NodeID} (hi : i ∈ C.ids)
    (hst : (s.nodes i).state = .leader)
    (hacked : ∀ p, n ≤ (s.nodes i).matchIndex p → Acked s g p (s.nodes i).currentTerm n)
    (hlen : n < (s.nodes i).log.length) (hterm : termAt (s.nodes i).log n = (s.nodes i).currentTerm)
    (hmaj : (s.nodes i).majority ≤ (s.nodes i).replicaCount n) :
    Committed C s g (s.nodes i).currentTerm n := by
  have hown := hs.logs.leader i hi hst
  obtain ⟨e, hget⟩ : ∃ e, (s.nodes i).log[n]? = some e := ⟨_, List.getElem?_eq_getElem hlen⟩
  refine ⟨⟨e, hown.symm ▸ hget, ?_⟩, _, hs.replica_majority hi hmaj, fun q hq => ?_⟩
  · -- the entry is of the leader's own term, as the loop requires
    rw [← termAt_eq hget, hterm]
  · rcases Finset.mem_insert.mp hq with rfl | hq
    · exact Or.inl ⟨hs.leaders.leader q hi hst, hown.symm ▸ hlen⟩
    · rw [List.mem_toFinset, List.mem_filter, decide_eq_true_eq] at hq
      exact hacked q hq.2

/-- The commit index a leader moved to in `advanceCommitLocked`. -/
theorem CommittedUpTo.advance (hs : Sound C s g) {i : NodeID} (hi : i ∈ C.ids)
    (hst : (s.nodes i).state = .leader)
    (hacked : ∀ p n, 0 < n → n ≤ (s.nodes i).matchIndex p →
      Acked s g p (s.nodes i).currentTerm n)
    {r : Raft σ} (hnode : s.nodes i = r.advanceCommitLocked)
    (hmoved : r.advanceCommitLoop r.lastIndexLocked ≠ r.commitIndex) :
    CommittedUpTo C s g (s.nodes i).currentTerm (s.nodes i).commitIndex (s.nodes i).log := by
  have hidx : (s.nodes i).commitIndex = r.advanceCommitLoop r.lastIndexLocked := by
    rw [hnode]; rfl
  have hlog : (s.nodes i).log = r.log := by rw [hnode]; rfl
  have hcur : (s.nodes i).currentTerm = r.currentTerm := by rw [hnode]; rfl
  have hmajority : (s.nodes i).majority = r.majority := by rw [hnode]; rfl
  have hcount : ∀ m, (s.nodes i).replicaCount m = r.replicaCount m := by
    rw [hnode]
    exact fun _ => rfl
  -- everything the loop looked at is unchanged by it
  rcases advanceCommitLoop_cases r r.lastIndexLocked with heq | ⟨hgt, hle, hterm, hmaj⟩
  · exact absurd heq hmoved
  · rw [← hidx] at hgt hle hterm hmaj
    rw [← hlog, ← hcur] at hterm
    rw [← hmajority, ← hcount] at hmaj
    have hpos := (hs.logs.node i hi).length_pos
    rw [lastIndexLocked, ← hlog] at hle
    have hcom := hs.committed_of_replicas hi hst
      (fun p hp => hacked p _ (Nat.zero_lt_of_lt hgt) hp) (by omega) hterm hmaj
    refine Or.inr ⟨_, _, hcom, Nat.le_refl _, Nat.le_refl _, ?_⟩
    rw [History.upTo, hs.logs.leader i hi hst]
    exact List.take_prefix _ _

/-- The commit index a follower takes over from a call it accepted. -/
theorem CommittedUpTo.adopt (hs : Sound C s g) (hc : Commits C s g) {call : AppendCall}
    (hcall : call ∈ s.appendCalls) {i : NodeID} (hi : i ∈ C.ids)
    (hprev : call.args.prevLogIndex ≤ (s.nodes i).log.length - 1)
    (hterm : termAt (s.nodes i).log call.args.prevLogIndex = call.args.prevLogTerm) :
    CommittedUpTo C s g call.args.term
      (min call.args.leaderCommit (call.args.prevLogIndex + call.args.entries.length))
      (mergeEntries (s.nodes i).log (call.args.prevLogIndex + 1) call.args.entries).1 := by
  -- bounded by `lastNew`, the index lies in the part the merge took from the sender
  rcases hc.call call hcall with hzero | ⟨t, n, hcom, hcn, htb, hpre⟩
  · left
    omega
  · -- what the sender had committed is in its log, and this part of it in the follower's
    refine Or.inr ⟨t, n, hcom, by omega, htb, ?_⟩
    have hmerged := hs.logs.merged hs.leaders hcall hi hprev hterm
    refine List.IsPrefix.trans (List.prefix_take_iff.mpr ⟨?_, ?_⟩) hmerged.holds
    · exact (g.upTo_mono t (Nat.min_le_left _ _)).trans hpre
    · rw [History.upTo, List.length_take]
      omega

theorem Commits.step_commit (hs : Sound C s g) (ha : Acks C s g) (hc : Commits C s g)
    (h : Transition C s o s') :
    ∀ i ∈ C.ids, CommittedUpTo C s' (g.observe s' o) (s'.nodes i).currentTerm
      (s'.nodes i).commitIndex (s'.nodes i).log := by
  intro i hi
  have hs' := hs.step h
  have hmatched := hc.step_matched hs h i hi
  -- an unchanged commit index in a term that did not go back
  have hsame : ∀ b c, (s.nodes i).currentTerm ≤ b → c = (s.nodes i).commitIndex →
      CommittedUpTo C s' (g.observe s' o) b c (s'.nodes i).log := by
    rintro b _ hb rfl
    exact (hc.commit i hi).step hs h hb fun t n hcom hcn ht hpre =>
      hcom.kept hs ha h hi hcn ht hpre
  have hstep := h.node i
  have hadvance : ∀ r : Raft σ, (s'.nodes i).state = .leader → s'.nodes i = r.advanceCommitLocked →
      r.advanceCommitLoop r.lastIndexLocked ≠ r.commitIndex → CommittedUpTo C s' (g.observe s' o)
        (s'.nodes i).currentTerm (s'.nodes i).commitIndex (s'.nodes i).log :=
    fun r hst hnode hmoved => CommittedUpTo.advance hs' hi hst (hmatched hst) hnode hmoved
  generalize s'.nodes i = r' at hstep hsame hadvance ⊢
  -- all but two of the handlers leave the commit index
  cases hstep with
  | same => exact hsame _ _ (Nat.le_refl _) rfl
  | startElection => exact hsame _ _ (Nat.le_succ _) rfl
  | start command => exact hsame _ _ (Nat.le_refl _) rfl
  | requestVote call r reply _ _ hr =>
    cases hr with
    | refused | granted => exact hsame _ _ (Nat.le_refl _) rfl
    | adopted _ hlt | adoptedGranted _ hlt => exact hsame _ _ (Nat.le_of_lt hlt) rfl
  | appendEntries call r reply hcall _ hr =>
    cases hr with
    | stale => exact hsame _ _ (Nat.le_refl _) rfl
    | rejected _ hle =>
      simp only [persistIf_currentTerm, persistIf_commitIndex, persistIf_log] at hsame ⊢
      exact hsame _ _ hle rfl
    | accepted _ hle hprev hterm =>
      simp only [persistIf_currentTerm, persistIf_commitIndex, persistIf_log] at hsame ⊢
      split_ifs with hgt
      · exact (CommittedUpTo.adopt hs hc hcall hi hprev hterm).step hs h (Nat.le_refl _)
          fun _ _ _ _ _ hpre => hpre
      · exact hsame _ _ hle rfl
  | voteReply call r reply votes votes' _ _ hr =>
    cases hr with
    | ignored | counted | elected => exact hsame _ _ (Nat.le_refl _) rfl
    | steppedDown _ _ hlt => exact hsame _ _ (Nat.le_of_lt hlt) rfl
  | appendReply k call r reply _ _ _ hr =>
    cases hr with
    | ignored | backedUp => exact hsame _ _ (Nat.le_refl _) rfl
    | steppedDown _ _ hlt => exact hsame _ _ (Nat.le_of_lt hlt) rfl
    | matched hcounts =>
      set r := (s.nodes i).recordMatch call.callee
        (call.args.prevLogIndex + call.args.entries.length)
      -- recording the match may or may not move the commit index
      by_cases hmoved : r.advanceCommitLoop r.lastIndexLocked = (s.nodes i).commitIndex
      · exact hsame _ _ (Nat.le_refl _) hmoved
      · exact hadvance _ hcounts.1 rfl hmoved
  | apply r msg _ hr =>
    obtain ⟨_, rfl, _⟩ := applyLoop_eq_some hr
    exact hsame _ _ (Nat.le_refl _) rfl
  -- a restarted node commits from the start again
  | restart =>
    rw [new_eq]
    exact Or.inl rfl

theorem Commits.step_call (hs : Sound C s g) (hc : Commits C s g) (h : Transition C s o s') :
    ∀ c ∈ s'.appendCalls, CommittedUpTo C s' (g.observe s' o) c.args.term c.args.leaderCommit
      ((g.observe s' o).leaderLog c.args.term) := by
  intro c hmem
  have hkeep : ∀ b lc, CommittedUpTo C s g b lc (g.leaderLog b) →
      CommittedUpTo C s' (g.observe s' o) b lc ((g.observe s' o).leaderLog b) :=
    fun b lc hup => hup.step hs h (Nat.le_refl _) fun _ _ _ _ _ hpre =>
      hpre.trans ((hs.le h).2 _)
  cases h with
  | replicateTo i peer hi _ hst =>
    rcases List.mem_append.mp hmem with hc' | hc'
    · exact hkeep _ _ (hc.call c hc')
    · obtain rfl := List.mem_singleton.mp hc'
      -- the leader sends its own commit index
      have hcommit := hc.commit i hi
      rw [← hs.logs.leader i hi hst] at hcommit
      exact hkeep _ _ hcommit
  | _ => exact hkeep _ _ (hc.call c hmem)

theorem Commits.step_applied (hs : Sound C s g) (hc : Commits C s g) (h : Transition C s o s') :
    ∀ i msg, (i, msg) ∈ s'.applied → Carries C s' (g.observe s' o) msg := by
  intro i msg hmem
  have hkeep : Carries C s g msg → Carries C s' (g.observe s' o) msg := by
    rintro ⟨t, n, e, hcom, hle, he, hcmd⟩
    exact ⟨t, n, e, hcom.step hs h, hle, getElem?_mono ((hs.le h).2 t) he, hcmd⟩
  cases h with
  | apply j r msg' hj hr =>
    rcases List.mem_append.mp hmem with hm | hm
    · exact hkeep (hc.applied i msg hm)
    · obtain ⟨rfl, rfl⟩ := Prod.mk.inj (List.mem_singleton.mp hm)
      obtain ⟨hlt, _, rfl⟩ := applyLoop_eq_some hr
      rcases hc.commit i hj with hzero | ⟨t, n, hcom, hcn, _, hpre⟩
      · omega
      · -- the applied entry lies in the committed prefix of the node's log
        have hlen := hcom.lt
        obtain ⟨e, hget⟩ : ∃ e, (g.leaderLog t)[(s.nodes i).lastApplied + 1]? = some e :=
          ⟨_, List.getElem?_eq_getElem (by omega)⟩
        have hlog : (s.nodes i).log[(s.nodes i).lastApplied + 1]? = some e := by
          refine getElem?_mono hpre ?_
          rw [History.upTo, List.getElem?_take_of_lt (by omega)]
          exact hget
        refine hkeep ⟨t, n, e, hcom, Nat.le_trans hlt hcn, hget, ?_⟩
        rw [List.getD_eq_getElem?_getD, hlog]
        rfl
  | _ => exact hkeep (hc.applied i msg hmem)

/-- **Step lemma** for commits. -/
theorem Commits.step (hs : Sound C s g) (ha : Acks C s g) (hc : Commits C s g)
    (h : Transition C s o s') : Commits C s' (g.observe s' o) where
  matched := hc.step_matched hs h
  commit := hc.step_commit hs ha h
  call := hc.step_call hs h
  applied := hc.step_applied hs h

theorem commits_init (storages : NodeID → σ) :
    Commits C (System.init C storages) History.init where
  matched i _ hst := by
    rw [init_state] at hst
    cases hst
  commit i _ := by
    simp only [System.init, new_eq]
    exact Or.inl rfl
  call c hc := by simp [System.init] at hc
  applied i msg hm := by simp [System.init] at hm

end Steps

end EventLog.Raft
