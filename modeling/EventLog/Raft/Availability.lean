import EventLog.Raft.Campaign

/-!
# A majority can always make progress

No state a run leads to is a dead end.  Whatever was lost, delayed, truncated or half
elected before, the members of any majority can from there on, among themselves and without
a crash, elect one of them, and a command handed to it is delivered by all of them
(`majority_makes_progress`).  The nodes outside the majority take no step.

After the election the run is put together from these parts:

* the leader exchanges `AppendEntries` with each member until that member holds its log
  (`Replicating`), which commits the command by the time the last one does;
* one more exchange announces the commit index (`Announcing`);
* everybody applies (`Delivering`).
-/

namespace EventLog.Raft

open EventLog.Lib

variable {σ : Type}

/-! ## Exchanges -/

section Exchange

variable [Storage σ] {T : Nat} {peer : NodeID} {p : Raft σ × Raft σ}

/-- What exchanges with `peer` leave as it was at a leader and a follower of term `T`. -/
structure Undisturbed (T : Nat) (peer : NodeID) (p p' : Raft σ × Raft σ) : Prop where
  state : p'.1.state = .leader
  leaderTerm : p'.1.currentTerm = T
  log : p'.1.log = p.1.log
  peers : p'.1.peers = p.1.peers
  next : ∀ q, q ≠ peer → p'.1.nextIndex q = p.1.nextIndex q
  matched : ∀ q, q ≠ peer → p'.1.matchIndex q = p.1.matchIndex q
  commit : p.1.commitIndex ≤ p'.1.commitIndex
  leaderApplied : p'.1.lastApplied = p.1.lastApplied
  followerTerm : p'.2.currentTerm = T
  followerApplied : p'.2.lastApplied = p.2.lastApplied

omit [Storage σ] in
theorem Undisturbed.trans {p' p'' : Raft σ × Raft σ} (h : Undisturbed T peer p p')
    (h' : Undisturbed T peer p' p'') : Undisturbed T peer p p'' where
  state := h'.state
  leaderTerm := h'.leaderTerm
  log := h'.log.trans h.log
  peers := h'.peers.trans h.peers
  next q hq := (h'.next q hq).trans (h.next q hq)
  matched q hq := (h'.matched q hq).trans (h.matched q hq)
  commit := Nat.le_trans h.commit h'.commit
  leaderApplied := h'.leaderApplied.trans h.leaderApplied
  followerTerm := h'.followerTerm
  followerApplied := h'.followerApplied.trans h.followerApplied

/-- A follower that shares the sender's term answers in it. -/
theorem appendEntries_term {r : Raft σ} {args : AppendEntriesArgs}
    (hterm : r.currentTerm = args.term) :
    (r.appendEntries args).1.currentTerm = args.term ∧
      (r.appendEntries args).2.term = args.term ∧
      (r.appendEntries args).1.lastApplied = r.lastApplied := by
  rw [appendEntries_sameTerm hterm]
  unfold appendChecked
  -- each of the three answers of the consistency check leaves the term and what was applied
  by_cases hshort : args.prevLogIndex > (r.follow args).lastIndexLocked
  · rw [if_pos hshort]
    exact ⟨rfl, rfl, rfl⟩
  · rw [if_neg hshort]
    by_cases hdiffer : termAt (r.follow args).log args.prevLogIndex ≠ args.prevLogTerm
    · rw [if_pos hdiffer]
      exact ⟨rfl, rfl, rfl⟩
    · rw [if_neg hdiffer]
      exact ⟨persistIf_currentTerm _ _, rfl, persistIf_lastApplied _ _⟩

/-- One exchange between a leader and a follower of its term. -/
theorem exchange_undisturbed (hstate : p.1.state = .leader) (hT : p.1.currentTerm = T)
    (hT' : p.2.currentTerm = T) : Undisturbed T peer p (exchange peer p).1 := by
  obtain ⟨args, hargs, hterm⟩ : ∃ args, p.1.replicateTo peer = some args ∧ args.term = T := by
    unfold replicateTo
    rw [if_neg (not_not.mpr hstate)]
    exact ⟨_, rfl, hT⟩
  obtain ⟨hfterm, hrterm, happlied⟩ := appendEntries_term (hT'.trans hterm.symm)
  simp only [exchange, hargs]
  have hr := replicateToReply_outcome p.1 peer args (p.2.appendEntries args).2
  generalize p.1.replicateToReply peer args (p.2.appendEntries args).2 = l at hr
  have hprogress := hr.progress
  -- what the leader makes of the answer concerns this peer only
  cases hr with
  | ignored =>
    exact ⟨hstate, hT, rfl, rfl, fun _ _ => rfl, fun _ _ => rfl, Nat.le_refl _, rfl,
      hfterm.trans hterm, happlied⟩
  | steppedDown _ _ hlt =>
    -- the answer carries no higher term
    rw [hrterm, hterm, hT] at hlt
    exact absurd hlt (Nat.lt_irrefl _)
  | matched =>
    exact ⟨hstate, hT, rfl, rfl, fun q hq => Function.update_of_ne hq ..,
      fun q hq => Function.update_of_ne hq .., hprogress.1, rfl, hfterm.trans hterm, happlied⟩
  | backedUp =>
    exact ⟨hstate, hT, rfl, rfl, fun q hq => Function.update_of_ne hq .., fun _ _ => rfl,
      Nat.le_refl _, rfl, hfterm.trans hterm, happlied⟩

theorem exchanges_undisturbed (hstate : p.1.state = .leader) (hT : p.1.currentTerm = T)
    (hT' : p.2.currentTerm = T) (n : Nat) : Undisturbed T peer p (exchanges peer p n) := by
  induction n with
  | zero =>
    exact ⟨hstate, hT, rfl, rfl, fun _ _ => rfl, fun _ _ => rfl, Nat.le_refl _, rfl, hT', rfl⟩
  | succ n ih =>
    exact ih.trans (exchange_undisturbed ih.state ih.leaderTerm ih.followerTerm)

/-- After an accepted request the leader records the match and looks for a new commit
    index. -/
theorem exchange_success (hT : p.1.currentTerm = T) (hT' : p.2.currentTerm = T)
    (hok : (exchange peer p).2 = some true) :
    ∃ m, (exchange peer p).1.1 = (p.1.recordMatch peer m).advanceCommitLocked := by
  unfold exchange at hok ⊢
  cases hargs : p.1.replicateTo peer with
  | none => simp [hargs] at hok
  | some args =>
    simp only [hargs, Option.some.injEq] at hok ⊢
    obtain ⟨hstate, rfl⟩ := replicateTo_eq_some hargs
    have hsame : p.2.currentTerm = (p.1.sendFrom (max 1 (p.1.nextIndex peer))).term :=
      hT'.trans hT.symm
    obtain ⟨_, hrterm, _⟩ := appendEntries_term hsame
    -- the leader is still the one that sent the request
    have hguard : ¬(p.1.state ≠ .leader ∨
        p.1.currentTerm ≠ (p.1.sendFrom (max 1 (p.1.nextIndex peer))).term) := by
      rw [not_or, not_not, not_not]
      exact ⟨hstate, rfl⟩
    rw [replicateToReply, if_neg hguard, if_neg (by rw [hrterm]; exact Nat.lt_irrefl _),
      if_pos hok]
    exact ⟨_, rfl⟩

omit [Storage σ] in
/-- The commit index reaches the last entry once a majority is known to hold it. -/
theorem commit_lastIndex {r : Raft σ} {n : Nat} (hlast : r.lastIndexLocked = n) (hpos : 0 < n)
    (hterm : termAt r.log n = r.currentTerm) (hmaj : r.majority ≤ r.replicaCount n) :
    n ≤ r.advanceCommitLocked.commitIndex := by
  show n ≤ r.advanceCommitLoop r.lastIndexLocked
  obtain ⟨m, rfl⟩ := Nat.exists_eq_succ_of_ne_zero (Nat.ne_of_gt hpos)
  rw [hlast, advanceCommitLoop, if_neg (not_not.mpr hterm), if_pos hmaj]
  split_ifs with hgt
  · exact Nat.le_refl _
  · exact Nat.le_of_not_lt hgt

end Exchange

section ClusterExchange

variable [ReliableStorage σ] {C : Cluster} {s : System σ} {Q : Finset NodeID} {i p : NodeID}

/-- Any number of exchanges between two members can be carried out. -/
theorem canReach_exchanges (hr : Running C s) (hi : i ∈ Q) (hp : p ∈ Q) (hQ : ∀ q ∈ Q, q ∈ C.ids)
    (hpi : p ≠ i) (n : Nat) :
    ∃ s', CanReach (step C) (Within Q) s s' ∧
      (s'.nodes i, s'.nodes p) = exchanges p (s.nodes i, s.nodes p) n ∧
      ∀ q, q ≠ i → q ≠ p → s'.nodes q = s.nodes q := by
  have key : ∃ s', CanReach (step C) (Within Q) s s' ∧ Running C s' ∧
      (s'.nodes i, s'.nodes p) = exchanges p (s.nodes i, s.nodes p) n ∧
      ∀ q, q ≠ i → q ≠ p → s'.nodes q = s.nodes q := by
    -- one exchange after the other, with the pair of nodes as `exchanges` has them
    refine canReach_iterate (Q := fun k (t : System σ) => Running C t ∧
      (t.nodes i, t.nodes p) = exchanges p (s.nodes i, s.nodes p) k ∧
      ∀ q, q ≠ i → q ≠ p → t.nodes q = s.nodes q) n ?_ ⟨hr, rfl, fun _ _ _ => rfl⟩
    rintro k t _ ⟨hrt, hpair, hothers⟩
    obtain ⟨t', hreach, hpair', hothers'⟩ := canReach_exchange hrt hi hp hQ hpi
    refine ⟨t', hreach, hrt.reach hreach, ?_, fun q hqi hqp => ?_⟩
    · rw [hpair', hpair]
      rfl
    · rw [hothers' q hqi hqp, hothers q hqi hqp]
  obtain ⟨s', hreach, _, hpair, hothers⟩ := key
  exact ⟨s', hreach, hpair, hothers⟩

end ClusterExchange

/-! ## Replicating a command -/

section CatchingUp

variable [Storage σ] {L F : List LogEntry} {T ni : Nat} {peer : NodeID} {p : Raft σ × Raft σ}

/-- The last exchange records that the follower holds the leader's log. -/
theorem Converges.recorded {n : Nat} (h : Converges L F peer p n) (hstate : p.1.state = .leader)
    (hT : p.1.currentTerm = T) (hT' : p.2.currentTerm = T) :
    (exchanges peer p (n + 1)).1 =
      ((exchanges peer p n).1.recordMatch peer (L.length - 1)).advanceCommitLocked := by
  have hframe : Undisturbed T peer p (exchanges peer p n) :=
    exchanges_undisturbed hstate hT hT' n
  obtain ⟨m, hm⟩ := exchange_success hframe.leaderTerm hframe.followerTerm h.succeeds
  replace hm : (exchanges peer p (n + 1)).1 =
    ((exchanges peer p n).1.recordMatch peer m).advanceCommitLocked := hm
  -- the index it recorded is the end of its own log
  have hindex := h.matchIndex
  rw [hm] at hindex
  replace hindex : Function.update (exchanges peer p n).1.matchIndex peer m peer =
    L.length - 1 := hindex
  rw [Function.update_self] at hindex
  rw [hm, hindex]

/-- A follower that holds the leader's log learns of its commit index. -/
theorem CatchingUp.told (h : CatchingUp L F T peer L.length p) (hL : L ≠ []) (hpre : L <+: F)
    (hcommit : L.length - 1 ≤ p.1.commitIndex) :
    L.length - 1 ≤ (exchange peer p).1.2.commitIndex := by
  have hpos := List.length_pos_iff.mpr hL
  have hlen := hpre.length_le
  -- the follower has the leader's entry where the check looks
  have hprev : (p.1.sendFrom L.length).prevLogIndex < p.2.log.length := by
    rw [h.followerLog]
    show L.length - 1 < F.length
    omega
  have hterm : termAt p.2.log (p.1.sendFrom L.length).prevLogIndex =
      (p.1.sendFrom L.length).prevLogTerm := by
    show termAt p.2.log (L.length - 1) = termAt p.1.log (L.length - 1)
    obtain ⟨e, he, _⟩ := getElem?_termAt (show L.length - 1 < L.length by omega)
    rw [h.followerLog, h.leaderLog, termAt_eq he, termAt_eq (getElem?_mono hpre he)]
  rw [h.exchange_eq hpos, appendEntries_matched h.sameTerm hprev hterm, persistIf_commitIndex]
  -- its commit index moves up to the last entry it was sent, or is beyond that already
  show L.length - 1 ≤ if p.1.commitIndex > p.2.commitIndex then
    min p.1.commitIndex (L.length - 1 + (p.1.log.drop L.length).length) else p.2.commitIndex
  split_ifs with hlt
  · exact Nat.le_min.mpr ⟨hcommit, Nat.le_add_right _ _⟩
  · omega

end CatchingUp

/-- `i` leads the members of `Q` in term `T` with the log `L`, whose last entry nobody has
    applied yet. -/
structure InOffice (Q : Finset NodeID) (i : NodeID) (T : Nat) (L : List LogEntry)
    (s : System σ) : Prop where
  state : (s.nodes i).state = .leader
  log : (s.nodes i).log = L
  terms : ∀ q ∈ Q, (s.nodes q).currentTerm = T
  applied : ∀ q ∈ Q, (s.nodes q).lastApplied < L.length - 1

/-- The members in `done` hold the leader's log, and the leader knows. -/
structure Replicating (Q : Finset NodeID) (i : NodeID) (T : Nat) (L : List LogEntry)
    (done : Finset NodeID) (s : System σ) : Prop extends InOffice Q i T L s where
  next : ∀ p ∈ Q.erase i, 1 ≤ (s.nodes i).nextIndex p ∧ (s.nodes i).nextIndex p ≤ L.length
  holds : ∀ p ∈ done, (s.nodes i).matchIndex p = L.length - 1 ∧
    (s.nodes i).nextIndex p = L.length ∧ L <+: (s.nodes p).log
  commit : (s.nodes i).majority ≤ done.card + 1 → L.length - 1 ≤ (s.nodes i).commitIndex

/-- The leader has committed its log, and the members in `done` have learned of it. -/
structure Announcing (Q : Finset NodeID) (i : NodeID) (T : Nat) (L : List LogEntry)
    (done : Finset NodeID) (s : System σ) : Prop extends InOffice Q i T L s where
  next : ∀ p ∈ Q.erase i, (s.nodes i).nextIndex p = L.length
  holds : ∀ p ∈ Q, L <+: (s.nodes p).log
  commit : L.length - 1 ≤ (s.nodes i).commitIndex
  told : ∀ p ∈ done, L.length - 1 ≤ (s.nodes p).commitIndex

section Phases

variable [ReliableStorage σ] {C : Cluster} {s s' : System σ} {Q done : Finset NodeID}
  {i p : NodeID} {T : Nat} {L : List LogEntry}

omit [ReliableStorage σ] in
/-- Exchanges with a member keep the leader in office. -/
theorem InOffice.exchanged (h : InOffice Q i T L s)
    (hframe : Undisturbed T p (s.nodes i, s.nodes p) (s'.nodes i, s'.nodes p))
    (hothers : ∀ q, q ≠ i → q ≠ p → s'.nodes q = s.nodes q) : InOffice Q i T L s' := by
  have hmember : ∀ q ∈ Q, (s'.nodes q).currentTerm = T ∧
      (s'.nodes q).lastApplied = (s.nodes q).lastApplied := by
    -- the leader, the follower of the exchange, or a member that took no part
    intro q hq
    by_cases hqi : q = i
    · rw [hqi]
      exact ⟨hframe.leaderTerm, hframe.leaderApplied⟩
    by_cases hqp : q = p
    · rw [hqp]
      exact ⟨hframe.followerTerm, hframe.followerApplied⟩
    · rw [hothers q hqi hqp]
      exact ⟨h.terms q hq, rfl⟩
  exact ⟨hframe.state, hframe.log.trans h.log, fun q hq => (hmember q hq).1,
    fun q hq => by rw [(hmember q hq).2]; exact h.applied q hq⟩

omit [ReliableStorage σ] in
theorem InOffice.catchingUp [Storage σ] (h : InOffice Q i T L s) (hi : i ∈ Q) (hp : p ∈ Q) :
    CatchingUp L (s.nodes p).log T p ((s.nodes i).nextIndex p) (s.nodes i, s.nodes p) :=
  ⟨h.state, h.log, h.terms i hi, rfl, rfl, h.terms p hp⟩

omit [ReliableStorage σ] in
/-- The leader counts every member that is known to hold its last entry. -/
theorem card_le_replicaCount {r : Raft σ} {A : Finset NodeID} {n : Nat}
    (h : ∀ q ∈ A, q ∈ r.peers ∧ n ≤ r.matchIndex q) : A.card + 1 ≤ r.replicaCount n := by
  have hsub : A ⊆ (r.peers.filter fun q => r.matchIndex q ≥ n).toFinset := by
    intro q hq
    rw [List.mem_toFinset, List.mem_filter, decide_eq_true_eq]
    exact h q hq
  have hcard := Nat.le_trans (Finset.card_le_card hsub) (List.toFinset_card_le _)
  rw [Raft.replicaCount]
  omega

theorem update_congr {f f' : NodeID → Nat} (h : ∀ q, q ≠ p → f' q = f q) (v : Nat) :
    Function.update f' p v = Function.update f p v := by
  funext q
  by_cases hqp : q = p
  · rw [hqp, Function.update_self, Function.update_self]
  · rw [Function.update_of_ne hqp, Function.update_of_ne hqp, h q hqp]

/-- One more member takes over the leader's log. -/
theorem Replicating.extend (hr : Running C s) (h : Replicating Q i T L done s) (hi : i ∈ Q)
    (hQ : ∀ q ∈ Q, q ∈ C.ids) (hlast : termAt L (L.length - 1) = T) (hlen : 1 < L.length)
    (hsub : insert p done ⊆ Q.erase i) :
    ∃ s', CanReach (step C) (Within Q) s s' ∧ Replicating Q i T L (insert p done) s' := by
  have hpQ := hsub (Finset.mem_insert_self p done)
  have hpi := Finset.ne_of_mem_erase hpQ
  have hpmem := Finset.mem_of_mem_erase hpQ
  -- the logs match and are ordered by term, so the exchanges converge
  obtain ⟨g, hg⟩ := hr.inv
  have hordered := hg.termsOrdered (hQ i hi)
  have hmatch := hg.logsMatch (hQ p hpmem) (hQ i hi)
  rw [h.log] at hordered hmatch
  obtain ⟨n, -, hconv⟩ := (h.catchingUp hi hpmem).exists_converges (h.next p hpQ).1
    (h.next p hpQ).2 hordered (hg.termsOrdered (hQ p hpmem)) hmatch
  obtain ⟨s', hreach, hpair, hothers⟩ := canReach_exchanges hr hi hpmem hQ hpi (n + 1)
  have hframe : ∀ k, Undisturbed T p (s.nodes i, s.nodes p)
      (exchanges p (s.nodes i, s.nodes p) k) :=
    exchanges_undisturbed h.state (h.terms i hi) (h.terms p hpmem)
  have hlead := hconv.recorded h.state (h.terms i hi) (h.terms p hpmem)
  have hoffice : InOffice Q i T L s' := h.exchanged (by rw [hpair]; exact hframe _) hothers
  rw [← hpair] at hlead
  replace hlead : s'.nodes i = ((exchanges p (s.nodes i, s.nodes p) n).1.recordMatch p
    (L.length - 1)).advanceCommitLocked := hlead
  -- what the leader knows of the other members stays, and `p` holds its log now
  have hmatchIndex : (s'.nodes i).matchIndex =
      Function.update (s.nodes i).matchIndex p (L.length - 1) := by
    rw [hlead]
    exact update_congr (hframe n).matched _
  have hnextIndex : (s'.nodes i).nextIndex = Function.update (s.nodes i).nextIndex p L.length := by
    rw [hlead]
    refine (update_congr (hframe n).next _).trans ?_
    rw [Nat.sub_add_cancel (Nat.le_of_lt hlen)]
  have hlog : L <+: (s'.nodes p).log := by
    have hfollower := hconv.log
    rw [← hpair] at hfollower
    have hpre := isPrefix_takeOver L L.length (s.nodes p).log
    rw [List.take_length, ← hfollower] at hpre
    exact hpre
  refine ⟨s', hreach, hoffice, fun q hq => ?_, fun q hq => ?_, fun hmaj => ?_⟩
  · rw [hnextIndex]
    by_cases hqp : q = p
    · rw [hqp, Function.update_self]
      omega
    · rw [Function.update_of_ne hqp]
      exact h.next q hq
  · rw [hmatchIndex, hnextIndex]
    by_cases hqp : q = p
    · rw [hqp, Function.update_self, Function.update_self]
      exact ⟨rfl, rfl, hlog⟩
    · rw [Function.update_of_ne hqp, Function.update_of_ne hqp,
        hothers q (Finset.ne_of_mem_erase (hsub hq)) hqp]
      exact h.holds q (Finset.mem_of_mem_insert_of_ne hq hqp)
  · -- the last of a majority commits the log
    have hlastIndex : ((exchanges p (s.nodes i, s.nodes p) n).1.recordMatch p
        (L.length - 1)).lastIndexLocked = L.length - 1 :=
      congrArg (fun l => List.length l - 1) ((hframe n).log.trans h.log)
    have hcount : (insert p done).card + 1 ≤ (s'.nodes i).replicaCount (L.length - 1) := by
      refine card_le_replicaCount fun q hq => ⟨?_, ?_⟩
      · rw [hlead]
        show q ∈ (exchanges p (s.nodes i, s.nodes p) n).1.peers
        rw [(hframe n).peers, hg.sound.basic.peers i (hQ i hi), C.mem_peers i (hQ i hi)]
        exact ⟨hQ q (Finset.mem_of_mem_erase (hsub hq)), Finset.ne_of_mem_erase (hsub hq)⟩
      · rw [hmatchIndex]
        by_cases hqp : q = p
        · rw [hqp, Function.update_self]
        · rw [Function.update_of_ne hqp]
          exact Nat.le_of_eq (h.holds q (Finset.mem_of_mem_insert_of_ne hq hqp)).1.symm
    have hmaj' := Nat.le_trans hmaj hcount
    rw [hlead] at hmaj' ⊢
    refine commit_lastIndex hlastIndex (by omega) ?_ hmaj'
    show termAt (exchanges p (s.nodes i, s.nodes p) n).1.log (L.length - 1) =
      (exchanges p (s.nodes i, s.nodes p) n).1.currentTerm
    rw [(hframe n).log, (hframe n).leaderTerm, h.log]
    exact hlast

/-- One more member learns of the commit index. -/
theorem Announcing.tell (hr : Running C s) (h : Announcing Q i T L done s) (hi : i ∈ Q)
    (hQ : ∀ q ∈ Q, q ∈ C.ids) (hlen : 1 < L.length) (hsub : insert p done ⊆ Q.erase i) :
    ∃ s', CanReach (step C) (Within Q) s s' ∧ Announcing Q i T L (insert p done) s' := by
  have hpQ := hsub (Finset.mem_insert_self p done)
  have hpi := Finset.ne_of_mem_erase hpQ
  have hpmem := Finset.mem_of_mem_erase hpQ
  obtain ⟨g, hg⟩ := hr.inv
  have hL : L ≠ [] := List.length_pos_iff.mp (by omega)
  have hcatch := h.catchingUp hi hpmem
  rw [h.next p hpQ] at hcatch
  -- the consistency check succeeds at the end of the leader's log
  have hmatch := hg.logsMatch (hQ p hpmem) (hQ i hi)
  rw [h.log] at hmatch
  have hsame : termAt (s.nodes p).log (L.length - 1) = termAt L (L.length - 1) := by
    obtain ⟨e, he, _⟩ := getElem?_termAt (show L.length - 1 < L.length by omega)
    rw [termAt_eq he, termAt_eq (getElem?_mono (h.holds p hpmem) he)]
  have hconv := converges_of_matched hcatch (Nat.le_of_lt hlen) (h.holds p hpmem).length_le
    (Nat.le_refl _) hmatch hsame
  obtain ⟨s', hreach, hpair, hothers⟩ := canReach_exchange hr hi hpmem hQ hpi
  have hframe : Undisturbed T p (s.nodes i, s.nodes p) (s'.nodes i, s'.nodes p) := by
    rw [hpair]
    exact exchange_undisturbed h.state (h.terms i hi) (h.terms p hpmem)
  have hlead : s'.nodes i =
      ((s.nodes i).recordMatch p (L.length - 1)).advanceCommitLocked :=
    (congrArg Prod.fst hpair).trans
      (hconv.recorded h.state (h.terms i hi) (h.terms p hpmem))
  have hfollower : s'.nodes p = (exchange p (s.nodes i, s.nodes p)).1.2 := congrArg Prod.snd hpair
  refine ⟨s', hreach, h.exchanged hframe hothers, fun q hq => ?_, fun q hq => ?_,
    Nat.le_trans h.commit hframe.commit, fun q hq => ?_⟩
  · -- the next index is back at the end of the leader's log
    by_cases hqp : q = p
    · rw [hlead, hqp]
      refine (Function.update_self ..).trans ?_
      exact Nat.sub_add_cancel (Nat.le_of_lt hlen)
    · rw [hframe.next q hqp]
      exact h.next q hq
  · -- the leader's log is as before, and what `p` takes over starts with it
    by_cases hqi : q = i
    · rw [hqi, hframe.log]
      exact hqi ▸ h.holds q hq
    by_cases hqp : q = p
    · have hpre := isPrefix_takeOver L L.length (s.nodes p).log
      rw [List.take_length] at hpre
      have hlog : (exchange p (s.nodes i, s.nodes p)).1.2.log =
        takeOver L L.length (s.nodes p).log := hconv.log
      rw [hqp, hfollower, hlog]
      exact hpre
    · rw [hothers q hqi hqp]
      exact h.holds q hq
  · -- `p` is told of the commit by this exchange
    by_cases hqp : q = p
    · rw [hqp, hfollower]
      exact hcatch.told hL (h.holds p hpmem) h.commit
    · rw [hothers q (Finset.ne_of_mem_erase (hsub hq)) hqp]
      exact h.told q (Finset.mem_of_mem_insert_of_ne hq hqp)

end Phases

/-! ## Delivering the command -/

/-- The members have committed index `n` with the given command, and those in `done` have
    delivered it. -/
structure Delivering (Q : Finset NodeID) (n : Nat) (e : LogEntry) (done : Finset NodeID)
    (s : System σ) : Prop where
  entry : ∀ q ∈ Q, (s.nodes q).log[n]? = some e
  commit : ∀ q ∈ Q, n ≤ (s.nodes q).commitIndex
  waiting : ∀ q ∈ Q, q ∉ done → (s.nodes q).lastApplied < n
  delivered : ∀ q ∈ done, (q, ⟨true, e.command, n⟩) ∈ s.applied

section Delivering

variable [ReliableStorage σ] {C : Cluster} {s : System σ} {Q done : Finset NodeID}
  {i p : NodeID} {n : Nat} {e : LogEntry}

/-- A node applies what it has committed, one entry after the other. -/
theorem canReach_applied (hi : i ∈ Q) (hmem : i ∈ C.ids) (hcommit : n ≤ (s.nodes i).commitIndex)
    (hlt : (s.nodes i).lastApplied < n) (he : (s.nodes i).log[n]? = some e) :
    ∃ s', CanReach (step C) (Within Q) s s' ∧ (∀ q, q ≠ i → s'.nodes q = s.nodes q) ∧
      (s'.nodes i).log = (s.nodes i).log ∧ (s'.nodes i).commitIndex = (s.nodes i).commitIndex ∧
      s.applied <+: s'.applied ∧ (i, ⟨true, e.command, n⟩) ∈ s'.applied := by
  have key : ∃ s', CanReach (step C) (Within Q) s s' ∧ (∀ q, q ≠ i → s'.nodes q = s.nodes q) ∧
      s'.nodes i = { s.nodes i with lastApplied := (s.nodes i).lastApplied +
        (n - (s.nodes i).lastApplied) } ∧
      s.applied <+: s'.applied ∧
      (n = (s.nodes i).lastApplied + (n - (s.nodes i).lastApplied) →
        (i, ⟨true, e.command, n⟩) ∈ s'.applied) := by
    -- one entry after the other, up to index `n`
    refine canReach_iterate (Q := fun k (t : System σ) => (∀ q, q ≠ i → t.nodes q = s.nodes q) ∧
      t.nodes i = { s.nodes i with lastApplied := (s.nodes i).lastApplied + k } ∧
      s.applied <+: t.applied ∧
      (n = (s.nodes i).lastApplied + k → (i, ⟨true, e.command, n⟩) ∈ t.applied))
      (n - (s.nodes i).lastApplied) ?_
      ⟨fun _ _ => rfl, rfl, List.prefix_rfl, fun h => absurd h (Nat.ne_of_gt hlt)⟩
    rintro k t hk ⟨hothers, hself, happlied, _⟩
    -- the loop delivers the next entry, since `n` and all before it are committed
    have hloop : (t.nodes i).applyLoop =
        some ({ s.nodes i with lastApplied := (s.nodes i).lastApplied + (k + 1) },
          { commandValid := true
            command := ((s.nodes i).log.getD ((s.nodes i).lastApplied + (k + 1)) sentinel).command
            commandIndex := (s.nodes i).lastApplied + (k + 1) }) := by
      rw [hself]
      unfold applyLoop
      rw [if_neg (show ¬(s.nodes i).lastApplied + k ≥ (s.nodes i).commitIndex by omega)]
      rfl
    refine ⟨_, .single (e := .apply i) ⟨trivial, i, hi, rfl⟩ (step_applyLoop hmem hloop),
      fun q hq => ?_, Function.update_self .., ?_, fun hn => ?_⟩
    · exact (Function.update_of_ne hq ..).trans (hothers q hq)
    · exact happlied.trans (List.prefix_append _ _)
    · refine List.mem_append_right _ (List.mem_singleton.mpr ?_)
      rw [← hn, List.getD_eq_getElem?_getD, he]
      rfl
  obtain ⟨s', hreach, hothers, hself, happlied, hmsg⟩ := key
  exact ⟨s', hreach, hothers, by rw [hself], by rw [hself], happlied, hmsg (by omega)⟩

/-- One more member delivers the command. -/
theorem Delivering.deliver (h : Delivering Q n e done s) (hQ : ∀ q ∈ Q, q ∈ C.ids)
    (hp : p ∉ done) (hsub : insert p done ⊆ Q) :
    ∃ s', CanReach (step C) (Within Q) s s' ∧ Delivering Q n e (insert p done) s' := by
  have hpQ := hsub (Finset.mem_insert_self p done)
  obtain ⟨s', hreach, hothers, hlog, hcommit, happlied, hmsg⟩ :=
    canReach_applied hpQ (hQ p hpQ) (h.commit p hpQ) (h.waiting p hpQ hp) (h.entry p hpQ)
  -- only `p` moved, and it moved its `lastApplied` only
  refine ⟨s', hreach, fun q hq => ?_, fun q hq => ?_, fun q hq hnew => ?_, fun q hq => ?_⟩
  · by_cases hqp : q = p
    · rw [hqp, hlog]
      exact h.entry p hpQ
    · rw [hothers q hqp]
      exact h.entry q hq
  · by_cases hqp : q = p
    · rw [hqp, hcommit]
      exact h.commit p hpQ
    · rw [hothers q hqp]
      exact h.commit q hq
  · rw [Finset.mem_insert, not_or] at hnew
    rw [hothers q hnew.1]
    exact h.waiting q hq hnew.2
  · by_cases hqp : q = p
    · rw [hqp]
      exact hmsg
    · exact happlied.subset (h.delivered q (Finset.mem_of_mem_insert_of_ne hq hqp))

end Delivering

/-! ## Progress -/

section Progress

variable [ReliableStorage σ] {C : Cluster} {s : System σ} {Q : Finset NodeID} {i : NodeID}
  {T : Nat} {L : List LogEntry}

/-- Nobody has committed more than the leader of its term holds. -/
theorem LeadsMajority.commitIndex_lt (hr : Running C s) (h : LeadsMajority C Q i s)
    (hi : i ∈ C.ids) {q : NodeID} (hq : q ∈ Q) (hqC : q ∈ C.ids) :
    (s.nodes q).commitIndex < (s.nodes i).log.length := by
  obtain ⟨g, hg⟩ := hr.inv
  rcases hg.commits.commit q hqC with hzero | ⟨t, m, hcom, hle, ht, _⟩
  · rw [hzero]
    exact (hg.sound.logs.node i hi).length_pos
  · -- what is committed by a term up to its own, the leader has
    have hheld := hg.acks.complete hcom (s.nodes i).currentTerm i (h.terms q hq ▸ ht)
      (hg.sound.leaders.leader i hi h.state)
    rw [hg.sound.logs.leader i hi h.state] at hheld
    have hlen := hheld.length_le
    rw [hcom.length_upTo (Nat.le_refl _)] at hlen
    omega

/-- After `Start` the leader has its command at the end of its log. -/
theorem LeadsMajority.started (hr : Running C s) (htwo : 2 ≤ C.ids.length)
    (hQ : ∀ q ∈ Q, q ∈ C.ids) (hi : i ∈ Q) (h : LeadsMajority C Q i s) (command : Command) :
    Replicating Q i (s.nodes i).currentTerm
      ((s.nodes i).log ++ [⟨(s.nodes i).currentTerm, command⟩]) ∅
      (s.setNode i ((s.nodes i).extendLog command)) := by
  obtain ⟨g, hg⟩ := hr.inv
  have hmem := hQ i hi
  have hself : (s.setNode i ((s.nodes i).extendLog command)).nodes i =
    (s.nodes i).extendLog command := Function.update_self ..
  have hother : ∀ q, q ≠ i →
      (s.setNode i ((s.nodes i).extendLog command)).nodes q = s.nodes q :=
    fun q hq => Function.update_of_ne hq ..
  have hpos := (hg.sound.logs.node i hmem).length_pos
  -- starting a command changes the leader's log and nothing else
  refine ⟨⟨?_, ?_, fun q hq => ?_, fun q hq => ?_⟩, fun p hp => ?_, by simp, fun hmaj => ?_⟩
  · rw [hself]
    exact h.state
  · rw [hself]
    rfl
  · by_cases hqi : q = i
    · rw [hqi, hself]
      rfl
    · rw [hother q hqi]
      exact h.terms q hq
  · -- nobody has applied more than is committed, and the leader held all that is committed
    have hlt := Nat.lt_of_le_of_lt (hr.ordered.applied q (hQ q hq))
      (h.commitIndex_lt hr hmem hq (hQ q hq))
    rw [List.length_append, List.length_singleton, Nat.add_sub_cancel]
    by_cases hqi : q = i
    · rw [hqi, hself]
      exact hqi ▸ hlt
    · rw [hother q hqi]
      exact hlt
  · have hpC := hQ p (Finset.mem_of_mem_erase hp)
    have hnext := h.next p ((C.mem_peers i hmem p).mpr ⟨hpC, Finset.ne_of_mem_erase hp⟩)
    rw [hself, List.length_append, List.length_singleton]
    show 1 ≤ (s.nodes i).nextIndex p ∧ (s.nodes i).nextIndex p ≤ (s.nodes i).log.length + 1
    omega
  · -- no majority without a member that has answered
    have hpeers := hg.sound.basic.peers i hmem
    have htwo' := two_le_majority (hpeers ▸ C.peers_ne_nil htwo hmem)
    rw [hself] at hmaj
    exact absurd (Nat.le_trans htwo' hmaj) (by simp)

/-- When all members hold the leader's log, it is committed. -/
theorem Replicating.committed (hr : Running C s) (hQ : IsMajority C.members Q) (hi : i ∈ Q)
    (h : Replicating Q i T L (Q.erase i) s) : Announcing Q i T L ∅ s := by
  obtain ⟨g, hg⟩ := hr.inv
  have hmem : i ∈ C.ids := Cluster.mem_members.mp (hQ.1 hi)
  refine ⟨h.toInOffice, fun p hp => (h.holds p hp).2.1, fun p hp => ?_, h.commit ?_, by simp⟩
  · by_cases hpi : p = i
    · rw [hpi, h.log]
    · exact (h.holds p (Finset.mem_erase.mpr ⟨hpi, hp⟩)).2.2
  · -- the leader and all the others of a majority are a majority
    have hcard := Finset.card_erase_add_one hi
    have hmaj := hQ.2
    rw [Cluster.card_members hmem] at hmaj
    rw [Raft.majority, Raft.clusterSize, hg.sound.basic.peers i hmem]
    omega

omit [ReliableStorage σ] in
/-- When all members know of the commit index, they can deliver. -/
theorem Announcing.delivering (h : Announcing Q i T L (Q.erase i) s) {e : LogEntry}
    (he : L[L.length - 1]? = some e) : Delivering Q (L.length - 1) e ∅ s where
  entry q hq := getElem?_mono (h.holds q hq) he
  commit q hq := by
    by_cases hqi : q = i
    · rw [hqi]
      exact h.commit
    · exact h.told q (Finset.mem_erase.mpr ⟨hqi, hq⟩)
  waiting q hq _ := h.applied q hq
  delivered q hq := by simp at hq

/-- A command at the end of the leader's log can be delivered by all members. -/
theorem Replicating.deliverable (hr : Running C s) (hQ : IsMajority C.members Q) (hi : i ∈ Q)
    (h : Replicating Q i T L ∅ s) {e : LogEntry} (he : L[L.length - 1]? = some e)
    (hterm : e.term = T) (hlen : 1 < L.length) :
    ∃ s', CanReach (step C) (Within Q) s s' ∧
      ∀ q ∈ Q, (q, ⟨true, e.command, L.length - 1⟩) ∈ s'.applied := by
  have hsub : ∀ q ∈ Q, q ∈ C.ids := fun q hq => Cluster.mem_members.mp (hQ.1 hq)
  have hlast : termAt L (L.length - 1) = T := (termAt_eq he).trans hterm
  -- each member takes the leader's log over, then hears of the commit, then delivers
  obtain ⟨s₁, hreach₁, hr₁, h₁⟩ := canReach_insert (P := Within Q)
    (Q := fun done t => Running C t ∧ Replicating Q i T L done t) (Q.erase i)
    (fun done p t _ hins ht => by
      obtain ⟨t', hreach, ht'⟩ := ht.2.extend ht.1 hi hsub hlast hlen hins
      exact ⟨t', hreach, ht.1.reach hreach, ht'⟩) ⟨hr, h⟩
  obtain ⟨s₂, hreach₂, _, h₂⟩ := canReach_insert (P := Within Q)
    (Q := fun done t => Running C t ∧ Announcing Q i T L done t) (Q.erase i)
    (fun done p t _ hins ht => by
      obtain ⟨t', hreach, ht'⟩ := ht.2.tell ht.1 hi hsub hlen hins
      exact ⟨t', hreach, ht.1.reach hreach, ht'⟩) ⟨hr₁, h₁.committed hr₁ hQ hi⟩
  obtain ⟨s₃, hreach₃, h₃⟩ := canReach_insert (P := Within Q)
    (Q := fun done t => Delivering Q (L.length - 1) e done t) Q
    (fun done p t hp hins ht => ht.deliver hsub hp hins) (h₂.delivering he)
  exact ⟨s₃, hreach₁.trans (hreach₂.trans hreach₃), h₃.delivered⟩

end Progress

/-- **A majority can always make progress.**  After any run, with at least two nodes, the
    members of any majority can elect one of them without the others; `Start` there answers
    with an index, and from then on all of them can deliver the command at that index. -/
theorem majority_makes_progress [ReliableStorage σ] (C : Cluster) (storages : NodeID → σ)
    (hfresh : ∀ i, Storage.load (storages i) = .ok none) (htwo : 2 ≤ C.ids.length)
    (es : List Event) (s : System σ) (hrun : Reaches C storages es s) (Q : Finset NodeID)
    (hQ : IsMajority C.members Q) (command : Command) :
    ∃ l ∈ Q, ∃ s₁ s₂ s₃ index term, CanReach (step C) (Within Q) s s₁ ∧
      ((s₁.nodes l).start command).2 = (index, term, true) ∧
      step C s₁ (.start l command) = some s₂ ∧ CanReach (step C) (Within Q) s₂ s₃ ∧
      ∀ q ∈ Q, (q, ⟨true, command, index⟩) ∈ s₃.applied := by
  have hsub : ∀ q ∈ Q, q ∈ C.ids := fun q hq => Cluster.mem_members.mp (hQ.1 hq)
  have hr := running_of_run hfresh hrun
  -- a member becomes leader, starts the command, and the entry is carried through
  obtain ⟨l, hl, s₁, hreach, hlead⟩ := exists_leader hr htwo hQ
  have hr₁ := hr.reach hreach
  have hanswer := start_of_leader hlead.state command
  have hstep : step C s₁ (.start l command) =
      some (s₁.setNode l ((s₁.nodes l).extendLog command)) := by
    simp [step, hsub l hl, hanswer]
  obtain ⟨g, hg⟩ := hr₁.inv
  have hpos := (hg.sound.logs.node l (hsub l hl)).length_pos
  -- the command is the last entry of the leader's log
  obtain ⟨s₃, hreach₃, hdelivered⟩ := (hlead.started hr₁ htwo hsub hl command).deliverable
    (hr₁.step hstep) hQ hl (e := ⟨(s₁.nodes l).currentTerm, command⟩) (by simp) rfl
    (by rw [List.length_append, List.length_singleton]; omega)
  refine ⟨l, hl, s₁, _, s₃, _, _, hreach, congrArg Prod.snd hanswer, hstep, hreach₃,
    fun q hq => ?_⟩
  have hmsg := hdelivered q hq
  rwa [List.length_append, List.length_singleton, Nat.add_sub_cancel] at hmsg

/-- Node 1 leads, and has an entry nobody else holds. -/
def unreplicated : List Event :=
  [.startElection 1, .deliverVote 0, .voteReply 0, .start 1 [5]]

/-- The other two nodes go on without it. -/
theorem majority_makes_progress_unreplicated : ∃ s,
    Reaches threeNodes (fun _ => newMemoryStorage) unreplicated s ∧
    (s.nodes 1).state = .leader ∧ IsMajority threeNodes.members {0, 2} ∧
    ∃ l ∈ ({0, 2} : Finset NodeID), ∃ s₁ s₂ s₃ index term,
      CanReach (step threeNodes) (Within {0, 2}) s s₁ ∧
      ((s₁.nodes l).start [6]).2 = (index, term, true) ∧
      step threeNodes s₁ (.start l [6]) = some s₂ ∧
      CanReach (step threeNodes) (Within {0, 2}) s₂ s₃ ∧
      ∀ q ∈ ({0, 2} : Finset NodeID), (q, ⟨true, [6], index⟩) ∈ s₃.applied := by
  have hrun : (run (step threeNodes) (System.init threeNodes fun _ => newMemoryStorage)
      unreplicated).map (fun s => (s.nodes 1).state) = some .leader := by decide
  obtain ⟨s, hs, hstate⟩ := Option.map_eq_some_iff.mp hrun
  have hQ : IsMajority threeNodes.members {0, 2} := ⟨by decide, by decide⟩
  exact ⟨s, hs, hstate, hQ, majority_makes_progress threeNodes _ (fun _ => rfl) (by decide)
    unreplicated s hs {0, 2} hQ [6]⟩

end EventLog.Raft
