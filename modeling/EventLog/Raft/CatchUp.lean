import EventLog.Raft.SameTerm
import Mathlib.Data.List.Dedup

/-!
# A follower catches up

A leader and one of its followers repeat the exchange of `replicateTo`, `AppendEntries` and
the reply, and nothing else happens.  On a rejection the leader adopts the `ConflictIndex` of
the follower without looking at its own log:

* a log that is too short sends it to the end of that log, which happens at most once;
* differing terms send it to the first entry of the follower's term, and every further
  rejection is about an earlier term.

So the terms of the follower's log below `nextIndex` are the measure: each conflict takes
one away (`termsBelow_conflictStart`).
-/

namespace EventLog.Raft

open EventLog.Lib

variable {σ : Type} [Storage σ]

/-! ## The exchange -/

/-- `replicateTo`, the handler at `peer`, and what the leader makes of the reply; `none` when
    nothing was sent, else whether the request was accepted. -/
def exchange (peer : NodeID) (p : Raft σ × Raft σ) : (Raft σ × Raft σ) × Option Bool :=
  match p.1.replicateTo peer with
  | none => (p, none)
  | some args =>
    let (follower, reply) := p.2.appendEntries args
    ((p.1.replicateToReply peer args reply, follower), some reply.success)

/-- The two nodes after `n` exchanges. -/
def exchanges (peer : NodeID) (p : Raft σ × Raft σ) : Nat → Raft σ × Raft σ
  | 0 => p
  | n + 1 => (exchange peer (exchanges peer p n)).1

/-- Terms never decrease behind the sentinel, and are at least 1. -/
structure TermsOrdered (log : List LogEntry) : Prop where
  head : log[0]? = some sentinel
  pos : ∀ i < log.length, 1 ≤ i → 1 ≤ termAt log i
  mono : ∀ j < log.length, ∀ i ≤ j, termAt log i ≤ termAt log j

/-- A leader of term `T` with log `L` that continues at `ni`, and a follower with log `F`. -/
structure CatchingUp (L F : List LogEntry) (T : Nat) (peer : NodeID) (ni : Nat)
    (p : Raft σ × Raft σ) : Prop where
  leads : p.1.state = .leader
  leaderLog : p.1.log = L
  leaderTerm : p.1.currentTerm = T
  next : p.1.nextIndex peer = ni
  followerLog : p.2.log = F
  followerTerm : p.2.currentTerm = T

/-! ## The conflicting term -/

theorem one_le_conflictStart (log : List LogEntry) (t : Nat) {ci : Nat} (h : 1 ≤ ci) :
    1 ≤ conflictStart log t ci := by
  induction ci with
  | zero => exact absurd h (by decide)
  | succ ci ih =>
    rw [conflictStart]
    split_ifs with hskip
    · exact ih (by omega)
    · omega

/-- The loop stops at the first entry of the term. -/
theorem termAt_conflictStart_sub_one {log : List LogEntry} {t ci : Nat} (h : 1 ≤ ci)
    (hne : conflictStart log t ci ≠ 1) : termAt log (conflictStart log t ci - 1) ≠ t := by
  induction ci with
  | zero => exact absurd h (by decide)
  | succ ci ih =>
    rw [conflictStart] at hne ⊢
    split_ifs at hne ⊢ with hskip
    · exact ih (by omega) hne
    · rw [Nat.add_sub_cancel]
      intro hterm
      exact hskip ⟨by omega, hterm⟩

/-- The terms above 0 of the entries below index `n`. -/
def termsBelow (log : List LogEntry) (n : Nat) : Finset Nat :=
  ((log.take n).map LogEntry.term).toFinset.erase 0

/-- The number of distinct terms above 0 in a log. -/
def distinctTerms (log : List LogEntry) : Nat :=
  ((log.map LogEntry.term).filter (0 < ·)).dedup.length

theorem mem_termsBelow {log : List LogEntry} {n t : Nat} :
    t ∈ termsBelow log n ↔ 0 < t ∧ ∃ i, i < n ∧ i < log.length ∧ termAt log i = t := by
  unfold termsBelow
  rw [Finset.mem_erase, List.mem_toFinset, List.mem_map]
  refine and_congr Nat.pos_iff_ne_zero.symm ⟨?_, ?_⟩
  · rintro ⟨e, he, rfl⟩
    obtain ⟨i, hi⟩ := List.mem_iff_getElem?.mp he
    have hlt := (List.getElem?_eq_some_iff.mp hi).1
    rw [List.length_take] at hlt
    rw [List.getElem?_take_of_lt (by omega)] at hi
    exact ⟨i, by omega, by omega, termAt_eq hi⟩
  · rintro ⟨i, hin, hi, rfl⟩
    have hget := List.getElem?_eq_getElem hi
    refine ⟨log[i], List.mem_iff_getElem?.mpr ⟨i, ?_⟩, (termAt_eq hget).symm⟩
    rw [List.getElem?_take_of_lt hin, hget]

theorem card_termsBelow_length (log : List LogEntry) :
    (termsBelow log log.length).card = distinctTerms log := by
  unfold termsBelow distinctTerms
  rw [List.take_length, ← List.toFinset_card_of_nodup (List.nodup_dedup _)]
  congr 1
  ext t
  simp only [Finset.mem_erase, List.mem_toFinset, List.mem_dedup, List.mem_filter,
    decide_eq_true_eq, Nat.pos_iff_ne_zero]
  exact and_comm

/-- **The measure**: a conflict takes a term away. -/
theorem termsBelow_conflictStart {F : List LogEntry} (hF : TermsOrdered F) {prev : Nat}
    (hpos : 1 ≤ prev) (hprev : prev < F.length) :
    (termsBelow F (conflictStart F (termAt F prev) prev)).card <
      (termsBelow F (prev + 1)).card := by
  set t := termAt F prev with ht
  set ci := conflictStart F t prev with hci
  have hle : ci ≤ prev := conflictStart_le F t prev
  have hone : 1 ≤ ci := one_le_conflictStart F t hpos
  refine Finset.card_lt_card (Finset.ssubset_iff_subset_ne.mpr ⟨fun u hu => ?_, fun heq => ?_⟩)
  · obtain ⟨hu0, i, hi, hlen, hterm⟩ := mem_termsBelow.mp hu
    exact mem_termsBelow.mpr ⟨hu0, i, by omega, hlen, hterm⟩
  · -- the conflicting term itself does not occur below `ci`
    have hmem : t ∈ termsBelow F (prev + 1) :=
      mem_termsBelow.mpr ⟨hF.pos prev hprev hpos, prev, by omega, hprev, rfl⟩
    rw [← heq] at hmem
    obtain ⟨-, i, hi, hlen, hterm⟩ := mem_termsBelow.mp hmem
    by_cases hfirst : ci = 1
    · obtain rfl : i = 0 := by omega
      have hzero : termAt F 0 = 0 := termAt_eq hF.head
      have := hF.pos prev hprev hpos
      omega
    · have hstop := termAt_conflictStart_sub_one hpos hfirst
      have hlow := hF.mono (ci - 1) (by omega) i (by omega)
      have hhigh := hF.mono prev hprev (ci - 1) (by omega)
      rw [← hci] at hstop
      omega

/-! ## Steps -/

section Steps

variable {L F : List LogEntry} {T ni : Nat} {peer : NodeID} {p : Raft σ × Raft σ}

omit [Storage σ] in
theorem replicateTo_of_leader {r : Raft σ} (hstate : r.state = .leader)
    (hni : 1 ≤ r.nextIndex peer) : r.replicateTo peer = some (r.sendFrom (r.nextIndex peer)) := by
  rw [replicateTo, if_neg (by rw [hstate]; exact not_not.mpr rfl), if_neg (by omega)]
  rfl

namespace CatchingUp

/-- An exchange is the request from `ni` on, answered and taken note of. -/
theorem exchange_eq (h : CatchingUp L F T peer ni p) (hni : 1 ≤ ni) :
    exchange peer p =
      ((p.1.replicateToReply peer (p.1.sendFrom ni) (p.2.appendEntries (p.1.sendFrom ni)).2,
        (p.2.appendEntries (p.1.sendFrom ni)).1),
        some (p.2.appendEntries (p.1.sendFrom ni)).2.success) := by
  have hsend := replicateTo_of_leader h.leads (by rw [h.next]; exact hni)
  rw [h.next] at hsend
  rw [exchange, hsend]

omit [Storage σ] in
theorem sameTerm (h : CatchingUp L F T peer ni p) :
    p.2.currentTerm = (p.1.sendFrom ni).term :=
  h.followerTerm.trans h.leaderTerm.symm

omit [Storage σ] in
/-- The reply still finds a leader of the term of the request. -/
theorem guard (h : CatchingUp L F T peer ni p) :
    ¬(p.1.state ≠ .leader ∨ p.1.currentTerm ≠ (p.1.sendFrom ni).term) := by
  simp only [not_or, not_not]
  exact ⟨h.leads, rfl⟩

/-- After a rejection with a hint the leader continues there. -/
theorem rejected (h : CatchingUp L F T peer ni p) (hni : 1 ≤ ni) {ci : Nat} (hci : 0 < ci)
    (hreply : p.2.appendEntries (p.1.sendFrom ni) =
      (p.2.follow (p.1.sendFrom ni), { term := T, success := false, conflictIndex := ci })) :
    (exchange peer p).2 = some false ∧ CatchingUp L F T peer ci (exchange peer p).1 := by
  -- the leader takes the conflict index of the answer as its next index
  have hleader : p.1.replicateToReply peer (p.1.sendFrom ni)
      { term := T, success := false, conflictIndex := ci } =
        { p.1 with nextIndex := Function.update p.1.nextIndex peer ci } := by
    rw [replicateToReply, if_neg h.guard, if_neg (by rw [h.leaderTerm]; exact Nat.lt_irrefl _),
      if_neg Bool.false_ne_true, if_pos hci]
  have hex : exchange peer p =
      (({ p.1 with nextIndex := Function.update p.1.nextIndex peer ci },
        p.2.follow (p.1.sendFrom ni)), some false) := by
    rw [h.exchange_eq hni, hreply]
    exact congrArg (fun q => ((q, p.2.follow (p.1.sendFrom ni)), some false)) hleader
  rw [hex]
  exact ⟨rfl, h.leads, h.leaderLog, h.leaderTerm, Function.update_self .., h.followerLog,
    h.leaderTerm⟩

/-- The follower's log is too short: the leader continues at its end. -/
theorem tooShort (h : CatchingUp L F T peer ni p) (hF : F ≠ []) (hshort : F.length < ni) :
    (exchange peer p).2 = some false ∧ CatchingUp L F T peer F.length (exchange peer p).1 := by
  have hprev : p.2.log.length ≤ (p.1.sendFrom ni).prevLogIndex := by
    rw [h.followerLog]
    show F.length ≤ ni - 1
    omega
  have hreply := appendEntries_tooShort h.sameTerm (by rw [h.followerLog]; exact hF) hprev
  rw [h.followerLog, show (p.1.sendFrom ni).term = T from h.leaderTerm] at hreply
  exact h.rejected (by omega) (List.length_pos_iff.mpr hF) hreply

/-- The terms differ: the leader continues at the first entry of the follower's term. -/
theorem conflict (h : CatchingUp L F T peer ni p) (hni : 1 < ni) (hlong : ni ≤ F.length)
    (hdiffer : termAt F (ni - 1) ≠ termAt L (ni - 1)) :
    (exchange peer p).2 = some false ∧
      CatchingUp L F T peer (conflictStart F (termAt F (ni - 1)) (ni - 1))
        (exchange peer p).1 := by
  -- the follower has an entry there, of another term than the leader's
  have hprev : (p.1.sendFrom ni).prevLogIndex < p.2.log.length := by
    rw [h.followerLog]
    show ni - 1 < F.length
    omega
  have hreply := appendEntries_conflict h.sameTerm hprev (by
    rw [h.followerLog]
    show termAt F (ni - 1) ≠ termAt p.1.log (ni - 1)
    rw [h.leaderLog]
    exact hdiffer)
  rw [h.followerLog, show (p.1.sendFrom ni).term = T from h.leaderTerm] at hreply
  exact h.rejected (by omega) (one_le_conflictStart _ _ (by omega)) hreply

/-- The terms agree: the follower takes over the leader's log. -/
theorem matched (h : CatchingUp L F T peer ni p) (hni : 1 ≤ ni) (hlong : ni ≤ F.length)
    (hL : ni ≤ L.length) (hmatch : LogsMatch F L)
    (hsame : termAt F (ni - 1) = termAt L (ni - 1)) :
    (exchange peer p).2 = some true ∧
      (exchange peer p).1.2.log = takeOver L L.length F ∧
      (exchange peer p).1.1.matchIndex peer = L.length - 1 := by
  have hprev : (p.1.sendFrom ni).prevLogIndex < p.2.log.length := by
    rw [h.followerLog]
    show ni - 1 < F.length
    omega
  have hagree : termAt p.2.log (p.1.sendFrom ni).prevLogIndex = (p.1.sendFrom ni).prevLogTerm := by
    show termAt p.2.log (ni - 1) = termAt p.1.log (ni - 1)
    rw [h.followerLog, h.leaderLog]
    exact hsame
  have hdescribes : Describes L (p.1.sendFrom ni) :=
    h.leaderLog ▸ describes_sendFrom hni (by rw [h.leaderLog]; exact hL)
  have hmerged := hdescribes.merged (h.followerLog.symm ▸ hmatch) hprev hagree
  -- what is sent ends with the leader's log
  have hend : (p.1.sendFrom ni).prevLogIndex + (p.1.sendFrom ni).entries.length =
      L.length - 1 := by
    show ni - 1 + (p.1.log.drop ni).length = L.length - 1
    rw [h.leaderLog, List.length_drop]
    omega
  have hall : (p.1.sendFrom ni).prevLogIndex + 1 + (p.1.sendFrom ni).entries.length =
      L.length := by omega
  have hlog := hmerged.eq_takeOver
  rw [hall, h.followerLog] at hlog
  rw [h.exchange_eq hni, appendEntries_matched h.sameTerm hprev hagree, h.followerLog]
  refine ⟨rfl, (persistIf_log _ _).trans hlog, ?_⟩
  -- the leader records the end of its log as the match index
  have hleader : p.1.replicateToReply peer (p.1.sendFrom ni)
      { term := (p.1.sendFrom ni).term, success := true, conflictIndex := 0 } =
        (p.1.recordMatch peer (L.length - 1)).advanceCommitLocked := by
    have hterm : ¬(p.1.sendFrom ni).term > p.1.currentTerm := Nat.lt_irrefl _
    rw [replicateToReply, if_neg h.guard, if_neg hterm, if_pos rfl, hend]
    rfl
  exact (congrArg (fun q => q.matchIndex peer) hleader).trans (Function.update_self ..)

end CatchingUp

end Steps

/-! ## Convergence -/

/-- Catching up from `p` on takes `n` rejections, each of which lowers `nextIndex` and leaves
    it at least 1, and then succeeds. -/
structure Converges (L F : List LogEntry) (peer : NodeID) (p : Raft σ × Raft σ) (n : Nat) :
    Prop where
  rejected : ∀ k, k < n → (exchange peer (exchanges peer p k)).2 = some false ∧
    (exchanges peer p (k + 1)).1.nextIndex peer < (exchanges peer p k).1.nextIndex peer ∧
    1 ≤ (exchanges peer p (k + 1)).1.nextIndex peer
  succeeds : (exchange peer (exchanges peer p n)).2 = some true
  log : (exchanges peer p (n + 1)).2.log = takeOver L L.length F
  matchIndex : (exchanges peer p (n + 1)).1.matchIndex peer = L.length - 1

section Convergence

variable {L F : List LogEntry} {T ni : Nat} {peer : NodeID} {p : Raft σ × Raft σ}

/-- The first of several exchanges. -/
theorem exchanges_succ (peer : NodeID) (p : Raft σ × Raft σ) (n : Nat) :
    exchanges peer p (n + 1) = exchanges peer (exchange peer p).1 n := by
  induction n with
  | zero => rfl
  | succ n ih => rw [exchanges, ih, exchanges]

theorem converges_of_matched (h : CatchingUp L F T peer ni p) (hni : 1 ≤ ni)
    (hlong : ni ≤ F.length) (hL : ni ≤ L.length) (hmatch : LogsMatch F L)
    (hsame : termAt F (ni - 1) = termAt L (ni - 1)) : Converges L F peer p 0 := by
  obtain ⟨hok, hlog, hindex⟩ := h.matched hni hlong hL hmatch hsame
  exact ⟨fun k hk => absurd hk (Nat.not_lt_zero k), hok, hlog, hindex⟩

/-- One more rejection in front. -/
theorem Converges.cons {n ci : Nat} (h : CatchingUp L F T peer ni p)
    (hreject : (exchange peer p).2 = some false)
    (hnext : CatchingUp L F T peer ci (exchange peer p).1) (hci : 1 ≤ ci) (hlt : ci < ni)
    (hrest : Converges L F peer (exchange peer p).1 n) : Converges L F peer p (n + 1) where
  rejected k hk := by
    -- the first exchange is the rejected one, the rest are those from the state after it
    cases k with
    | zero =>
      refine ⟨hreject, ?_, ?_⟩
      · show (exchange peer p).1.1.nextIndex peer < p.1.nextIndex peer
        rw [hnext.next, h.next]
        exact hlt
      · show 1 ≤ (exchange peer p).1.1.nextIndex peer
        rw [hnext.next]
        exact hci
    | succ k =>
      rw [exchanges_succ, exchanges_succ]
      exact hrest.rejected k (Nat.lt_of_succ_lt_succ hk)
  succeeds := by
    rw [exchanges_succ]
    exact hrest.succeeds
  log := by
    rw [exchanges_succ]
    exact hrest.log
  matchIndex := by
    rw [exchanges_succ]
    exact hrest.matchIndex

/-- **Run lemma**: with `nextIndex` inside the follower's log there is at most one rejection
    for each term below it. -/
theorem CatchingUp.converges (h : CatchingUp L F T peer ni p) (hni : 1 ≤ ni)
    (hlong : ni ≤ F.length) (hL : ni ≤ L.length) (hF : TermsOrdered F) (hhead : TermsOrdered L)
    (hmatch : LogsMatch F L) : ∃ n ≤ (termsBelow F ni).card, Converges L F peer p n := by
  -- on the next index: a conflict sends the leader to a lower one, with one term fewer below it
  induction ni using Nat.strongRecOn generalizing p with
  | ind ni ih =>
    by_cases hsame : termAt F (ni - 1) = termAt L (ni - 1)
    · exact ⟨0, Nat.zero_le _, converges_of_matched h hni hlong hL hmatch hsame⟩
    · -- the sentinels agree, so the conflict is behind them
      have hone : 1 < ni := by
        by_contra hle
        obtain rfl : ni = 1 := by omega
        exact hsame ((termAt_eq hF.head).trans (termAt_eq hhead.head).symm)
      obtain ⟨hreject, hnext⟩ := h.conflict hone hlong hsame
      have hpos := one_le_conflictStart F (termAt F (ni - 1)) (show 1 ≤ ni - 1 by omega)
      have hle := conflictStart_le F (termAt F (ni - 1)) (ni - 1)
      have hfewer := termsBelow_conflictStart hF (show 1 ≤ ni - 1 by omega) (by omega)
      rw [Nat.sub_add_cancel hni] at hfewer
      obtain ⟨n, hn, hrest⟩ := ih _ (by omega) hnext hpos (by omega) (by omega)
      exact ⟨n + 1, by omega, hrest.cons h hreject hnext hpos (by omega)⟩

/-- From any `nextIndex` at most one rejection more than the follower's log has terms comes
    first. -/
theorem CatchingUp.exists_converges (h : CatchingUp L F T peer ni p) (hni : 1 ≤ ni)
    (hle : ni ≤ L.length) (hL : TermsOrdered L) (hF : TermsOrdered F) (hmatch : LogsMatch F L) :
    ∃ n ≤ 1 + distinctTerms F, Converges L F peer p n := by
  have hpos := (List.getElem?_eq_some_iff.mp hF.head).1
  rcases Nat.lt_or_ge F.length ni with hshort | hlong
  · -- the first answer sends the leader to the end of the follower's log
    obtain ⟨hreject, hnext⟩ := h.tooShort (List.length_pos_iff.mp hpos) hshort
    obtain ⟨n, hn, hrest⟩ := hnext.converges hpos le_rfl (by omega) hF hL hmatch
    rw [card_termsBelow_length] at hn
    exact ⟨n + 1, by omega, hrest.cons h hreject hnext hpos hshort⟩
  · obtain ⟨n, hn, hconv⟩ := h.converges hni hlong hle hF hL hmatch
    -- fewer terms lie below the next index than in the whole log
    have hsub : (termsBelow F ni).card ≤ (termsBelow F F.length).card :=
      Finset.card_le_card fun t ht => by
        obtain ⟨ht0, i, -, hlen, hterm⟩ := mem_termsBelow.mp ht
        exact mem_termsBelow.mpr ⟨ht0, i, hlen, hlen, hterm⟩
    rw [card_termsBelow_length] at hsub
    exact ⟨n, by omega, hconv⟩

end Convergence

/-- **Follower catch-up converges.**  From any `nextIndex` the exchange succeeds after at most
    one rejection more than the follower's log has terms.  Then the follower agrees with the
    leader's log, still has what it held behind its end if nothing conflicted, and the leader
    knows that it matches. -/
theorem catchUp_converges (L F : List LogEntry) (T : Nat) (peer : NodeID) (p : Raft σ × Raft σ)
    (hL : TermsOrdered L) (hF : TermsOrdered F) (hmatch : LogsMatch F L) (ni : Nat)
    (hni : 1 ≤ ni) (hle : ni ≤ L.length) (h : CatchingUp L F T peer ni p) :
    ∃ n ≤ 1 + distinctTerms F,
      (∀ k, k < n → (exchange peer (exchanges peer p k)).2 = some false ∧
        (exchanges peer p (k + 1)).1.nextIndex peer < (exchanges peer p k).1.nextIndex peer ∧
        1 ≤ (exchanges peer p (k + 1)).1.nextIndex peer) ∧
      (exchange peer (exchanges peer p n)).2 = some true ∧
      L <+: (exchanges peer p (n + 1)).2.log ∧
      ((∀ i, i < L.length → i < F.length → termAt F i = termAt L i) →
        (exchanges peer p (n + 1)).2.log.drop L.length = F.drop L.length) ∧
      (exchanges peer p (n + 1)).1.matchIndex peer = L.length - 1 := by
  obtain ⟨n, hn, hconv⟩ := h.exists_converges hni hle hL hF hmatch
  have hpre : L <+: takeOver L L.length F := by
    have hpre := isPrefix_takeOver L L.length F
    rwa [List.take_length] at hpre
  refine ⟨n, hn, hconv.rejected, hconv.succeeds, hconv.log ▸ hpre, fun hagree => ?_,
    hconv.matchIndex⟩
  rw [hconv.log, takeOver, List.take_length]
  -- the follower's log is kept as it is where it agrees with the leader's throughout
  split_ifs with hkept
  · rfl
  · -- a log without conflict that lacks something is shorter than the leader's
    have hshort : F.length < L.length := by
      by_contra hlong
      have htake := hmatch (L.length - 1) (by omega) (by omega) (hagree _ (by omega) (by omega))
      rw [Nat.sub_add_cancel (hni.trans hle), List.take_length] at htake
      exact hkept (htake ▸ List.take_prefix _ _)
    rw [List.drop_length, List.drop_eq_nil_of_le hshort.le]

/-- A leader of term 3 and a follower with entries of a term it never heard of. -/
def apart : Raft MemoryStorage × Raft MemoryStorage :=
  ({ Raft.new 1 [2] newMemoryStorage with
      currentTerm := 3
      state := .leader
      log := [sentinel, ⟨1, [1]⟩, ⟨3, [3]⟩, ⟨3, [4]⟩]
      nextIndex := fun _ => 4 },
    { Raft.new 2 [1] newMemoryStorage with
      currentTerm := 3
      log := [sentinel, ⟨1, [1]⟩, ⟨2, [2]⟩] })

/-- The follower's log is too short, then its last term is wrong, then it matches. -/
theorem catchUp_converges_apart :
    ∃ n ≤ 3, (exchange 2 (exchanges 2 apart n)).2 = some true ∧
      apart.1.log <+: (exchanges 2 apart (n + 1)).2.log ∧
      (exchanges 2 apart (n + 1)).1.matchIndex 2 = 3 := by
  obtain ⟨n, hn, -, hok, hpre, -, hindex⟩ := catchUp_converges apart.1.log apart.2.log 3 2 apart
    ⟨rfl, by decide, by decide⟩ ⟨rfl, by decide, by decide⟩ (by decide) 4 (by decide) (by decide)
    ⟨rfl, rfl, rfl, rfl, rfl, rfl⟩
  exact ⟨n, hn, hok, hpre, hindex⟩

end EventLog.Raft
