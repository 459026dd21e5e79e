import EventLog.Raft.SameTerm
import EventLog.Raft.Sync

/-!
# Requests of one leader that are reordered or repeated

A network may deliver the `AppendEntries` calls of a leader late, twice or in another order.
Each of them is a slice of one log, and accepting one makes the follower take over that log
up to the end of the slice.  Taking over less afterwards changes nothing, so

* two accepted requests may be handled in either order,
* handling a request again changes nothing at all, and
* a request that was sent before one the follower has accepted comes too late to change
  anything, whatever else the follower has handled in between.
-/

namespace EventLog.Raft

open EventLog.Lib

variable {σ : Type} [Storage σ] {r : Raft σ} {L : List LogEntry} {m m₁ m₂ : AppendEntriesArgs}
  {last last₁ last₂ : Nat}

/-! ## Two requests -/

/-- An accepted slice leaves a log that still matches the leader's. -/
theorem SliceOf.logsMatch (h : SliceOf L last m) (hterm : r.currentTerm = m.term)
    (hmatch : LogsMatch r.log L) (hlog : r.log ≠ [])
    (hok : (r.appendEntries m).2.success = true) :
    LogsMatch (r.appendEntries m).1.log L ∧ (r.appendEntries m).1.log ≠ [] ∧
      L.take (last + 1) <+: (r.appendEntries m).1.log := by
  have hpre := isPrefix_takeOver L (last + 1) r.log
  have hlast := h.last_lt
  rw [(h.accepted hterm hmatch hlog hok).1]
  refine ⟨hmatch.takeOver _, fun hnil => ?_, hpre⟩
  have hlen := hpre.length_le
  rw [hnil, List.length_take, List.length_nil] at hlen
  omega

/-- The log and the commit index after two accepted slices. -/
theorem accepted_twice (h₁ : SliceOf L last₁ m₁) (h₂ : SliceOf L last₂ m₂)
    (hterm₁ : r.currentTerm = m₁.term) (hterm₂ : r.currentTerm = m₂.term)
    (hmatch : LogsMatch r.log L) (hlog : r.log ≠ [])
    (hok₁ : (r.appendEntries m₁).2.success = true)
    (hok₂ : ((r.appendEntries m₁).1.appendEntries m₂).2.success = true) :
    ((r.appendEntries m₁).1.appendEntries m₂).1.log =
        takeOver L (last₂ + 1) (takeOver L (last₁ + 1) r.log) ∧
      ((r.appendEntries m₁).1.appendEntries m₂).1.commitIndex =
        max (max r.commitIndex m₁.leaderCommit) m₂.leaderCommit := by
  obtain ⟨hlog₁, hcommit₁, hcur₁, -, -⟩ := h₁.accepted hterm₁ hmatch hlog hok₁
  obtain ⟨hmatch₁, hne₁, -⟩ := h₁.logsMatch hterm₁ hmatch hlog hok₁
  obtain ⟨hlog₂, hcommit₂, -⟩ :=
    h₂.accepted (hcur₁.trans (hterm₁.symm.trans hterm₂)) hmatch₁ hne₁ hok₂
  exact ⟨by rw [hlog₂, hlog₁], by rw [hcommit₂, hcommit₁]⟩

/-- A request that was accepted is accepted again, and leaves the node as it is. -/
theorem SliceOf.again (h : SliceOf L last m) (hterm : r.currentTerm = m.term)
    (hmatch : LogsMatch r.log L) (hlog : r.log ≠ [])
    (hok : (r.appendEntries m).2.success = true) :
    (r.appendEntries m).1.appendEntries m = r.appendEntries m := by
  obtain ⟨-, hcommit, hcur, hstate, hleader⟩ := h.accepted hterm hmatch hlog hok
  obtain ⟨hmatch', -, hpre⟩ := h.logsMatch hterm hmatch hlog hok
  -- after it was taken over, the request finds all it carries in the log
  have hheld := h.held hcur hmatch' hpre (by omega)
  have hfollow : (r.appendEntries m).1.follow m = (r.appendEntries m).1 := by
    rw [follow, hcur, if_neg (Nat.lt_irrefl _), ← hstate, ← hleader, ← hcur]
  rw [hheld, hfollow]
  obtain ⟨hlong, hsame⟩ := (appendEntries_success_iff hterm hlog).mp hok
  rw [appendEntries_matched hterm hlong hsame]

/-! ## Whatever happens in between -/

/-- The inputs of a node that does not restart and hears in term `T` of one leader only,
    whose log is `L`. -/
def FromLeader (T : Nat) (L : List LogEntry) : Input → Prop
  | .appendEntries args => args.term = T → ∃ last, SliceOf L last args
  | .restart => False
  | _ => True

/-- The node has left term `T`, or follows in it and holds the first `n` entries of `L`,
    committed up to `c`. -/
structure HoldsUpTo (T : Nat) (L : List LogEntry) (n c : Nat) (q : Raft σ) : Prop where
  log_ne : q.log ≠ []
  term_le : T ≤ q.currentTerm
  holds : q.currentTerm = T → q.state = .follower ∧ LogsMatch q.log L ∧ L.take n <+: q.log ∧
    c ≤ q.commitIndex

/-- Without a restart no term is taken back. -/
theorem Handled.term_le {x : Input} {q q' : Raft σ} (h : Handled q x q') (hx : x ≠ .restart) :
    q.currentTerm ≤ q'.currentTerm := by
  cases h with
  | kept q' hper => exact Nat.le_of_eq (congrArg (·.currentTerm) hper).symm
  | saved p _ _ hle =>
    rcases hle with hlt | ⟨heq, -⟩
    · exact Nat.le_of_lt hlt
    · exact Nat.le_of_eq heq
  | steppedDown t _ hlt => exact Nat.le_of_lt hlt
  | restarted hrestart => exact absurd hrestart hx

/-- A follower that stays in its term keeps everything but what requests of its leader
    add. -/
theorem handle_follower {T : Nat} {q : Raft σ} {x : Input} (hx : FromLeader T L x)
    (hlog : q.log ≠ []) (hterm : q.currentTerm = T) (hterm' : (q.handle x).currentTerm = T)
    (hstate : q.state = .follower) :
    ((q.handle x).state = .follower ∧ (q.handle x).log = q.log ∧
        (q.handle x).commitIndex = q.commitIndex) ∨
      ∃ args last, SliceOf L last args ∧ q.currentTerm = args.term ∧ x = .appendEntries args ∧
        (q.appendEntries args).2.success = true := by
  -- in the same term a follower acts on the leader's requests only
  cases x with
  | startElection =>
    have hnext : q.currentTerm + 1 = T := hterm'
    omega
  | voteReply term votes reply =>
    have hout := startElectionReply_outcome q term votes reply
    rw [show q.handle (.voteReply term votes reply) = (q.startElectionReply term votes reply).1
      from rfl] at hterm' ⊢
    generalize (q.startElectionReply term votes reply).1 = q' at hout hterm' ⊢
    generalize (q.startElectionReply term votes reply).2 = votes' at hout
    -- a follower counts no votes
    cases hout with
    | ignored => exact .inl ⟨hstate, rfl, rfl⟩
    | steppedDown hst | counted hst | elected hst => rw [hstate] at hst; cases hst
  -- a vote that does not raise the term leaves log and commit index
  | requestVote args =>
    have hout := requestVote_outcome q args
    rw [show q.handle (.requestVote args) = (q.requestVote args).1 from rfl] at hterm' ⊢
    generalize (q.requestVote args).1 = q' at hout hterm' ⊢
    generalize (q.requestVote args).2 = reply at hout
    cases hout with
    | refused | granted => exact .inl ⟨hstate, rfl, rfl⟩
    | adopted _ hlt | adoptedGranted _ hlt =>
      have hadopted : args.term = T := hterm'
      omega
  | start command =>
    rw [show q.handle (.start command) = (q.start command).1 from rfl, Raft.start,
      if_pos (by rw [hstate]; decide)]
    exact .inl ⟨hstate, rfl, rfl⟩
  -- an answer to an old request of its own is ignored
  | appendReply peer args reply =>
    have hout := replicateToReply_outcome q peer args reply
    rw [show q.handle (.appendReply peer args reply) = q.replicateToReply peer args reply
      from rfl] at hterm' ⊢
    generalize q.replicateToReply peer args reply = q' at hout hterm' ⊢
    cases hout with
    | ignored => exact .inl ⟨hstate, rfl, rfl⟩
    | steppedDown hst => rw [hstate] at hst; cases hst
    | matched hcounts | backedUp hcounts => exact absurd (hstate.symm.trans hcounts.1) (by decide)
  | appendEntries args =>
    rw [show q.handle (.appendEntries args) = (q.appendEntries args).1 from rfl] at hterm' ⊢
    have hout := appendEntries_outcome q args
    generalize (q.appendEntries args).1 = q' at hout hterm' ⊢
    generalize hreply : (q.appendEntries args).2 = reply at hout
    cases hout with
    | stale => exact .inl ⟨hstate, rfl, rfl⟩
    | rejected => exact .inl ⟨persistIf_state _ _, persistIf_log _ _, persistIf_commitIndex _ _⟩
    -- the request is from the leader of this term, so it is a piece of its log
    | accepted _ _ hprev hsame =>
      have heq : args.term = T := (persistIf_currentTerm _ _).symm.trans hterm'
      obtain ⟨last, hslice⟩ := hx heq
      have hpos := List.length_pos_iff.mpr hlog
      exact .inr ⟨args, last, hslice, hterm.trans heq.symm, rfl, hreply ▸
        (appendEntries_success_iff (hterm.trans heq.symm) hlog).mpr ⟨by omega, hsame⟩⟩
  | apply =>
    cases happ : q.applyLoop with
    | none =>
      have hsame : q.handle .apply = q := by simp only [handle, happ]
      rw [hsame]
      exact .inl ⟨hstate, rfl, rfl⟩
    | some p =>
      obtain ⟨_, hq', _⟩ := applyLoop_eq_some happ
      have hnext : q.handle .apply = { q with lastApplied := q.lastApplied + 1 } := by
        simp only [handle, happ, hq']
      rw [hnext]
      exact .inl ⟨hstate, rfl, rfl⟩
  | restart => exact hx.elim

/-- **Step lemma**: what is held stays held while the term lasts. -/
theorem HoldsUpTo.step {T n c : Nat} {q : Raft σ} {x : Input} (h : HoldsUpTo T L n c q)
    (hx : FromLeader T L x) : HoldsUpTo T L n c (q.handle x) := by
  have hhandled := handle_handled h.log_ne x
  have hle := hhandled.term_le fun hrestart => by rw [hrestart] at hx; exact hx
  refine ⟨hhandled.log_ne h.log_ne, h.term_le.trans hle, fun hterm' => ?_⟩
  have hterm : q.currentTerm = T := Nat.le_antisymm (hterm' ▸ hle) h.term_le
  obtain ⟨hstate, hmatch, hpre, hcommit⟩ := h.holds hterm
  -- nothing happened, or one more piece of the leader's log was taken over
  rcases handle_follower hx h.log_ne hterm hterm' hstate with
    ⟨hstate', hlog', hcommit'⟩ | ⟨args, last, hslice, heq, rfl, hok⟩
  · rw [hlog', hcommit']
    exact ⟨hstate', hmatch, hpre, hcommit⟩
  · obtain ⟨hlog', hcommit', -, hstate', -⟩ := hslice.accepted heq hmatch h.log_ne hok
    obtain ⟨hmatch', -, -⟩ := hslice.logsMatch heq hmatch h.log_ne hok
    refine ⟨hstate', hmatch', ?_, ?_⟩
    · -- a shared prefix survives whatever is taken over
      show L.take n <+: (q.appendEntries args).1.log
      rw [hlog']
      exact takeOver_keeps hpre (List.take_prefix n L) _
    · show c ≤ (q.appendEntries args).1.commitIndex
      rw [hcommit']
      omega

/-- A request of a slice that is held, or of a term that has passed, changes nothing. -/
theorem HoldsUpTo.late {T c : Nat} {q : Raft σ} (h : HoldsUpTo T L (last₂ + 1) c q)
    (hterm : m₁.term = T) (h₁ : SliceOf L last₁ m₁) (hlast : last₁ ≤ last₂)
    (hcommit : m₁.leaderCommit ≤ c) :
    (q.appendEntries m₁).1.log = q.log ∧ (q.appendEntries m₁).1.commitIndex = q.commitIndex := by
  -- in a later term the request is stale, in its own it carries nothing new
  rcases Nat.lt_or_eq_of_le h.term_le with hlt | heq
  · rw [appendEntries, if_pos (by omega)]
    exact ⟨rfl, rfl⟩
  · obtain ⟨-, hmatch, hpre, hc⟩ := h.holds heq.symm
    have hshort : L.take (last₁ + 1) <+: q.log :=
      (List.take_prefix_take_left (Nat.succ_le_succ hlast)).trans hpre
    rw [h₁.held (heq.symm.trans hterm.symm) hmatch hshort (by omega)]
    exact ⟨rfl, rfl⟩

/-- **Reordered and repeated requests of one leader are harmless.**  `L` is the log of the
    leader of the follower's term, `m₁` was sent no later than `m₂`. -/
theorem appendEntries_reordering_harmless (r : Raft σ) (L : List LogEntry)
    (m₁ m₂ : AppendEntriesArgs) (last₁ last₂ : Nat) (hlog : r.log ≠ [])
    (hmatch : LogsMatch r.log L) (hterm₁ : r.currentTerm = m₁.term)
    (hterm₂ : r.currentTerm = m₂.term) (h₁ : SliceOf L last₁ m₁) (h₂ : SliceOf L last₂ m₂)
    (hlast : last₁ ≤ last₂) (hcommit : m₁.leaderCommit ≤ m₂.leaderCommit) :
    -- in either order
    ((r.appendEntries m₁).2.success = true →
      ((r.appendEntries m₁).1.appendEntries m₂).2.success = true →
      (r.appendEntries m₂).2.success = true →
      ((r.appendEntries m₂).1.appendEntries m₁).2.success = true →
      ((r.appendEntries m₁).1.appendEntries m₂).1.log =
          ((r.appendEntries m₂).1.appendEntries m₁).1.log ∧
        ((r.appendEntries m₁).1.appendEntries m₂).1.commitIndex =
          ((r.appendEntries m₂).1.appendEntries m₁).1.commitIndex) ∧
    -- twice
    (∀ m last, SliceOf L last m → r.currentTerm = m.term →
      (r.appendEntries m).2.success = true →
      (r.appendEntries m).1.appendEntries m = r.appendEntries m) ∧
    -- late
    ((r.appendEntries m₂).2.success = true → ∀ xs q,
      (∀ x ∈ xs, FromLeader r.currentTerm L x) →
      run nodeStep (r.appendEntries m₂).1 xs = some q →
      (q.appendEntries m₁).1.log = q.log ∧
        (q.appendEntries m₁).1.commitIndex = q.commitIndex) := by
  refine ⟨fun hok₁ hok₁₂ hok₂ hok₂₁ => ?_, fun m last h hterm hok =>
    h.again hterm hmatch hlog hok, fun hok xs q hxs hrun => ?_⟩
  · -- the longer piece decides, whichever came first
    obtain ⟨hlog₁₂, hcommit₁₂⟩ := accepted_twice h₁ h₂ hterm₁ hterm₂ hmatch hlog hok₁ hok₁₂
    obtain ⟨hlog₂₁, hcommit₂₁⟩ := accepted_twice h₂ h₁ hterm₂ hterm₁ hmatch hlog hok₂ hok₂₁
    have hle := Nat.succ_le_succ hlast
    rw [hlog₁₂, hcommit₁₂, hlog₂₁, hcommit₂₁, takeOver_extend hle, takeOver_absorb hle]
    exact ⟨rfl, Nat.max_right_comm _ _ _⟩
  · obtain ⟨-, hcommit₂, hcur, hstate, -⟩ := h₂.accepted hterm₂ hmatch hlog hok
    obtain ⟨hmatch₂, hne, hpre⟩ := h₂.logsMatch hterm₂ hmatch hlog hok
    -- from then on the follower holds the log up to `last₂`, through everything it receives
    have hfirst : HoldsUpTo r.currentTerm L (last₂ + 1) m₂.leaderCommit
        (r.appendEntries m₂).1 :=
      ⟨hne, by rw [hcur, hterm₂], fun _ => ⟨hstate, hmatch₂, hpre, by omega⟩⟩
    have hq := run_invariant (P := fun _ => FromLeader r.currentTerm L)
      (I := HoldsUpTo r.currentTerm L (last₂ + 1) m₂.leaderCommit)
      (fun t x t' ht hx hstep => Option.some.inj hstep ▸ ht.step hx) hfirst
      (along_of_forall hxs) hrun
    exact hq.late hterm₁.symm h₁ hlast hcommit

/-- A leader's log of one term. -/
def sevenThenEight : List LogEntry := [sentinel, ⟨1, [7]⟩, ⟨1, [8]⟩]

/-- The request that carries all of it up to index `last`. -/
def sendUpTo (last : Nat) : AppendEntriesArgs :=
  { term := 1
    leaderID := 1
    prevLogIndex := 0
    prevLogTerm := 0
    entries := (sevenThenEight.take (last + 1)).drop 1
    leaderCommit := last }

/-- A follower in term 1 that has heard of nothing yet. -/
def newFollower : Raft MemoryStorage :=
  { Raft.new 2 [1] newMemoryStorage with currentTerm := 1 }

/-- It gets the two requests in either order, or the first one again after the second and
    an election timeout. -/
theorem appendEntries_reordering_harmless_sevenThenEight :
    ((newFollower.appendEntries (sendUpTo 1)).1.appendEntries (sendUpTo 2)).1.log =
        ((newFollower.appendEntries (sendUpTo 2)).1.appendEntries (sendUpTo 1)).1.log ∧
      (newFollower.appendEntries (sendUpTo 2)).1.appendEntries (sendUpTo 2) =
        newFollower.appendEntries (sendUpTo 2) ∧
      (((newFollower.appendEntries (sendUpTo 2)).1.handle .startElection).appendEntries
        (sendUpTo 1)).1.commitIndex = 2 := by
  have hslice : ∀ last, last < 3 → SliceOf sevenThenEight last (sendUpTo last) :=
    fun last hlast => ⟨Nat.zero_le _, hlast, rfl, rfl, le_rfl⟩
  obtain ⟨hcomm, hagain, hlate⟩ := appendEntries_reordering_harmless newFollower sevenThenEight
    (sendUpTo 1) (sendUpTo 2) 1 2 (by decide) (by decide) rfl rfl (hslice 1 (by decide))
    (hslice 2 (by decide)) (by decide) (by decide)
  refine ⟨(hcomm rfl rfl rfl rfl).1, hagain (sendUpTo 2) 2 (hslice 2 (by decide)) rfl rfl, ?_⟩
  exact (hlate rfl [.startElection] _ (by simp [FromLeader]) rfl).2.trans rfl

end EventLog.Raft
