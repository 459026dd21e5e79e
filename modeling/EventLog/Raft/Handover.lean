import EventLog.Raft.Sync

/-!
# Stopped nodes and their storage

`Stop` waits for the three loops of a node.  The goroutines that wait for the answer of a
peer are not among them: a reply that arrives after `Stop` returned is still handled by
the stopped object, which shares its storage with the node built after it.

A late `AppendEntries` reply saves nothing.  A late `RequestVote` reply with a higher term
makes a stopped candidate save its own term, vote and log over those of its successor.
`handover_iff` says that the storage, and with it the successor's votes, is safe exactly
if no such reply arrives; `late_reply_votes_twice` is a run in which one does.
-/

namespace EventLog.Raft

open EventLog.Lib

variable {σ : Type}

/-! ## One storage, several objects -/

/-- The node in service and the objects that were stopped before it.  `live.storage` is
    the storage they all share. -/
structure Handover (σ : Type) where
  live : Raft σ
  stopped : List (Raft σ)

/-- What can happen to the node in service, and to the stopped objects.  The variables of
    a late reply are those its goroutine captured. -/
inductive HandoverEvent where
  | live (x : Input)
  /-- `Stop` returns and `New` builds the next node. -/
  | stop
  | lateVoteReply (k : Nat) (term votes : Nat) (reply : RequestVoteReply)
  | lateAppendReply (k : Nat) (peer : NodeID) (args : AppendEntriesArgs)
      (reply : AppendEntriesReply)
  deriving DecidableEq, Repr

/-- A step of a stopped object. -/
def HandoverEvent.IsLate : HandoverEvent → Prop
  | .lateVoteReply .. | .lateAppendReply .. => True
  | .live _ | .stop => False

/-- The stopped object `k` became `old`, which wrote to the storage. -/
def Handover.setStopped (h : Handover σ) (k : Nat) (old : Raft σ) : Handover σ :=
  { live := { h.live with storage := old.storage }, stopped := h.stopped.set k old }

def Handover.init [Storage σ] (id : NodeID) (peers : List NodeID) (st : σ) : Handover σ :=
  { live := Raft.new id peers st, stopped := [] }

def Handover.step [Storage σ] (h : Handover σ) : HandoverEvent → Option (Handover σ)
  | .live x => some { h with live := h.live.handle x }
  | .stop =>
    some
      { live := Raft.new h.live.id h.live.peers h.live.storage
        stopped := h.stopped ++ [h.live] }
  | .lateVoteReply k term votes reply => do
    let old ← h.stopped[k]?
    let old := { old with storage := h.live.storage }
    some (h.setStopped k (old.startElectionReply term votes reply).1)
  | .lateAppendReply k peer args reply => do
    let old ← h.stopped[k]?
    let old := { old with storage := h.live.storage }
    some (h.setStopped k (old.replicateToReply peer args reply))

/-- No stopped candidate learns of a higher term from a late vote reply, unless what it
    then saves is what the storage holds. -/
def LateSafe [Storage σ] (h : Handover σ) : HandoverEvent → Prop
  | .lateVoteReply k term _ reply => ∀ old ∈ h.stopped[k]?,
      old.state = .candidate → old.currentTerm = term → old.currentTerm < reply.term →
      Storage.load h.live.storage = .ok (some ⟨reply.term, None, old.log⟩)
  | _ => True

/-! ## Late replies -/

section Late

variable [ReliableStorage σ] {r : Raft σ} {h h' : Handover σ} {e : HandoverEvent}

omit [ReliableStorage σ] in
theorem startElectionReply_storage [Storage σ] (r : Raft σ) (term votes : Nat)
    (reply : RequestVoteReply) :
    (r.startElectionReply term votes reply).1.storage =
      if r.state = .candidate ∧ r.currentTerm = term ∧ r.currentTerm < reply.term then
        (Storage.save r.storage ⟨reply.term, None, r.log⟩).1
      else r.storage := by
  -- only a reply of a higher term, to a candidate that still waits for it, is saved
  split_ifs with hdown
  · obtain ⟨hst, ht, hlt⟩ := hdown
    have hguard : ¬ (r.state ≠ .candidate ∨ r.currentTerm ≠ term) := by simp [hst, ht]
    rw [startElectionReply, if_neg hguard, if_pos hlt]
    rfl
  · have hout := startElectionReply_outcome r term votes reply
    generalize (r.startElectionReply term votes reply).1 = r' at hout ⊢
    generalize (r.startElectionReply term votes reply).2 = votes' at hout
    cases hout with
    | ignored | counted | elected => rfl
    | steppedDown hst ht hlt => exact absurd ⟨hst, ht, hlt⟩ hdown

omit [ReliableStorage σ] in
theorem replicateToReply_storage (r : Raft σ) (peer : NodeID) (args : AppendEntriesArgs)
    (reply : AppendEntriesReply) : (r.replicateToReply peer args reply).storage = r.storage := by
  have hout := replicateToReply_outcome r peer args reply
  generalize r.replicateToReply peer args reply = r' at hout ⊢
  cases hout with
  | ignored | steppedDown | matched | backedUp => rfl

/-- **A late reply leaves the stored state unchanged exactly if it is safe.** -/
theorem load_late_iff (hlate : e.IsLate) (hstep : h.step e = some h') :
    Storage.load h'.live.storage = Storage.load h.live.storage ↔ LateSafe h e := by
  cases e with
  | live | stop => cases hlate
  -- an answer to an append is never saved by the node it comes late to
  | lateAppendReply k peer args reply =>
    obtain ⟨old, _, heq⟩ := Option.bind_eq_some_iff.mp hstep
    obtain rfl := Option.some.inj heq
    simp only [Handover.setStopped, replicateToReply_storage, LateSafe]
  | lateVoteReply k term votes reply =>
    obtain ⟨old, hold, heq⟩ := Option.bind_eq_some_iff.mp hstep
    obtain rfl := Option.some.inj heq
    simp only [Handover.setStopped, startElectionReply_storage, LateSafe, hold, Option.mem_def,
      Option.some.injEq, forall_eq']
    -- where the stopped node saves, the save must be what is stored already
    split_ifs with hdown
    · rw [ReliableStorage.load_save]
      exact ⟨fun heq _ _ _ => heq.symm, fun hsafe => (hsafe hdown.1 hdown.2.1 hdown.2.2).symm⟩
    · exact iff_of_true rfl fun hst ht hlt => absurd ⟨hst, ht, hlt⟩ hdown

/-! ## The node in service -/

/-- Every input advances a node. -/
theorem handle_advances (hp : Persisted r) (x : Input) : Advances r (r.handle x) := by
  cases x with
  | startElection => exact startElection_advances hp
  | voteReply term votes reply => exact (startElectionReply_outcome r term votes reply).advances hp
  | requestVote args => exact (requestVote_outcome r args).advances hp
  -- on a node that does not lead nothing happens
  | start command =>
    unfold handle Raft.start
    split_ifs with hst
    · exact ⟨rfl, rfl, hp, DurableLe.refl _⟩
    · exact append_advances hp _
  | appendReply peer args reply => exact (replicateToReply_outcome r peer args reply).advances hp
  | appendEntries args => exact (appendEntries_outcome r args).advances hp
  | apply =>
    cases happ : r.applyLoop with
    | none =>
      simp only [handle, happ]
      exact ⟨rfl, rfl, hp, DurableLe.refl _⟩
    | some p =>
      simp only [handle, happ]
      exact applyLoop_advances hp happ
  | restart => exact new_advances hp

/-- A write that the storage does not show changes nothing for the node. -/
theorem advances_of_load_eq (hp : Persisted r) {st : σ}
    (hload : Storage.load st = Storage.load r.storage) :
    Advances r { r with storage := st } := by
  have hdur : durable st = durable r.storage := by rw [durable, durable, hload]
  refine ⟨rfl, rfl, ⟨hp.log_ne, ?_, ?_, ?_, ?_⟩, hdur ▸ DurableLe.refl _⟩ <;> rw [hdur]
  · exact hp.log_eq
  · exact hp.term_le
  · exact hp.vote_eq
  · exact hp.lag

/-- **Step lemma**: a safe step advances the node in service, or builds the next one. -/
theorem Handover.advances (hp : Persisted h.live) (hsafe : LateSafe h e)
    (hstep : h.step e = some h') : Advances h.live h'.live := by
  cases e with
  | live x =>
    obtain rfl := Option.some.inj hstep
    exact handle_advances hp x
  | stop =>
    obtain rfl := Option.some.inj hstep
    exact new_advances hp
  -- a late reply that is safe leaves what the live node would load
  | lateVoteReply k term votes reply =>
    have hload := (load_late_iff (by trivial) hstep).mpr hsafe
    obtain ⟨old, _, heq⟩ := Option.bind_eq_some_iff.mp hstep
    obtain rfl := Option.some.inj heq
    exact advances_of_load_eq hp hload
  | lateAppendReply k peer args reply =>
    have hload := (load_late_iff (by trivial) hstep).mpr hsafe
    obtain ⟨old, _, heq⟩ := Option.bind_eq_some_iff.mp hstep
    obtain rfl := Option.some.inj heq
    exact advances_of_load_eq hp hload

/-- **Run lemma**: over safe steps the stored term and vote are never taken back. -/
theorem Handover.advances_run {es : List HandoverEvent} (hp : Persisted h.live)
    (hes : Along Handover.step LateSafe h es) (hrun : run Handover.step h es = some h') :
    Advances h.live h'.live := by
  refine run_invariant (I := fun q => Advances h.live q.live) ?_
    ⟨rfl, rfl, hp, DurableLe.refl _⟩ hes hrun
  intro q e q' hq hsafe hstep
  have hadv := Handover.advances hq.persisted hsafe hstep
  exact ⟨hadv.id.trans hq.id, hadv.peers.trans hq.peers, hadv.persisted,
    hq.durable.trans hadv.durable⟩

/-- A vote pinned in the storage is the vote the node repeats. -/
theorem vote_eq_of_durable {x : Input} {t : Nat} {c c' : NodeID} (hp : Persisted r)
    (hvote : r.vote x = some (t, c)) (hc' : c' ≠ None)
    (hpin : Pinned (durable r.storage) t c') : c = c' := by
  refine vote_eq_of_pinned hvote hc' ?_
  -- the storage lags behind memory, or holds the same term and vote
  rcases hpin with hlt | ⟨heq, hfor⟩
  · exact Or.inl (Nat.lt_of_lt_of_le hlt hp.term_le)
  · rcases Nat.lt_or_eq_of_le hp.term_le with hlt | hsame
    · exact Or.inl (heq ▸ hlt)
    · exact Or.inr ⟨heq.trans hsame, (hp.vote_eq hsame).symm.trans hfor⟩

/-- A vote is pinned in the storage. -/
theorem pinned_of_vote {x : Input} {t : Nat} {c : NodeID} (hp : Persisted r)
    (hvote : r.vote x = some (t, c)) : Pinned (durable (r.handle x).storage) t c := by
  obtain ⟨q, hq, _, hlog, hterm, hfor⟩ := vote_saved hvote
  rw [hq, durable_persistLocked q (hlog ▸ hp.log_ne)]
  exact Or.inr ⟨hterm.symm, hfor⟩

end Late

/-! ## Runs -/

/-- The candidate of a vote has an identity if the senders of vote requests have one. -/
theorem vote_ne_none [Storage σ] {r : Raft σ} {x : Input} {t : Nat} {c : NodeID}
    (hid : r.id ≠ None) (hcand : ∀ a, x = .requestVote a → a.candidateID ≠ None)
    (hvote : r.vote x = some (t, c)) : c ≠ None := by
  cases x with
  | startElection =>
    obtain ⟨_, rfl⟩ := Prod.mk.inj (Option.some.inj hvote)
    exact hid
  | requestVote a =>
    simp only [vote, Option.ite_none_right_eq_some, Option.some.injEq, Prod.mk.injEq] at hvote
    obtain ⟨_, _, rfl⟩ := hvote
    exact hcand a rfl
  -- no other input is answered with a vote
  | voteReply | start | appendReply | appendEntries | apply | restart => cases hvote

/-- Of two votes in one term the later repeats the earlier. -/
theorem votesAgree_of_advances [ReliableStorage σ] {r r' : Raft σ} {x x' : Input}
    (hp : Persisted r) (hcand : ∀ a, x = .requestVote a → a.candidateID ≠ None)
    (hid : r.id ≠ None) (hadv : Advances (r.handle x) r') : VotesAgree r x r' x' := by
  intro t c c' hvote hvote'
  have hc := vote_ne_none hid hcand hvote
  -- the vote is pinned right after it was cast, and from then on
  exact (vote_eq_of_durable hadv.persisted hvote' hc
    ((pinned_of_vote hp hvote).mono hc hadv.durable)).symm

/-- **Handover**: no late reply changes what the storage holds, and the nodes built on it
    never vote twice in a term, exactly if no late vote reply makes a stopped candidate
    save another state. -/
theorem handover_iff [ReliableStorage σ] (id : NodeID) (peers : List NodeID) (st : σ)
    (hid : id ≠ None) (es : List HandoverEvent)
    (hcand : ∀ a, HandoverEvent.live (.requestVote a) ∈ es → a.candidateID ≠ None) :
    ((∀ es₁ e h₁ h₂, es₁ ++ [e] <+: es →
        run Handover.step (Handover.init id peers st) es₁ = some h₁ → h₁.step e = some h₂ →
        e.IsLate → Storage.load h₂.live.storage = Storage.load h₁.live.storage) ∧
      ∀ es₁ es₂ x₁ x₂ h₁ h₂ t c₁ c₂, es₁ ++ [.live x₁] <+: es → es₂ ++ [.live x₂] <+: es →
        run Handover.step (Handover.init id peers st) es₁ = some h₁ →
        run Handover.step (Handover.init id peers st) es₂ = some h₂ →
        h₁.live.vote x₁ = some (t, c₁) → h₂.live.vote x₂ = some (t, c₂) → c₁ = c₂) ↔
    Along Handover.step LateSafe (Handover.init id peers st) es := by
  constructor
  · -- a late vote reply that changes nothing on disk is a safe one, by `load_late_iff`
    rintro ⟨hload, _⟩
    refine along_iff.mpr fun es₁ e h₁ hpre hrun₁ => ?_
    cases e with
    | live | stop => trivial
    | lateVoteReply k term votes reply =>
      intro old hold
      have hstep : h₁.step (.lateVoteReply k term votes reply) = some _ :=
        Option.bind_eq_some_iff.mpr ⟨old, hold, rfl⟩
      have hsafe := (load_late_iff (by trivial) hstep).mp
        (hload es₁ _ h₁ _ hpre hrun₁ hstep (by trivial))
      exact hsafe old hold
    | lateAppendReply => trivial
  · intro hes
    have hnew : Persisted (Raft.new id peers st) := persisted_new _ _ _ (durable_log_ne st)
    refine ⟨fun es₁ e h₁ h₂ hpre hrun₁ hstep hlate =>
      (load_late_iff hlate hstep).mpr (along_iff.mp hes es₁ e h₁ hpre hrun₁), ?_⟩
    intro es₁ es₂ x₁ x₂ h₁ h₂ t c₁ c₂ hpre₁ hpre₂ hrun₁ hrun₂ hvote₁ hvote₂
    -- two votes of one term are compared at their moments in the run, the earlier one first
    refine run_moments (R := fun h e h' e' => ∀ x x', e = .live x → e' = .live x' →
        VotesAgree h.live x h'.live x') ?_ ?_ ?_ hpre₁ hpre₂ hrun₁ hrun₂ x₁ x₂ rfl rfl t c₁ c₂
        hvote₁ hvote₂
    · exact fun h e h' e' hagree x x' hx hx' => (hagree x' x hx' hx).symm
    · rintro h e x x' rfl hx'
      obtain rfl := HandoverEvent.live.inj hx'
      exact VotesAgree.refl h.live x
    · rintro fs₁ _ fs₂ _ gs h h' h'' rfl hrun hstep hrest x x' rfl rfl
      obtain rfl := Option.some.inj hstep
      -- everything between the two votes only advances what is stored
      have hadv := Handover.advances_run hnew hes.front hrun
      have halong := hes.rest hrun
      refine votesAgree_of_advances hadv.persisted (fun a ha => hcand a (by simp [ha])) ?_
        (Handover.advances_run (handle_advances hadv.persisted x).persisted
          (halong.2 _ rfl).front hrest)
      rw [hadv.id, Handover.init, new_eq]
      exact hid

/-- A stopped leader that learns of a later term leaves its successor's state alone. -/
theorem handover_iff_leader : ∃ h₁ h₂,
    run Handover.step (Handover.init 0 [1, 2] newMemoryStorage)
      [.live .startElection, .live (.voteReply 1 1 ⟨1, true⟩), .stop,
        .live (.requestVote ⟨5, 1, 0, 0⟩)] = some h₁ ∧
    h₁.step (.lateAppendReply 0 2 ⟨1, 0, 0, 0, [], 0⟩ ⟨9, false, 0⟩) = some h₂ ∧
    Storage.load h₂.live.storage = .ok (some ⟨5, 1, [sentinel]⟩) := by
  obtain ⟨h₁, h₂, hrun, hstep, hload⟩ : ∃ h₁ h₂,
      run Handover.step (Handover.init 0 [1, 2] newMemoryStorage)
        [.live .startElection, .live (.voteReply 1 1 ⟨1, true⟩), .stop,
          .live (.requestVote ⟨5, 1, 0, 0⟩)] = some h₁ ∧
      h₁.step (.lateAppendReply 0 2 ⟨1, 0, 0, 0, [], 0⟩ ⟨9, false, 0⟩) = some h₂ ∧
      Storage.load h₁.live.storage = .ok (some ⟨5, 1, [sentinel]⟩) := ⟨_, _, rfl, rfl, rfl⟩
  have hsafe := (handover_iff 0 [1, 2] newMemoryStorage (by decide)
    [.live .startElection, .live (.voteReply 1 1 ⟨1, true⟩), .stop,
      .live (.requestVote ⟨5, 1, 0, 0⟩),
      .lateAppendReply 0 2 ⟨1, 0, 0, 0, [], 0⟩ ⟨9, false, 0⟩] (by simp [None])).mpr
    -- the late answer is to an append, which is safe of itself
    ⟨trivial, fun _ _ => ⟨trivial, fun _ _ => ⟨trivial, fun _ _ => ⟨trivial, fun _ _ =>
      ⟨trivial, fun _ _ => trivial⟩⟩⟩⟩⟩
  have hsame := hsafe.1 _ _ h₁ h₂ (List.prefix_refl _) hrun hstep trivial
  exact ⟨h₁, h₂, hrun, hstep, hsame.trans hload⟩

/-- Node 0 stops as a candidate of term 1; its successor grants term 5 to node 1; the late
    refusal of node 2, in term 5, makes the stopped object save term 5 without a vote;
    the successor restarts and grants term 5 to node 2. -/
theorem late_reply_votes_twice : ∃ h₁ h₂ h₃,
    run Handover.step (Handover.init 0 [1, 2] newMemoryStorage)
      [.live .startElection, .stop] = some h₁ ∧
    h₁.live.vote (.requestVote ⟨5, 1, 0, 0⟩) = some (5, 1) ∧
    run Handover.step h₁ [.live (.requestVote ⟨5, 1, 0, 0⟩),
      .lateVoteReply 0 1 1 ⟨5, false⟩] = some h₂ ∧
    Storage.load h₂.live.storage = .ok (some ⟨5, None, [sentinel]⟩) ∧
    run Handover.step h₂ [.live .restart] = some h₃ ∧
    h₃.live.vote (.requestVote ⟨5, 2, 0, 0⟩) = some (5, 2) :=
  ⟨_, _, _, rfl, by decide, rfl, rfl, rfl, by decide⟩

end EventLog.Raft
