import EventLog.Lib.Pointwise
import EventLog.Lib.Selection
import EventLog.Raft.Outcomes

/-!
# Messages that nobody remembers

A node that goes down before it has sent what a critical section was about to send leaves a
cluster without these messages.  A cluster that has them, and never delivers them, behaves in
the same way.

* `Forgets n s s'`: the systems have the same nodes and the same applied messages, and the
  elections, calls and replies of `s` stand among those of `s'` at the places `n`.
* `Forgets.step`: what happens in `s` can happen in `s'`.
* `Forgets.halted`: a node goes down, after a critical section that only `s'` knows of.
-/

namespace EventLog.Raft

open EventLog.Lib

/-! ## The relation -/

/-- The places of the elections, calls and replies of one system among those of another. -/
structure Numbering where
  elections : List Nat
  voteCalls : List Nat
  voteReplies : List Nat
  appendCalls : List Nat
  appendReplies : List Nat

/-- The same call, up to the number of its election. -/
structure SameVoteCall (elections : List Nat) (c c' : VoteCall) : Prop where
  caller : c'.caller = c.caller
  callee : c'.callee = c.callee
  args : c'.args = c.args
  election : elections[c.election]? = some c'.election

/-- The same reply, up to the number of its call. -/
structure SameReply {α : Type} (calls : List Nat) (r r' : Nat × α) : Prop where
  call : calls[r.1]? = some r'.1
  reply : r'.2 = r.2

/-- The calls that are open in one system are open in the other. -/
def SameOpen (calls : List Nat) (f f' : Nat → Bool) : Prop :=
  ∀ k k', calls[k]? = some k' → f' k' = f k

variable {σ : Type} {C : Cluster} {n : Numbering} {s s' t : System σ}

/-- `s` is `s'` without some of its messages. -/
structure Forgets (n : Numbering) (s s' : System σ) : Prop where
  nodes : s'.nodes = s.nodes
  applied : s'.applied = s.applied
  elections : Picks Eq s.elections n.elections s'.elections
  voteCalls : Picks (SameVoteCall n.elections) s.voteCalls n.voteCalls s'.voteCalls
  voteReplies : Picks (SameReply n.voteCalls) s.voteReplies n.voteReplies s'.voteReplies
  appendCalls : Picks Eq s.appendCalls n.appendCalls s'.appendCalls
  appendReplies : Picks (SameReply n.appendCalls) s.appendReplies n.appendReplies s'.appendReplies
  voteOpen : SameOpen n.voteCalls s.voteOpen s'.voteOpen
  appendOpen : SameOpen n.appendCalls s.appendOpen s'.appendOpen
  fresh : FreshCalls s
  fresh' : FreshCalls s'

theorem SameVoteCall.mono {ks more : List Nat} {c c' : VoteCall} (h : SameVoteCall ks c c') :
    SameVoteCall (ks ++ more) c c' :=
  ⟨h.caller, h.callee, h.args, getElem?_append_of_some h.election⟩

theorem SameReply.mono {α : Type} {ks more : List Nat} {r r' : Nat × α} (h : SameReply ks r r') :
    SameReply (ks ++ more) r r' :=
  ⟨getElem?_append_of_some h.call, h.reply⟩

/-- Calls that are made now are open in both systems. -/
theorem SameOpen.append {ks : List Nat} {f f' : Nat → Bool} (h : SameOpen ks f f') {m m' : Nat}
    (hf : ∀ k, ks.length ≤ k → f k = true) (hf' : ∀ k, m ≤ k → f' k = true) :
    SameOpen (ks ++ List.range' m m') f f' := by
  intro k k' hk
  rcases Nat.lt_or_ge k ks.length with hlt | hge
  · rw [List.getElem?_append_left hlt] at hk
    exact h k k' hk
  · rw [List.getElem?_append_right hge] at hk
    rw [hf k hge, hf' k' (List.mem_range'_1.mp (List.mem_of_getElem? hk)).1]

/-- A call that is answered is answered in both. -/
theorem SameOpen.update {ks : List Nat} {f f' : Nat → Bool} (h : SameOpen ks f f')
    (hks : ks.Nodup) {k k' : Nat} (hk : ks[k]? = some k') (b : Bool) :
    SameOpen ks (Function.update f k b) (Function.update f' k' b) := by
  intro j j' hj
  by_cases hjk : j = k
  · subst hjk
    obtain rfl : k' = j' := Option.some.inj (hk.symm.trans hj)
    rw [Function.update_self, Function.update_self]
  · -- a place is picked once, so another call is another place
    have hne : j' ≠ k' := fun heq => hjk
      ((List.getElem?_inj (List.getElem?_eq_some_iff.mp hj).1 hks).mp
        (hj.trans (heq ▸ hk.symm)))
    rw [Function.update_of_ne hjk, Function.update_of_ne hne]
    exact h j j' hj

section Step

variable [Storage σ]

/-- What a step of the one system is matched by in the other. -/
def Matched (C : Cluster) (s s' : System σ) (e : Event) (t : System σ) : Prop :=
  ∃ n' e' t', step C s' e' = some t' ∧ e'.node s' = e.node s ∧ Forgets n' t t'

theorem Forgets.fresh_step (h : Forgets n s s') {e e' : Event} {t t' : System σ}
    (hstep : step C s e = some t) (hstep' : step C s' e' = some t') :
    FreshCalls t ∧ FreshCalls t' := by
  obtain ⟨o, ht⟩ := step_transition hstep
  obtain ⟨o', ht'⟩ := step_transition hstep'
  exact ⟨h.fresh.step ht, h.fresh'.step ht'⟩

theorem Forgets.startElection (h : Forgets n s s') {i : NodeID}
    (hstep : step C s (.startElection i) = some t) : Matched C s s' (.startElection i) t := by
  have hi : i ∈ C.ids := by
    by_contra hi
    simp [step, hi] at hstep
  have hstep' := step_startElection (s := s') hi
  obtain ⟨hfresh, hfresh'⟩ := h.fresh_step hstep hstep'
  rw [step_startElection hi] at hstep
  obtain rfl := Option.some.inj hstep
  rw [h.nodes] at hstep' hfresh'
  -- the new election and its calls are at the end of both lists
  refine ⟨{ n with
    elections := n.elections ++ List.range' s'.elections.length 1
    voteCalls := n.voteCalls ++ List.range' s'.voteCalls.length
      ((s.nodes i).startElection.1.peers.map fun p =>
        (⟨i, p, (s.nodes i).startElection.2, s.elections.length⟩ : VoteCall)).length },
    _, _, hstep', rfl, ?_⟩
  exact {
    nodes := by simp [System.setNode, h.nodes]
    applied := h.applied
    elections := h.elections.append (.cons rfl .nil)
    -- the old calls keep their elections, and each new one has the new election
    voteCalls := by
      refine (h.voteCalls.imp fun _ _ hc => hc.mono).append ?_
      refine List.forall₂_map_left_iff.mpr (List.forall₂_map_right_iff.mpr ?_)
      refine List.forall₂_same.mpr fun p _ => ⟨rfl, rfl, rfl, ?_⟩
      simp [← h.elections.length_eq]
    voteReplies := h.voteReplies.imp fun _ _ hr => hr.mono
    appendCalls := h.appendCalls
    appendReplies := h.appendReplies
    voteOpen := h.voteOpen.append (h.voteCalls.length_eq ▸ h.fresh.vote) h.fresh'.vote
    appendOpen := h.appendOpen
    fresh := hfresh
    fresh' := hfresh' }

theorem Forgets.start (h : Forgets n s s') {i : NodeID} {command : Command}
    (hstep : step C s (.start i command) = some t) : Matched C s s' (.start i command) t := by
  have hi : i ∈ C.ids := by
    by_contra hi
    simp [step, hi] at hstep
  -- starting a command touches the node only
  have hstep' : step C s' (.start i command) =
      some (s'.setNode i ((s.nodes i).start command).1) := by
    simp [step, hi, h.nodes]
  obtain ⟨hfresh, hfresh'⟩ := h.fresh_step hstep hstep'
  obtain rfl : s.setNode i ((s.nodes i).start command).1 = t := by simpa [step, hi] using hstep
  refine ⟨n, _, _, hstep', rfl, ?_⟩
  exact { h with
    nodes := by simp [System.setNode, h.nodes]
    fresh := hfresh
    fresh' := hfresh' }

theorem Forgets.replicateTo (h : Forgets n s s') {i peer : NodeID}
    (hstep : step C s (.replicateTo i peer) = some t) :
    Matched C s s' (.replicateTo i peer) t := by
  simp only [step, Option.bind_eq_bind, Option.bind_eq_some_iff, Option.guard_eq_some'] at hstep
  obtain ⟨-, ⟨hi, hp⟩, args, hargs, ht⟩ := hstep
  have hstep := step_replicateTo hi hp hargs
  obtain rfl := Option.some.inj ht
  have hstep' := step_replicateTo (s := s') hi (h.nodes ▸ hp) (h.nodes ▸ hargs)
  obtain ⟨hfresh, hfresh'⟩ := h.fresh_step hstep hstep'
  -- the new call is at the end of both lists
  refine ⟨{ n with appendCalls := n.appendCalls ++ List.range' s'.appendCalls.length 1 },
    _, _, hstep', rfl, ?_⟩
  exact { h with
    appendCalls := h.appendCalls.append (.cons rfl .nil)
    appendReplies := h.appendReplies.imp fun _ _ hr => hr.mono
    appendOpen := h.appendOpen.append (h.appendCalls.length_eq ▸ h.fresh.append) h.fresh'.append
    fresh := hfresh
    fresh' := hfresh' }

theorem Forgets.deliverVote (h : Forgets n s s') {k : Nat}
    (hstep : step C s (.deliverVote k) = some t) : Matched C s s' (.deliverVote k) t := by
  cases hc : s.voteCalls[k]? with
  | none => simp [step, hc] at hstep
  | some c =>
    -- the same request stands at `k'` in the longer history
    obtain ⟨k', c', hk, hc', hsame⟩ := h.voteCalls.get k c hc
    have hstep' := step_deliverVote (C := C) hc'
    obtain ⟨hfresh, hfresh'⟩ := h.fresh_step hstep hstep'
    rw [step_deliverVote hc] at hstep
    obtain rfl := Option.some.inj hstep
    rw [h.nodes, hsame.callee, hsame.args] at hstep' hfresh'
    -- the reply is appended in both, under the two places of its call
    refine ⟨{ n with voteReplies := n.voteReplies ++ List.range' s'.voteReplies.length 1 },
      _, _, hstep', by simp [Event.node, hc, hc', hsame.callee], ?_⟩
    exact { h with
      nodes := by simp [System.setNode, h.nodes]
      voteReplies := h.voteReplies.append (.cons ⟨hk, rfl⟩ .nil)
      fresh := hfresh
      fresh' := hfresh' }

theorem Forgets.deliverAppend (h : Forgets n s s') {k : Nat}
    (hstep : step C s (.deliverAppend k) = some t) : Matched C s s' (.deliverAppend k) t := by
  cases hc : s.appendCalls[k]? with
  | none => simp [step, hc] at hstep
  | some c =>
    obtain ⟨k', c', hk, hc', rfl⟩ := h.appendCalls.get k c hc
    have hstep' := step_deliverAppend (C := C) hc'
    obtain ⟨hfresh, hfresh'⟩ := h.fresh_step hstep hstep'
    rw [step_deliverAppend hc] at hstep
    obtain rfl := Option.some.inj hstep
    rw [h.nodes] at hstep' hfresh'
    -- the reply is appended in both, under the two places of its call
    refine ⟨{ n with appendReplies := n.appendReplies ++ List.range' s'.appendReplies.length 1 },
      _, _, hstep', by simp [Event.node, hc, hc'], ?_⟩
    exact { h with
      nodes := by simp [System.setNode, h.nodes]
      appendReplies := h.appendReplies.append (.cons ⟨hk, rfl⟩ .nil)
      fresh := hfresh
      fresh' := hfresh' }

theorem Forgets.voteReply (h : Forgets n s s') {m : Nat}
    (hstep : step C s (.voteReply m) = some t) : Matched C s s' (.voteReply m) t := by
  have hinv := hstep
  simp only [step, Option.bind_eq_bind, Option.bind_eq_some_iff, Option.guard_eq_some'] at hinv
  obtain ⟨⟨k, reply⟩, hm, c, hc, e, he, -, hopen, ht⟩ := hinv
  obtain rfl := Option.some.inj ht
  -- the reply, its call and its election in the other system
  obtain ⟨m', ⟨k', reply'⟩, -, hm', hk, hreply⟩ := h.voteReplies.get m (k, reply) hm
  obtain rfl : reply' = reply := hreply
  obtain ⟨k'', c', hk', hc', hsame⟩ := h.voteCalls.get k c hc
  obtain rfl : k' = k'' := Option.some.inj (hk.symm.trans hk')
  obtain ⟨x, e', he', hy, rfl⟩ := h.elections.place hsame.election
  obtain rfl : x = e := Option.some.inj (he'.symm.trans he)
  have hopen' : s'.voteOpen k' = true := (h.voteOpen k k' hk).trans hopen
  have hr : (s'.nodes c'.caller).startElectionReply c'.args.term x.votes reply' =
      (((s.nodes c.caller).startElectionReply c.args.term x.votes reply').1,
        ((s.nodes c.caller).startElectionReply c.args.term x.votes reply').2) := by
    rw [h.nodes, hsame.caller, hsame.args]
  have hstep' := step_voteReply (C := C) hm' hc' hy hopen' hr
  obtain ⟨hfresh, hfresh'⟩ := h.fresh_step hstep hstep'
  rw [hsame.caller] at hstep' hfresh'
  refine ⟨n, _, _, hstep', by simp [Event.node, hm, hm', hc, hc', hsame.caller], ?_⟩
  exact { h with
    nodes := by simp [System.setNode, h.nodes]
    elections := h.elections.set hsame.election _
    voteOpen := h.voteOpen.update h.voteCalls.nodup hk false
    fresh := hfresh
    fresh' := hfresh' }

theorem Forgets.appendReply (h : Forgets n s s') {m : Nat}
    (hstep : step C s (.appendReply m) = some t) : Matched C s s' (.appendReply m) t := by
  have hinv := hstep
  simp only [step, Option.bind_eq_bind, Option.bind_eq_some_iff, Option.guard_eq_some'] at hinv
  obtain ⟨⟨k, reply⟩, hm, c, hc, -, hopen, ht⟩ := hinv
  obtain rfl := Option.some.inj ht
  -- the reply and its call in the other system
  obtain ⟨m', ⟨k', reply'⟩, -, hm', hk, hreply⟩ := h.appendReplies.get m (k, reply) hm
  obtain rfl : reply' = reply := hreply
  obtain ⟨k'', c', hk', hc', rfl⟩ := h.appendCalls.get k c hc
  obtain rfl : k' = k'' := Option.some.inj (hk.symm.trans hk')
  have hstep' := step_appendReply (C := C) hm' hc' ((h.appendOpen k k' hk).trans hopen)
  obtain ⟨hfresh, hfresh'⟩ := h.fresh_step hstep hstep'
  rw [h.nodes] at hstep' hfresh'
  refine ⟨n, _, _, hstep', by simp [Event.node, hm, hm', hc, hc'], ?_⟩
  exact { h with
    nodes := by simp [System.setNode, h.nodes]
    appendOpen := h.appendOpen.update h.appendCalls.nodup hk false
    fresh := hfresh
    fresh' := hfresh' }

theorem Forgets.apply (h : Forgets n s s') {i : NodeID}
    (hstep : step C s (.apply i) = some t) : Matched C s s' (.apply i) t := by
  have hinv := hstep
  simp only [step, Option.bind_eq_bind, Option.bind_eq_some_iff, Option.guard_eq_some'] at hinv
  obtain ⟨-, hi, ⟨r, msg⟩, hr, ht⟩ := hinv
  obtain rfl := Option.some.inj ht
  have hstep' := step_applyLoop (s := s') hi (h.nodes ▸ hr)
  obtain ⟨hfresh, hfresh'⟩ := h.fresh_step hstep hstep'
  refine ⟨n, _, _, hstep', rfl, ?_⟩
  exact { h with
    nodes := by simp [System.setNode, h.nodes]
    applied := by simp [h.applied]
    fresh := hfresh
    fresh' := hfresh' }

/-! ## A node that goes down -/

/-- Node `i` goes down, and comes up on the storage `st`: its goroutines are gone, so its open
    calls can no longer be answered. -/
def System.halted (C : Cluster) (s : System σ) (i : NodeID) (st : σ) : System σ :=
  { s.setNode i (Raft.new i (C.peers i) st) with
    voteOpen := fun k => s.voteOpen k && !(s.voteCalls[k]?).any (·.caller = i)
    appendOpen := fun k => s.appendOpen k && !(s.appendCalls[k]?).any (·.caller = i) }

theorem step_restart_eq {i : NodeID} (hi : i ∈ C.ids) :
    step C s (.restart i) = some (s.halted C i (s.nodes i).storage) := by
  simp [step, hi, System.halted]

theorem FreshCalls.halted (hf : FreshCalls s) {i : NodeID} {st : σ} :
    FreshCalls (s.halted C i st) where
  vote k hk := by
    replace hk : s.voteCalls.length ≤ k := hk
    simp [System.halted, hf.vote k hk, List.getElem?_eq_none hk]
  append k hk := by
    replace hk : s.appendCalls.length ≤ k := hk
    simp [System.halted, hf.append k hk, List.getElem?_eq_none hk]

/-- Everything in which `t` differs from `s` concerns node `i`, or is a message it sends. -/
structure SentBy (i : NodeID) (s t : System σ) : Prop where
  nodes : ∀ j ≠ i, t.nodes j = s.nodes j
  applied : t.applied = s.applied
  elections : s.elections <+: t.elections
  voteCalls : s.voteCalls <+: t.voteCalls
  voteReplies : s.voteReplies <+: t.voteReplies
  appendCalls : s.appendCalls <+: t.appendCalls
  appendReplies : s.appendReplies <+: t.appendReplies
  voteOpen : ∀ k c, s.voteCalls[k]? = some c → c.caller ≠ i → t.voteOpen k = s.voteOpen k
  appendOpen : ∀ k c, s.appendCalls[k]? = some c → c.caller ≠ i → t.appendOpen k = s.appendOpen k

omit [Storage σ] in
theorem SentBy.refl (i : NodeID) (s : System σ) : SentBy i s s where
  nodes _ _ := rfl
  applied := rfl
  elections := List.prefix_rfl
  voteCalls := List.prefix_rfl
  voteReplies := List.prefix_rfl
  appendCalls := List.prefix_rfl
  appendReplies := List.prefix_rfl
  voteOpen _ _ _ _ := rfl
  appendOpen _ _ _ _ := rfl

omit [Storage σ] in
/-- Node `i` is replaced, and some messages are sent. -/
theorem SentBy.ofNode {i : NodeID} {r : Raft σ} {elections : List Election}
    {voteCalls : List VoteCall} {voteReplies : List (Nat × RequestVoteReply)}
    {appendReplies : List (Nat × AppendEntriesReply)} {voteOpen : Nat → Bool}
    (helections : s.elections <+: elections) (hcalls : s.voteCalls <+: voteCalls)
    (hvotes : s.voteReplies <+: voteReplies) (happends : s.appendReplies <+: appendReplies)
    (hopen : ∀ k c, s.voteCalls[k]? = some c → c.caller ≠ i → voteOpen k = s.voteOpen k) :
    SentBy i s { s.setNode i r with
      elections := elections
      voteCalls := voteCalls
      voteReplies := voteReplies
      appendReplies := appendReplies
      voteOpen := voteOpen } where
  nodes _ hj := Function.update_of_ne hj ..
  applied := rfl
  elections := helections
  voteCalls := hcalls
  voteReplies := hvotes
  appendCalls := List.prefix_rfl
  appendReplies := happends
  voteOpen := hopen
  appendOpen _ _ _ _ := rfl

omit [Storage σ] in
/-- The storage of a node changes in a critical section of that node. -/
theorem eq_of_storage_ne {i j : NodeID} {r : Raft σ}
    (h : (Function.update s.nodes j r i).storage ≠ (s.nodes i).storage) : j = i := by
  by_contra hne
  rw [Function.update_of_ne (Ne.symm hne)] at h
  exact h rfl

/-- A transition that changes the storage of a node is one of its critical sections, and does
    nothing else but send messages. -/
theorem Transition.sentBy {o : Option NodeID} {i : NodeID} (h : Transition C s o t)
    (hne : (t.nodes i).storage ≠ (s.nodes i).storage) : SentBy i s t := by
  -- only a node that saves can have been cut short, so most events need no look at the messages
  cases h with
  | idle => exact absurd rfl hne
  -- the request and the counter are new, everything older stays
  | startElection j hj =>
    obtain rfl := eq_of_storage_ne hne
    exact .ofNode (List.prefix_append _ _) (List.prefix_append _ _) List.prefix_rfl
      List.prefix_rfl fun _ _ _ _ => rfl
  | start j command =>
    obtain rfl := eq_of_storage_ne hne
    exact .ofNode List.prefix_rfl List.prefix_rfl List.prefix_rfl List.prefix_rfl
      fun _ _ _ _ => rfl
  | replicateTo => exact absurd rfl hne
  | deliverVote k c r reply =>
    obtain rfl := eq_of_storage_ne hne
    exact .ofNode List.prefix_rfl List.prefix_rfl (List.prefix_append _ _) List.prefix_rfl
      fun _ _ _ _ => rfl
  | deliverAppend k c r reply =>
    obtain rfl := eq_of_storage_ne hne
    exact .ofNode List.prefix_rfl List.prefix_rfl List.prefix_rfl (List.prefix_append _ _)
      fun _ _ _ _ => rfl
  -- a reply is saved only when it makes the node step down
  | voteReply k reply c e r votes _ hc he _ hr =>
    obtain rfl := eq_of_storage_ne hne
    replace hne : (Function.update s.nodes c.caller r c.caller).storage ≠ _ := hne
    rw [Function.update_self] at hne
    cases hr with
    | ignored | counted | elected => exact absurd rfl hne
    | steppedDown =>
      -- the counter stays, and the call that was answered is one of this node
      refine .ofNode ?_ List.prefix_rfl List.prefix_rfl List.prefix_rfl fun k' c' hc' hcaller => ?_
      · obtain ⟨hlt, rfl⟩ := List.getElem?_eq_some_iff.mp he
        exact (List.set_getElem_self hlt).symm ▸ List.prefix_rfl
      · refine Function.update_of_ne ?_ ..
        rintro rfl
        exact hcaller (Option.some.inj (hc'.symm.trans hc) ▸ rfl)
  -- no answer to an append is saved
  | appendReply k reply c r _ hc _ hr =>
    obtain rfl := eq_of_storage_ne hne
    replace hne : (Function.update s.nodes c.caller r c.caller).storage ≠ _ := hne
    rw [Function.update_self] at hne
    cases hr with
    | ignored | steppedDown | matched | backedUp => exact absurd rfl hne
  | apply j r msg _ hr =>
    obtain rfl := eq_of_storage_ne hne
    replace hne : (Function.update s.nodes j r j).storage ≠ _ := hne
    rw [Function.update_self] at hne
    obtain ⟨_, rfl, _⟩ := applyLoop_eq_some hr
    exact absurd rfl hne
  -- a restart reads what is stored and saves nothing
  | restart j =>
    obtain rfl := eq_of_storage_ne hne
    replace hne : (Function.update s.nodes j (Raft.new j (C.peers j) (s.nodes j).storage) j).storage
      ≠ _ := hne
    rw [Function.update_self, storage_new] at hne
    exact absurd rfl hne

/-- A call of the other system is open after node `i` went down if it was open before and is
    not one of node `i`. -/
theorem SameOpen.halted {α : Type} {R : α → α → Prop} {caller : α → NodeID} {ks : List Nat}
    {l l' m' : List α} {f f' g' : Nat → Bool} {i : NodeID} (h : SameOpen ks f f')
    (hl : Picks R l ks l') (hcaller : ∀ c c', R c c' → caller c' = caller c) (hpre : l' <+: m')
    (hg : ∀ k c, l'[k]? = some c → caller c ≠ i → g' k = f' k) :
    SameOpen ks (fun k => f k && !(l[k]?).any (caller · = i))
      (fun k => g' k && !(m'[k]?).any (caller · = i)) := by
  intro k k' hk
  obtain ⟨c, c', hc, hc', hR⟩ := hl.place hk
  have hm' : m'[k']? = some c' := by
    obtain ⟨more, rfl⟩ := hpre
    exact getElem?_append_of_some hc'
  -- the calls of the halted node are closed in both, the others were open in both or in neither
  by_cases hi : caller c = i
  · simp [hc, hm', hcaller c c' hR, hi]
  · have hopen := hg k' c' hc' (hcaller c c' hR ▸ hi)
    simp [hc, hm', hcaller c c' hR, hi, hopen, h k k' hk]

/-- **A node goes down** after a critical section whose messages only one system has. -/
theorem Forgets.halted (h : Forgets n s s') {i : NodeID} {t' : System σ} (hsent : SentBy i s' t')
    (hfresh' : FreshCalls t') (st : σ) : Forgets n (s.halted C i st) (t'.halted C i st) where
  nodes := by
    -- the halted node starts from what it had saved, the others did not take part
    funext j
    simp only [System.halted, System.setNode]
    by_cases hj : j = i
    · rw [hj, Function.update_self, Function.update_self]
    · rw [Function.update_of_ne hj, Function.update_of_ne hj, hsent.nodes j hj, h.nodes]
  applied := hsent.applied.trans h.applied
  elections := h.elections.grow hsent.elections
  voteCalls := h.voteCalls.grow hsent.voteCalls
  voteReplies := h.voteReplies.grow hsent.voteReplies
  appendCalls := h.appendCalls.grow hsent.appendCalls
  appendReplies := h.appendReplies.grow hsent.appendReplies
  voteOpen := h.voteOpen.halted h.voteCalls (fun _ _ hc => hc.caller) hsent.voteCalls
    hsent.voteOpen
  appendOpen := h.appendOpen.halted h.appendCalls (fun _ _ hc => hc ▸ rfl) hsent.appendCalls
    hsent.appendOpen
  fresh := h.fresh.halted
  fresh' := hfresh'.halted

theorem Forgets.restart (h : Forgets n s s') {i : NodeID}
    (hstep : step C s (.restart i) = some t) : Matched C s s' (.restart i) t := by
  have hi : i ∈ C.ids := by
    by_contra hi
    simp [step, hi] at hstep
  rw [step_restart_eq hi] at hstep
  obtain rfl := Option.some.inj hstep
  refine ⟨n, _, _, step_restart_eq hi, rfl, ?_⟩
  rw [h.nodes]
  exact h.halted (SentBy.refl i s') h.fresh' _

/-- **What happens in a system can happen with more messages around.** -/
theorem Forgets.step (h : Forgets n s s') {e : Event} (hstep : step C s e = some t) :
    Matched C s s' e t := by
  cases e with
  | startElection i => exact h.startElection hstep
  | start i command => exact h.start hstep
  | replicateTo i peer => exact h.replicateTo hstep
  | deliverVote k => exact h.deliverVote hstep
  | deliverAppend k => exact h.deliverAppend hstep
  | voteReply m => exact h.voteReply hstep
  | appendReply m => exact h.appendReply hstep
  | apply i => exact h.apply hstep
  | restart i => exact h.restart hstep

end Step

end EventLog.Raft
