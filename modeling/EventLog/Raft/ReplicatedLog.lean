import EventLog.Lib.Simulation
import EventLog.Raft.Bounds

/-!
# The cluster as one replicated log

What a cluster is for: its callers hand commands to `Start` and read the apply channels,
and all they see is one log that only grows.  `ReplicatedLog` is this log, with the
promises `Start` has given and the point each node has delivered up to; it knows nothing
of terms in which nobody proposed, of votes, of messages or of what a node stores.

The cluster refines it (`cluster_refines_replicatedLog`): in every run, with calls lost,
duplicated and delayed and with nodes crashing at any point, each answer of `Start` and
each message on an apply channel is one the replicated log gives.  So all nodes deliver
the same entries in the same order, an entry stands at the index `Start` answered when it
was proposed, and nothing is delivered that was not proposed.
-/

namespace EventLog.Raft

open EventLog.Lib

/-! ## The abstract log -/

/-- The log the cluster provides. -/
structure ReplicatedLog where
  /-- The entries `Start` accepted, each with the index it promised. -/
  proposed : List (Nat × LogEntry)
  /-- The decided entries; the one of index `n` is at position `n - 1`. -/
  log : List LogEntry
  /-- How many entries each node has delivered since its last start. -/
  delivered : NodeID → Nat

/-- What the callers of a node see of an event: the answer of `Start`, and the message on
    the apply channel. -/
inductive Output where
  | started (index term : Nat) (isLeader : Bool)
  | delivered (i : NodeID) (msg : ApplyMsg)
  | silent
  deriving DecidableEq

namespace ReplicatedLog

def empty : ReplicatedLog where
  proposed := []
  log := []
  delivered _ := 0

/-- What an event may do to the log, with its answer. -/
inductive Step : ReplicatedLog → Event → ReplicatedLog → Output → Prop where
  /-- A leader accepts a command and promises an index no other command has in its term. -/
  | proposed (b i command index term) : (∀ p ∈ b.proposed, p.1 = index → p.2.term ≠ term) →
      Step b (.start i command)
        { b with proposed := b.proposed ++ [(index, ⟨term, command⟩)] } (.started index term true)
  /-- Any other node refuses it. -/
  | refused (b i command term) : Step b (.start i command) b (.started 0 term false)
  /-- A reply decides any number of entries, each at the index it was promised. -/
  | decided (b m new) : (∀ k e, new[k]? = some e → (b.log.length + k + 1, e) ∈ b.proposed) →
      Step b (.appendReply m) { b with log := b.log ++ new } .silent
  /-- A node delivers the next decided entry. -/
  | delivered (b i e) : b.log[b.delivered i]? = some e →
      Step b (.apply i)
        { b with delivered := Function.update b.delivered i (b.delivered i + 1) }
        (.delivered i ⟨true, e.command, b.delivered i + 1⟩)
  /-- A restarted node delivers from the beginning again. -/
  | restarted (b i) : Step b (.restart i)
      { b with delivered := Function.update b.delivered i 0 } .silent
  | startElection (b i) : Step b (.startElection i) b .silent
  | replicateTo (b i peer) : Step b (.replicateTo i peer) b .silent
  | deliverVote (b k) : Step b (.deliverVote k) b .silent
  | deliverAppend (b k) : Step b (.deliverAppend k) b .silent
  | voteReply (b m) : Step b (.voteReply m) b .silent

/-- The promise an event gave, from its answer. -/
def promise : Event × Output → Option (Nat × LogEntry)
  | (.start _ command, .started index term true) => some (index, ⟨term, command⟩)
  | _ => none

/-- The proposed entries are the promises the callers were given. -/
theorem proposed_eq {b b' : ReplicatedLog} {es : List Event} {os : List Output}
    (h : Behaves Step b es b' os) :
    b'.proposed = b.proposed ++ (es.zip os).filterMap promise := by
  induction h with
  | nil b => simp
  | cons hstep _ ih =>
    rw [ih]
    cases hstep <;> simp [promise, List.filterMap_cons]

/-- Every decided entry was proposed for the index it has. -/
def Valid (b : ReplicatedLog) : Prop :=
  ∀ k e, b.log[k]? = some e → (k + 1, e) ∈ b.proposed

theorem Step.valid {b b' : ReplicatedLog} {ev : Event} {out : Output} (hb : Valid b)
    (h : Step b ev b' out) : Valid b' := by
  cases h with
  | proposed i command index term =>
    intro k e he
    exact List.mem_append_left _ (hb k e he)
  -- the new entries stand behind the old ones and were proposed for their places
  | decided m new hnew =>
    intro k e he
    rcases Nat.lt_or_ge k b.log.length with hk | hk
    · rw [List.getElem?_append_left hk] at he
      exact hb k e he
    · rw [List.getElem?_append_right hk] at he
      have hmem := hnew _ e he
      rwa [Nat.add_sub_cancel' hk] at hmem
  | _ => exact hb

/-- **Run lemma**: what a run decides, a call of `Start` in it was answered with. -/
theorem origin {b : ReplicatedLog} {es : List Event} {os : List Output}
    (h : Behaves Step empty es b os) {k : Nat} {e : LogEntry} (he : b.log[k]? = some e) :
    ∃ (m : Nat) (i : NodeID), es[m]? = some (Event.start i e.command) ∧
      os[m]? = some (Output.started (k + 1) e.term true) := by
  have hvalid : Valid b := h.invariant (P := Valid) Step.valid fun k e he => by simp [empty] at he
  have hmem := hvalid k e he
  rw [proposed_eq h, empty, List.nil_append, List.mem_filterMap] at hmem
  obtain ⟨⟨ev, out⟩, hzip, hpromise⟩ := hmem
  obtain ⟨m, hm⟩ := List.mem_iff_getElem?.mp hzip
  rw [List.getElem?_zip_eq_some] at hm
  -- an entry is promised only by a `Start` that was accepted
  unfold promise at hpromise
  split at hpromise
  · next i command index term heq =>
    obtain ⟨rfl, rfl⟩ := Prod.mk.inj heq
    obtain ⟨rfl, rfl⟩ := Prod.mk.inj (Option.some.inj hpromise)
    exact ⟨m, i, hm.1, hm.2⟩
  · cases hpromise

end ReplicatedLog

/-! ## The cluster with its answers -/

section Cluster

variable {σ : Type} [Storage σ]

/-- What the callers see of the event in this state. -/
def System.output (s : System σ) : Event → Output
  | .start i command =>
    let (index, term, isLeader) := ((s.nodes i).start command).2
    .started index term isLeader
  | .apply i =>
    match (s.nodes i).applyLoop with
    | some (_, msg) => .delivered i msg
    | none => .silent
  | _ => .silent

/-- One transition with what the callers see of it. -/
def System.answer (C : Cluster) (s : System σ) (ev : Event) : Option (System σ × Output) :=
  (step C s ev).map fun s' => (s', s.output ev)

end Cluster

/-! ## The simulation -/

section Simulation

variable {σ : Type} [ReliableStorage σ] {C : Cluster} {s s' : System σ} {o : Option NodeID}
  {g : History} {b : ReplicatedLog}

/-- The list is the committed beginning of a leader's log, without the sentinel. -/
def Decided (C : Cluster) (s : System σ) (g : History) (log : List LogEntry) : Prop :=
  log = [] ∨ ∃ t n, Committed C s g t n ∧ log.length ≤ n ∧ g.upTo t log.length = sentinel :: log

/-- The cluster provides the replicated log `b`. -/
structure Provides (C : Cluster) (s : System σ) (g : History) (b : ReplicatedLog) : Prop where
  inv : Inv C s g
  promised : ∀ p ∈ b.proposed, (g.leaderLog p.2.term)[p.1]? = some p.2
  own : ∀ t n e, 0 < n → (g.leaderLog t)[n]? = some e → e.term = t → (n, e) ∈ b.proposed
  decided : Decided C s g b.log
  node : ∀ i ∈ C.ids,
    (s.nodes i).commitIndex ≤ b.log.length ∧ b.delivered i = (s.nodes i).lastApplied
  call : ∀ c ∈ s.appendCalls, c.args.leaderCommit ≤ b.log.length

theorem Decided.step (hs : Sound C s g) (h : Transition C s o s') {log : List LogEntry}
    (hd : Decided C s g log) : Decided C s' (g.observe s' o) log := by
  rcases hd with hnil | ⟨t, n, hcom, hle, hlog⟩
  · exact Or.inl hnil
  · refine Or.inr ⟨t, n, hcom.step hs h, hle, ?_⟩
    rw [History.upTo_grow (hs.le h) (Nat.lt_of_le_of_lt hle hcom.lt)]
    exact hlog

/-- Every committed prefix that is long enough extends the decided list. -/
theorem Decided.extend (hi : Inv C s g) {log : List LogEntry} (hd : Decided C s g log)
    {t n k : Nat} (hcom : Committed C s g t n) (hk : k ≤ n) (hlen : log.length ≤ k) :
    ∃ new, (log ++ new).length = k ∧ g.upTo t k = sentinel :: (log ++ new) := by
  -- a leader's log starts with the sentinel
  obtain ⟨c, hled⟩ := hcom.led hi.sound
  have hhead := (hi.sound.logs.led t c hled).head
  have hsplit : g.upTo t k = sentinel :: (g.upTo t k).tail := by
    rw [List.eq_cons_of_mem_head? (show (g.upTo t k).head? = some sentinel from ?_)]
    · rfl
    · rw [List.head?_eq_getElem?, History.upTo, List.getElem?_take_of_lt (Nat.succ_pos k)]
      exact hhead
  have hlength : (g.upTo t k).tail.length = k := by
    rw [List.length_tail, hcom.length_upTo hk, Nat.add_sub_cancel]
  have hpre : log <+: (g.upTo t k).tail := by
    rcases hd with rfl | ⟨t₀, n₀, hcom₀, hle₀, hlog⟩
    · exact List.nil_prefix
    · -- both lists are committed, so they agree as far as the shorter one reaches
      have hagree := hcom₀.agree hi.sound hi.acks hcom hle₀ (Nat.le_trans hlen hk)
      have hmono := g.upTo_mono t hlen
      rw [← hagree, hlog, hsplit] at hmono
      exact (List.cons_prefix_cons.mp hmono).2
  obtain ⟨new, hnew⟩ := hpre
  exact ⟨new, by rw [hnew, hlength], by rw [hnew]; exact hsplit⟩

/-- An entry of any log of the cluster was proposed for the index it has there. -/
theorem Provides.proposed_of_log (hp : Provides C s g b) {t n : Nat} {log : List LogEntry}
    {e : LogEntry} (hwf : WfLog g t log) (hn : 0 < n) (he : log[n]? = some e) :
    (n, e) ∈ b.proposed := by
  refine hp.own e.term n e hn (getElem?_mono (hwf.coherent.agree n e he) ?_) rfl
  rw [List.getElem?_take_of_lt (Nat.lt_succ_self n)]
  exact he

/-- What a node has committed, it holds as decided. -/
theorem Provides.take_log (hp : Provides C s g b) {i : NodeID} (hi : i ∈ C.ids) :
    (s.nodes i).log.take ((s.nodes i).commitIndex + 1) =
      sentinel :: b.log.take (s.nodes i).commitIndex := by
  -- nothing is committed yet, or the node's prefix is a committed one
  rcases hp.inv.commits.commit i hi with hzero | ⟨t, n, hcom, hcn, _, hpre⟩
  · rw [hzero, take_succ_eq_append (hp.inv.sound.logs.node i hi).head]
    rfl
  · rw [hcom.take_eq hcn (Nat.le_refl _) hpre]
    -- the decided list and the node's prefix are committed, so they agree
    rcases hp.decided with hnil | ⟨t₀, n₀, hcom₀, hle₀, hlog⟩
    · have hle := (hp.node i hi).1
      rw [hnil, List.length_nil, Nat.le_zero] at hle
      obtain ⟨c, hled⟩ := hcom.led hp.inv.sound
      rw [hle, History.upTo, take_succ_eq_append (hp.inv.sound.logs.led t c hled).head]
      rfl
    · have hle := (hp.node i hi).1
      rw [hcom.agree hp.inv.sound hp.inv.acks hcom₀ hcn (Nat.le_trans hle hle₀),
        ← List.take_succ_cons, ← hlog, History.upTo, History.upTo, List.take_take,
        Nat.min_eq_left (Nat.succ_le_succ hle)]

theorem Provides.getElem?_log (hp : Provides C s g b) {i : NodeID} (hi : i ∈ C.ids) {n : Nat}
    (hn : n < (s.nodes i).commitIndex) : (s.nodes i).log[n + 1]? = b.log[n]? := by
  rw [← List.getElem?_take_of_lt (Nat.succ_lt_succ hn), hp.take_log hi, List.getElem?_cons_succ,
    List.getElem?_take_of_lt hn]

/-- Replacing a node by one that has committed nothing undecided. -/
theorem Provides.update_delivered (hp : Provides C s g b) {i : NodeID} {r : Raft σ}
    (hcommit : r.commitIndex ≤ b.log.length) :
    ∀ j ∈ C.ids, (Function.update s.nodes i r j).commitIndex ≤ b.log.length ∧
      Function.update b.delivered i r.lastApplied j =
        (Function.update s.nodes i r j).lastApplied := by
  intro j hj
  by_cases hji : j = i
  · subst hji
    rw [Function.update_self, Function.update_self]
    exact ⟨hcommit, rfl⟩
  · rw [Function.update_of_ne hji, Function.update_of_ne hji]
    exact hp.node j hj

/-- The same with a node that has delivered as much. -/
theorem Provides.update (hp : Provides C s g b) {i : NodeID} (hi : i ∈ C.ids) {r : Raft σ}
    (hcommit : r.commitIndex ≤ b.log.length)
    (happlied : r.lastApplied = (s.nodes i).lastApplied) :
    ∀ j ∈ C.ids, (Function.update s.nodes i r j).commitIndex ≤ b.log.length ∧
      b.delivered j = (Function.update s.nodes i r j).lastApplied := by
  have hnode := hp.update_delivered (i := i) hcommit
  rwa [happlied, ← (hp.node i hi).2, Function.update_eq_self] at hnode

/-- A transition in which no leader extends its log keeps promises and decisions. -/
theorem Provides.keep (hp : Provides C s g b) (h : Transition C s o s')
    (hown : ∀ (t n : Nat) (e : LogEntry), ((g.observe s' o).leaderLog t)[n]? = some e →
      e.term = t → (g.leaderLog t)[n]? = some e) {delivered : NodeID → Nat}
    (hnode : ∀ i ∈ C.ids,
      (s'.nodes i).commitIndex ≤ b.log.length ∧ delivered i = (s'.nodes i).lastApplied)
    (hcall : ∀ c ∈ s'.appendCalls, c.args.leaderCommit ≤ b.log.length) :
    Provides C s' (g.observe s' o) { b with delivered := delivered } where
  inv := hp.inv.step h
  promised p hmem := getElem?_mono ((hp.inv.sound.le h).2 _) (hp.promised p hmem)
  own t n e hn he hterm := hp.own t n e hn (hown t n e he hterm) hterm
  decided := hp.decided.step hp.inv.sound h
  node := hnode
  call := hcall

/-- A transition that names no leader leaves the leaders' logs as they were. -/
theorem Provides.quiet (hp : Provides C s g b) (h : Transition C s none s')
    (hnode : ∀ i ∈ C.ids,
      (s'.nodes i).commitIndex ≤ b.log.length ∧ b.delivered i = (s'.nodes i).lastApplied)
    (hcall : ∀ c ∈ s'.appendCalls, c.args.leaderCommit ≤ b.log.length) : Provides C s' g b :=
  hp.keep h (fun _ _ _ he _ => he) hnode hcall

/-- A new leader has no entry of its own term yet. -/
theorem Elected.own {c : NodeID} (hs : Sound C s g) (he : Elected C s s' c) {t n : Nat}
    {e : LogEntry} (hget : ((g.observe s' (some c)).leaderLog t)[n]? = some e)
    (hterm : e.term = t) : (g.leaderLog t)[n]? = some e := by
  by_cases htc : t = (s'.nodes c).currentTerm
  · subst htc
    rw [g.observe_leaderLog_self s' c, he.log] at hget
    have hlt := hs.logs.candidate c he.mem he.candidate e (List.mem_of_getElem? hget)
    rw [hterm, he.term] at hlt
    exact absurd hlt (Nat.lt_irrefl _)
  · rwa [g.observe_leaderLog_of_ne s' c htc] at hget

omit [ReliableStorage σ] in
theorem newLeader_eq_some {i j : NodeID} {r r' : Raft σ} (h : newLeader i r r' = some j) :
    j = i ∧ r.state = .candidate := by
  unfold newLeader at h
  split_ifs at h with hcond
  exact ⟨(Option.some.inj h).symm, hcond.1⟩

/-- A vote reply makes at most a new leader. -/
theorem newLeader_own {i : NodeID} {r : Raft σ} (hs : Sound C s g)
    (h : Transition C s (newLeader i (s.nodes i) r) s') {t n : Nat} {e : LogEntry}
    (hget : ((g.observe s' (newLeader i (s.nodes i) r)).leaderLog t)[n]? = some e)
    (hterm : e.term = t) : (g.leaderLog t)[n]? = some e := by
  have hlead := hs.leadership h
  generalize ho : newLeader i (s.nodes i) r = o at hlead hget
  cases hlead with
  | elected c he => exact he.own hs hget hterm
  | extended j command he =>
    -- a node that extends its log leads already
    obtain ⟨rfl, hcand⟩ := newLeader_eq_some ho
    have hl := he.leader
    rw [hcand] at hl
    cases hl
  | kept => exact hget

/-! ### One event at a time -/

theorem RequestVoteOutcome.commitIndex_eq {r r' : Raft σ} {args : RequestVoteArgs}
    {reply : RequestVoteReply} (h : RequestVoteOutcome r args r' reply) :
    r'.commitIndex = r.commitIndex := by
  cases h <;> rfl

theorem VoteReplyOutcome.commitIndex_eq {r r' : Raft σ} {term votes votes' : Nat}
    {reply : RequestVoteReply} (h : VoteReplyOutcome r term votes reply r' votes') :
    r'.commitIndex = r.commitIndex := by
  cases h <;> rfl

/-- `Start` on a leader promises the next index of its log. -/
theorem Provides.start (hp : Provides C s g b) {i : NodeID} (hi : i ∈ C.ids) (command : Command)
    (hl : (s.nodes i).state = .leader) :
    (∀ p ∈ b.proposed, p.1 = (s.nodes i).log.length → p.2.term ≠ (s.nodes i).currentTerm) ∧
      ∃ g', Provides C (s.setNode i ((s.nodes i).extendLog command)) g'
        { b with proposed := b.proposed ++
          [((s.nodes i).log.length, ⟨(s.nodes i).currentTerm, command⟩)] } := by
  have hlog := hp.inv.sound.logs.leader i hi hl
  refine ⟨fun p hmem hidx hterm => ?_, ?_⟩
  · -- a promise of this term points into the leader's log
    have hget := hp.promised p hmem
    rw [hterm, hlog, hidx, List.getElem?_eq_none (Nat.le_refl _)] at hget
    cases hget
  have h : Transition C s (some i) (s.setNode i ((s.nodes i).extendLog command)) :=
    .start i command hi hl
  generalize hs' : s.setNode i ((s.nodes i).extendLog command) = s' at h ⊢
  have hnode : s'.nodes i = (s.nodes i).extendLog command := by
    rw [← hs']
    exact Function.update_self ..
  have hterm' : (s'.nodes i).currentTerm = (s.nodes i).currentTerm := by
    rw [hnode]
    rfl
  -- the recorded log of the term is the old one with the new entry at its end
  have hgrown : (g.observe s' (some i)).leaderLog (s.nodes i).currentTerm =
      g.leaderLog (s.nodes i).currentTerm ++ [⟨(s.nodes i).currentTerm, command⟩] := by
    rw [← hterm', g.observe_leaderLog_self s' i, hterm', hlog, hnode]
    rfl
  refine ⟨g.observe s' (some i), hp.inv.step h, ?_, ?_, hp.decided.step hp.inv.sound h, ?_, ?_⟩
  · -- the promises so far and the new one
    intro p hmem
    rcases List.mem_append.mp hmem with hmem | hmem
    · exact getElem?_mono ((hp.inv.sound.le h).2 _) (hp.promised p hmem)
    · obtain rfl := List.mem_singleton.mp hmem
      rw [hgrown, hlog]
      simp
  · -- an entry of this term is an old one or the new one, of other terms nothing changed
    intro t n e hn hget hterm
    by_cases ht : t = (s.nodes i).currentTerm
    · subst ht
      rw [hgrown] at hget
      rcases Nat.lt_or_ge n (g.leaderLog (s.nodes i).currentTerm).length with hlt | hge
      · rw [List.getElem?_append_left hlt] at hget
        exact List.mem_append_left _ (hp.own _ n e hn hget hterm)
      · rw [List.getElem?_append_right hge, List.getElem?_singleton] at hget
        split_ifs at hget with hzero
        obtain rfl := Option.some.inj hget
        have hlen : n = (s.nodes i).log.length := by
          rw [hlog] at hge hzero
          omega
        rw [hlen]
        exact List.mem_append_right _ (List.mem_singleton.mpr rfl)
    · rw [g.observe_leaderLog_of_ne s' i (by rw [hterm']; exact ht)] at hget
      exact List.mem_append_left _ (hp.own t n e hn hget hterm)
  · rw [← hs']
    exact hp.update hi (hp.node i hi).1 rfl
  · rw [← hs']
    exact hp.call

/-- A follower commits at most what a leader announced. -/
theorem AppendEntriesOutcome.commitIndex_le {r r' : Raft σ} {args : AppendEntriesArgs}
    {reply : AppendEntriesReply} (h : AppendEntriesOutcome r args r' reply) {n : Nat}
    (hr : r.commitIndex ≤ n) (hargs : args.leaderCommit ≤ n) :
    r'.commitIndex ≤ n ∧ r'.lastApplied = r.lastApplied := by
  cases h with
  | stale => exact ⟨hr, rfl⟩
  | rejected =>
    refine ⟨?_, persistIf_lastApplied _ _⟩
    rw [persistIf_commitIndex]
    exact hr
  | accepted =>
    refine ⟨?_, persistIf_lastApplied _ _⟩
    rw [persistIf_commitIndex]
    simp only
    split_ifs <;> omega

/-- A reply at the leader decides what lies between the decided part and the commit index. -/
theorem Provides.appendReply (hp : Provides C s g b) {i : NodeID} (hi : i ∈ C.ids)
    (h : Transition C s none s') {r : Raft σ} (hnodes : s'.nodes = Function.update s.nodes i r)
    (happlied : r.lastApplied = (s.nodes i).lastApplied)
    (hcalls : s'.appendCalls = s.appendCalls) :
    ∃ new, (∀ k e, new[k]? = some e → (b.log.length + k + 1, e) ∈ b.proposed) ∧
      Provides C s' g { b with log := b.log ++ new } := by
  by_cases hle : r.commitIndex ≤ b.log.length
  · -- nothing new
    refine ⟨[], by simp, ?_⟩
    rw [List.append_nil]
    refine hp.quiet h ?_ (hcalls ▸ hp.call)
    rw [hnodes]
    exact hp.update hi hle happlied
  -- the commit index passes what was decided so far, so entries are decided now
  have hinv : Inv C s' g := hp.inv.step h
  have hself : s'.nodes i = r := by rw [hnodes, Function.update_self]
  have hcommit := hinv.commits.commit i hi
  rw [hself] at hcommit
  rcases hcommit with hzero | ⟨t, n, hcom, hcn, _, _⟩
  · omega
  have hdecided : Decided C s' g b.log := hp.decided.step hp.inv.sound h
  obtain ⟨new, hlen, hupTo⟩ := hdecided.extend hinv hcom hcn (Nat.le_of_not_le hle)
  have hmono : b.log.length ≤ (b.log ++ new).length := by
    rw [List.length_append]
    exact Nat.le_add_right _ _
  refine ⟨new, fun k e he => ?_, hinv, hp.promised, hp.own, ?_, ?_, ?_⟩
  · -- the entry stands in a leader's log at this index
    obtain ⟨c, hled⟩ := hcom.led hinv.sound
    refine hp.proposed_of_log (hp.inv.sound.logs.led t c hled) (Nat.succ_pos _) ?_
    refine getElem?_mono (List.take_prefix (r.commitIndex + 1) _) ?_
    rw [← History.upTo, hupTo, List.getElem?_cons_succ,
      List.getElem?_append_right (Nat.le_add_right _ _), Nat.add_sub_cancel_left]
    exact he
  · refine Or.inr ⟨t, n, hcom, ?_, ?_⟩
    · rw [hlen]
      exact hcn
    · rw [hlen]
      exact hupTo
  · -- this node knows all that is decided, the others knew some of it before
    intro j hj
    by_cases hji : j = i
    · subst hji
      rw [hself]
      exact ⟨Nat.le_of_eq hlen.symm, (hp.node j hj).2.trans happlied.symm⟩
    · rw [hnodes, Function.update_of_ne hji]
      exact ⟨Nat.le_trans (hp.node j hj).1 hmono, (hp.node j hj).2⟩
  · rw [hcalls]
    exact fun c hc => Nat.le_trans (hp.call c hc) hmono

/-- The entry `applyLoop` delivers is the next decided one. -/
theorem Provides.applied (hp : Provides C s g b) {i : NodeID} (hi : i ∈ C.ids) {r : Raft σ}
    {msg : ApplyMsg} (hr : (s.nodes i).applyLoop = some (r, msg)) :
    ∃ e, b.log[b.delivered i]? = some e ∧ msg = ⟨true, e.command, b.delivered i + 1⟩ := by
  obtain ⟨hlt, _, rfl⟩ := applyLoop_eq_some hr
  obtain ⟨hcommit, hdel⟩ := hp.node i hi
  have hle : (s.nodes i).lastApplied < b.log.length := Nat.lt_of_lt_of_le hlt hcommit
  refine ⟨b.log.get ⟨_, hle⟩, ?_, ?_⟩
  · rw [hdel]
    exact List.getElem?_eq_getElem hle
  · rw [hdel, List.getD_eq_getElem?_getD, hp.getElem?_log hi hlt, List.getElem?_eq_getElem hle]
    rfl

/-- **Simulation**: each event of the cluster, with its answer, is one of the log. -/
theorem answer_simulates (C : Cluster) : Simulates (System.answer (σ := σ) C)
    ReplicatedLog.Step fun s b => ∃ g, Provides C s g b := by
  rintro s b ev s' out ⟨g, hp⟩ hanswer
  obtain ⟨s'', hstep, heq⟩ := Option.map_eq_some_iff.mp hanswer
  obtain ⟨rfl, rfl⟩ := Prod.mk.inj heq
  cases ev <;> simp only [step, Option.bind_eq_bind, Option.bind_eq_some_iff,
    Option.guard_eq_some', Option.some.injEq] at hstep
  -- a candidate has neither proposed nor decided anything
  case startElection i =>
    obtain ⟨_, hi, rfl⟩ := hstep
    exact ⟨b, .startElection b i, g, hp.quiet (.startElection i hi)
      (hp.update hi (hp.node i hi).1 rfl) hp.call⟩
  case start i command =>
    obtain ⟨_, hi, rfl⟩ := hstep
    -- on a leader the command is proposed, elsewhere it is refused
    by_cases hl : (s.nodes i).state = .leader
    · obtain ⟨hfresh, g', hp'⟩ := hp.start hi command hl
      simp only [System.output, start_of_leader hl command]
      exact ⟨_, .proposed b i command _ _ hfresh, g', hp'⟩
    · simp only [System.output, start_of_not_leader hl command, setNode_self]
      exact ⟨b, .refused b i command _, g, hp⟩
  case replicateTo i peer =>
    obtain ⟨_, ⟨hi, hpeer⟩, args, hargs, rfl⟩ := hstep
    obtain ⟨hl, rfl⟩ := replicateTo_eq_some hargs
    -- the request announces at most what its sender knows to be committed
    refine ⟨b, .replicateTo b i peer, g, hp.quiet (.replicateTo i peer hi hpeer hl) hp.node ?_⟩
    intro c hc
    rcases List.mem_append.mp hc with hc | hc
    · exact hp.call c hc
    · obtain rfl := List.mem_singleton.mp hc
      exact (hp.node i hi).1
  case deliverVote k =>
    obtain ⟨c, hc, rfl⟩ := hstep
    have hi := hp.inv.sound.basic.callee_mem hc
    have hr := requestVote_outcome (s.nodes c.callee) c.args
    -- a vote is granted only in a term that is not past
    have hgrant : ((s.nodes c.callee).requestVote c.args).2.voteGranted = true →
        (s.nodes c.callee).currentTerm ≤ c.args.term := by
      intro hg
      by_contra hlt
      rw [requestVote_refused_of_stale _ _ (Nat.lt_of_not_le hlt)] at hg
      exact Bool.noConfusion hg
    exact ⟨b, .deliverVote b k, g, hp.quiet (.deliverVote k c _ _ hc hr hgrant)
      (hp.update hi (hr.commitIndex_eq.symm ▸ (hp.node _ hi).1) hr.progress.2) hp.call⟩
  case deliverAppend k =>
    obtain ⟨c, hc, rfl⟩ := hstep
    have hi := hp.inv.sound.basic.appendCallee_mem hc
    have hr := appendEntries_outcome (s.nodes c.callee) c.args
    -- a follower learns of commits no further than the request announces them
    obtain ⟨hcommit, happlied⟩ := hr.commitIndex_le (hp.node _ hi).1
      (hp.call c (List.mem_of_getElem? hc))
    exact ⟨b, .deliverAppend b k, g, hp.quiet (.deliverAppend k c _ _ hc hr)
      (hp.update hi hcommit happlied) hp.call⟩
  case voteReply m =>
    obtain ⟨⟨k, reply⟩, hm, c, hc, e, he, _, hopen, rfl⟩ := hstep
    have hi := hp.inv.sound.basic.voteCaller c (List.mem_of_getElem? hc)
    have hr := startElectionReply_outcome (s.nodes c.caller) c.args.term e.votes reply
    have h := Transition.voteReply (C := C) k reply c e _ _ (List.mem_of_getElem? hm) hc he hopen hr
    -- a new leader takes over a log, it proposes nothing
    exact ⟨b, .voteReply b m, _, hp.keep h (fun _ _ _ => newLeader_own hp.inv.sound h)
      (hp.update hi (hr.commitIndex_eq.symm ▸ (hp.node _ hi).1) hr.progress.2) hp.call⟩
  case appendReply m =>
    obtain ⟨⟨k, reply⟩, hm, c, hc, _, hopen, rfl⟩ := hstep
    have hi := hp.inv.sound.basic.appendCaller c (List.mem_of_getElem? hc)
    have hr := replicateToReply_outcome (s.nodes c.caller) c.callee c.args reply
    -- this is where a leader counts a majority: what it commits here is decided
    obtain ⟨new, hnew, hp'⟩ := hp.appendReply hi
      (.appendReply k reply c _ (List.mem_of_getElem? hm) hc hopen hr) rfl hr.progress.2 rfl
    exact ⟨_, .decided b m new hnew, g, hp'⟩
  case apply i =>
    obtain ⟨_, hi, ⟨r, msg⟩, hr, rfl⟩ := hstep
    -- what is delivered is the next decided entry
    obtain ⟨e, he, rfl⟩ := hp.applied hi hr
    simp only [System.output, hr]
    refine ⟨_, .delivered b i e he, g, ?_⟩
    refine hp.keep (.apply i r _ hi hr) (fun _ _ _ hget _ => hget) ?_ hp.call
    obtain ⟨_, rfl, _⟩ := applyLoop_eq_some hr
    rw [(hp.node i hi).2]
    exact hp.update_delivered (hp.node i hi).1
  case restart i =>
    obtain ⟨_, hi, rfl⟩ := hstep
    -- a restarted node delivers from the start again
    refine ⟨_, .restarted b i, g, ?_⟩
    refine hp.keep (.restart i hi) (fun _ _ _ hget _ => hget) ?_ hp.call
    simp only [System.setNode, new_eq]
    exact hp.update_delivered (Nat.zero_le _)

theorem provides_init (storages : NodeID → σ)
    (hfresh : ∀ i, Storage.load (storages i) = .ok none) :
    Provides C (System.init C storages) History.init ReplicatedLog.empty where
  inv := inv_init hfresh
  promised p hmem := by simp [ReplicatedLog.empty] at hmem
  own t n e hn hget _ := by
    -- before the first election only the sentinel is recorded, at index 0
    simp only [History.init] at hget
    split_ifs at hget
    · rw [List.getElem?_eq_none hn] at hget
      cases hget
    · simp at hget
  decided := Or.inl rfl
  node i _ := by
    simp only [System.init, new_eq]
    exact ⟨Nat.zero_le _, rfl⟩
  call c hc := by simp [System.init] at hc

end Simulation

/-! ## Refinement -/

/-- **The cluster is one replicated log.**  The answers of `Start` and the messages on the
    apply channels of a run are those of the replicated log `b`.  Each entry of `b` stands
    at the index a call of `Start` was answered with when it proposed it, and every node
    holds the beginning of `b` up to its commit index and has delivered it up to its
    `lastApplied`. -/
theorem cluster_refines_replicatedLog {σ : Type} [ReliableStorage σ] (C : Cluster)
    (storages : NodeID → σ) (hfresh : ∀ i, Storage.load (storages i) = .ok none)
    (es : List Event) (s : System σ) (os : List Output)
    (htrace : trace (System.answer C) (System.init C storages) es = some (s, os)) :
    ∃ b, Behaves ReplicatedLog.Step .empty es b os ∧
      (∀ (k : Nat) (e : LogEntry), b.log[k]? = some e → ∃ (m : Nat) (i : NodeID),
        es[m]? = some (Event.start i e.command) ∧
        os[m]? = some (Output.started (k + 1) e.term true)) ∧
      ∀ i ∈ C.ids, (s.nodes i).commitIndex ≤ b.log.length ∧
        b.delivered i = (s.nodes i).lastApplied ∧
        (s.nodes i).log.take ((s.nodes i).commitIndex + 1) =
          sentinel :: b.log.take (s.nodes i).commitIndex := by
  obtain ⟨b, hb, g, hp⟩ := (answer_simulates C).behaves ⟨_, provides_init storages hfresh⟩ htrace
  refine ⟨b, hb, fun k e he => ReplicatedLog.origin hb he, fun i hi => ?_⟩
  exact ⟨(hp.node i hi).1, (hp.node i hi).2, hp.take_log hi⟩

/-- One command is proposed at node 0 and delivered by nodes 0 and 1. -/
theorem cluster_refines_replicatedLog_replicateOnce : ∃ s os b,
    trace (System.answer threeNodes) (System.init threeNodes fun _ => newMemoryStorage)
      replicateOnce = some (s, os) ∧
    os = [.silent, .silent, .silent, .started 1 1 true, .silent, .silent, .silent,
      .delivered 0 ⟨true, [7], 1⟩, .silent, .silent, .delivered 1 ⟨true, [7], 1⟩] ∧
    Behaves ReplicatedLog.Step .empty replicateOnce b os := by
  have hrun : (trace (System.answer threeNodes)
      (System.init threeNodes fun _ => newMemoryStorage) replicateOnce).map Prod.snd =
      some [.silent, .silent, .silent, .started 1 1 true, .silent, .silent, .silent,
        .delivered 0 ⟨true, [7], 1⟩, .silent, .silent, .delivered 1 ⟨true, [7], 1⟩] := by
    decide +kernel
  obtain ⟨⟨s, os⟩, htrace, hos⟩ := Option.map_eq_some_iff.mp hrun
  obtain ⟨b, hb, _⟩ :=
    cluster_refines_replicatedLog threeNodes _ (fun _ => rfl) replicateOnce s os htrace
  exact ⟨s, os, b, htrace, hos, hb⟩

end EventLog.Raft
