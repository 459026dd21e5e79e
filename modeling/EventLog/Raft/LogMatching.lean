import EventLog.Raft.Election

/-!
# Log matching

Every log of the cluster is made of pieces of the logs the leaders held, so two logs
that agree on the term at an index agree up to it.  The arguments of every
`AppendEntries` call describe a piece of the sender's log, and merging such a piece
keeps whatever the receiver shares with the sender.
-/

namespace EventLog.Raft

open EventLog.Lib

variable {σ : Type}

/-! ## Well-formed logs -/

theorem termAt_eq {log : List LogEntry} {i : Nat} {e : LogEntry} (h : log[i]? = some e) :
    termAt log i = e.term := by
  simp [termAt, List.getD, h]

/-- A log of the cluster: made of leader logs, starting at the sentinel, with terms up
    to `t`. -/
structure WfLog (g : History) (t : Nat) (log : List LogEntry) : Prop where
  coherent : Coherent LogEntry.term g.leaderLog log
  head : log[0]? = some sentinel
  le : ∀ e ∈ log, e.term ≤ t

theorem WfLog.grow {g g' : History} {t t' : Nat} {log : List LogEntry} (h : WfLog g t log)
    (hg : g ≤ g') (ht : t ≤ t') : WfLog g' t' log where
  coherent := h.coherent.grow hg.2
  head := h.head
  le e he := Nat.le_trans (h.le e he) ht

theorem WfLog.ne_nil {g : History} {t : Nat} {log : List LogEntry} (h : WfLog g t log) :
    log ≠ [] := by
  rintro rfl
  exact absurd h.head (by simp)

theorem WfLog.length_pos {g : History} {t : Nat} {log : List LogEntry} (h : WfLog g t log) :
    0 < log.length :=
  List.length_pos_iff.mpr h.ne_nil

/-- A nonempty prefix of a well-formed log is well formed. -/
theorem WfLog.take {g : History} {t : Nat} {log : List LogEntry} (h : WfLog g t log) (n : Nat) :
    WfLog g t (log.take (n + 1)) where
  coherent := h.coherent.of_prefix (List.take_prefix _ _)
  head := by rw [List.getElem?_take_of_lt (Nat.succ_pos n), h.head]
  le e he := h.le e (List.mem_of_mem_take he)

/-- Logs that agree on the term at `i` agree up to `i`. -/
theorem WfLog.matching {g : History} {t t' : Nat} {log log' : List LogEntry}
    (h : WfLog g t log) (h' : WfLog g t' log') {i : Nat} (hi : i < log.length)
    (hi' : i < log'.length) (hterm : termAt log i = termAt log' i) :
    log.take (i + 1) = log'.take (i + 1) := by
  have hget := List.getElem?_eq_getElem hi
  have hget' := List.getElem?_eq_getElem hi'
  rw [termAt_eq hget, termAt_eq hget'] at hterm
  exact h.coherent.matching h'.coherent hget hget' hterm

/-! ## Merging entries -/

/-- What `AppendEntries` arguments say about the sender's log `M`. -/
structure Describes (M : List LogEntry) (args : AppendEntriesArgs) : Prop where
  prev_lt : args.prevLogIndex < M.length
  prev_term : termAt M args.prevLogIndex = args.prevLogTerm
  entries : args.entries <+: M.drop (args.prevLogIndex + 1)

theorem Describes.length_le {M : List LogEntry} {args : AppendEntriesArgs}
    (h : Describes M args) : args.prevLogIndex + 1 + args.entries.length ≤ M.length := by
  have hlen := h.entries.length_le
  rw [List.length_drop] at hlen
  have := h.prev_lt
  omega

theorem Describes.grow {M M' : List LogEntry} {args : AppendEntriesArgs} (h : Describes M args)
    (hM : M <+: M') : Describes M' args := by
  obtain ⟨t, rfl⟩ := hM
  have hlt := h.prev_lt
  refine ⟨by rw [List.length_append]; omega, ?_, ?_⟩
  · have hget := List.getElem?_eq_getElem hlt
    rw [← h.prev_term, termAt_eq hget, termAt_eq (getElem?_mono (List.prefix_append M t) hget)]
  · rw [List.drop_append_of_le_length (by omega)]
    exact h.entries.trans (List.prefix_append _ _)

/-- Log matching between two logs: the same term at an index means the same log up to it. -/
def LogsMatch (log M : List LogEntry) : Prop :=
  ∀ i, i < log.length → i < M.length → termAt log i = termAt M i →
    log.take (i + 1) = M.take (i + 1)

instance (log M : List LogEntry) : Decidable (LogsMatch log M) :=
  inferInstanceAs (Decidable (∀ i, i < log.length → i < M.length → _ → _))

/-- The result of merging the entries of `M` below `n` into `log`. -/
inductive Merged (M log : List LogEntry) (n : Nat) : List LogEntry × Bool → Prop where
  /-- Everything was there already. -/
  | kept : M.take n <+: log → Merged M log n (log, false)
  /-- The logs part at `j`; from there on the log is replaced. -/
  | replaced (j) : j < n → log.take j = M.take j → ¬ M.take (j + 1) <+: log →
      Merged M log n (M.take n, true)

/-- Merging entries of `M` into a log that agrees with `M` before them. -/
theorem mergeEntries_of_logsMatch {M log : List LogEntry} (hmatch : LogsMatch log M)
    (hpos : 0 < log.length) {es : List LogEntry} {idx : Nat}
    (hidx : idx ≤ log.length) (hidx' : idx ≤ M.length) (htake : log.take idx = M.take idx)
    (hes : es <+: M.drop idx) :
    Merged M log (idx + es.length) (mergeEntries log idx es) := by
  induction es generalizing idx with
  | nil =>
    rw [List.length_nil, Nat.add_zero]
    -- nothing left to merge
    refine .kept ?_
    rw [← htake]
    exact List.take_prefix _ _
  | cons e es ih =>
    obtain ⟨rest, hrest⟩ := hes
    -- the next entry to merge is the sender's at `idx`
    have hget : M[idx]? = some e := by
      have h0 := congrArg (·[0]?) hrest
      simpa using h0.symm
    have hlt : idx < M.length := (List.getElem?_eq_some_iff.mp hget).1
    have hdrop : M.drop (idx + 1) = es ++ rest := by
      rw [← List.drop_drop, ← hrest]
      rfl
    unfold mergeEntries
    split_ifs with hc
    · -- the entry is there: both logs agree one further
      have hstep := hmatch idx (by omega) hlt (by rw [hc.2, termAt_eq hget])
      have hlen : idx + 1 ≤ log.length := by omega
      have hnext := ih hlen hlt hstep (hdrop ▸ List.prefix_append es rest)
      rwa [Nat.add_assoc, Nat.add_comm 1] at hnext
    -- the logs part here, and the rest is the sender's
    · have hres : log.take idx ++ e :: es = M.take (idx + (e :: es).length) := by
        rw [List.take_add, htake, ← hrest, List.take_append_of_le_length (Nat.le_refl _),
          List.take_length]
      rw [hres]
      refine .replaced idx (by simp) htake fun hpre => hc ?_
      -- the receiver would hold the entry, against the test that failed
      have hin : log[idx]? = some e := by
        refine getElem?_mono hpre ?_
        rw [List.getElem?_take_of_lt (Nat.lt_succ_self idx), hget]
      have := (List.getElem?_eq_some_iff.mp hin).1
      exact ⟨by omega, termAt_eq hin⟩

/-- The same for logs of one cluster. -/
theorem mergeEntries_merged {g : History} {t t' : Nat} {M log : List LogEntry}
    (hM : WfLog g t M) (hlog : WfLog g t' log) {es : List LogEntry} {idx : Nat}
    (hidx : idx ≤ log.length) (hidx' : idx ≤ M.length) (htake : log.take idx = M.take idx)
    (hes : es <+: M.drop idx) :
    Merged M log (idx + es.length) (mergeEntries log idx es) :=
  mergeEntries_of_logsMatch (fun _ hi hi' hterm => hlog.matching hM hi hi' hterm) hlog.length_pos
    hidx hidx' htake hes

section Merge

variable {M log : List LogEntry} {n : Nat} {res : List LogEntry × Bool}

/-- The receiver holds everything that was sent. -/
theorem Merged.holds (h : Merged M log n res) : M.take n <+: res.1 := by
  cases h with
  | kept hpre => exact hpre
  | replaced => exact List.prefix_rfl

/-- **Nothing shared is lost**: a prefix of both logs survives the merge. -/
theorem Merged.keeps (h : Merged M log n res) {p : List LogEntry} (hlog : p <+: log)
    (hM : p <+: M) : p <+: res.1 := by
  cases h with
  | kept => exact hlog
  | replaced j hj _ hpart =>
    -- what both share ends where they part, so it is among what was kept
    refine List.prefix_take_iff.mpr ⟨hM, ?_⟩
    by_contra hlen
    exact hpart ((take_of_isPrefix hM (by omega)).trans hlog)

end Merge

/-! ## How a node's log changes -/

/-- The term a restart would restore. -/
def durTerm [Storage σ] (r : Raft σ) : Nat := (durable r.storage).currentTerm

/-- The ways a transition can change the log of node `i`. -/
inductive LogStep [Storage σ] (C : Cluster) (s : System σ) (i : NodeID) (r' : Raft σ) : Prop where
  | same : r'.log = (s.nodes i).log → LogStep C s i r'
  | extended (command) : i ∈ C.ids → (s.nodes i).state = .leader →
      r' = (s.nodes i).extendLog command → LogStep C s i r'
  /-- The log was replaced by what the sender of `call` describes. -/
  | merged (call) : call ∈ s.appendCalls → call.callee = i →
      (s.nodes i).currentTerm ≤ call.args.term →
      call.args.prevLogIndex ≤ (s.nodes i).log.length - 1 →
      termAt (s.nodes i).log call.args.prevLogIndex = call.args.prevLogTerm →
      r'.log = (mergeEntries (s.nodes i).log (call.args.prevLogIndex + 1) call.args.entries).1 →
      durTerm r' = call.args.term → LogStep C s i r'

/-- The ways node `i` can come out of a transition as leader. -/
inductive LeaderStep (s : System σ) (i : NodeID) : Raft σ → Prop where
  /-- It led before; its log may have grown. -/
  | kept (r') : (s.nodes i).state = .leader → r'.currentTerm = (s.nodes i).currentTerm →
      (s.nodes i).log <+: r'.log → r'.nextIndex = (s.nodes i).nextIndex →
      r'.matchIndex = (s.nodes i).matchIndex → LeaderStep s i r'
  | elected : LeaderStep s i (s.nodes i).asLeader
  | matched (k call reply) : (s.nodes i).state = .leader → (k, reply) ∈ s.appendReplies →
      s.appendCalls[k]? = some call → (s.nodes i).currentTerm = call.args.term →
      reply.success = true → LeaderStep s i ((s.nodes i).recordMatch call.callee
        (call.args.prevLogIndex + call.args.entries.length)).advanceCommitLocked
  | backedUp (k call reply v) : (s.nodes i).state = .leader → (k, reply) ∈ s.appendReplies →
      s.appendCalls[k]? = some call → (s.nodes i).currentTerm = call.args.term →
      (v = reply.conflictIndex ∨ v ≤ (s.nodes i).nextIndex call.callee) →
      LeaderStep s i
        { s.nodes i with nextIndex := Function.update (s.nodes i).nextIndex call.callee v }

section Steps

variable [ReliableStorage σ] {C : Cluster} {s s' : System σ} {o : Option NodeID} {g : History}

theorem NodeStep.leader {i : NodeID} {r' : Raft σ} (h : NodeStep C s s' i r')
    (hst : r'.state = .leader) : LeaderStep s i r' := by
  have hsame : ∀ v st a, (s.nodes i).state = .leader →
      LeaderStep s i { s.nodes i with votedFor := v, storage := st, lastApplied := a } :=
    fun _ _ _ hlead => .kept _ hlead rfl List.prefix_rfl rfl rfl
  -- a node that leads afterwards led before, or has just been elected
  cases h with
  | same => exact hsame _ _ _ hst
  | startElection => cases hst
  | start command _ hlead => exact .kept _ hlead rfl (List.prefix_append _ _) rfl rfl
  | requestVote call r reply _ _ hr =>
    cases hr with
    | refused | granted => exact hsame _ _ _ hst
    | adopted | adoptedGranted => cases hst
  | appendEntries call r reply _ _ hr =>
    cases hr with
    | stale => exact hsame _ _ _ hst
    | rejected | accepted =>
      rw [persistIf_state] at hst
      cases hst
  | voteReply call r reply votes votes' _ _ hr =>
    cases hr with
    | ignored | counted => exact hsame _ _ _ hst
    | steppedDown => cases hst
    | elected => exact .elected
  -- an answer moves the indices of one peer and leaves the log
  | appendReply k call r reply hmem hcall _ hr =>
    cases hr with
    | ignored => exact hsame _ _ _ hst
    | steppedDown => cases hst
    | matched hcounts hsucc =>
      exact .matched k call reply hcounts.1 hmem hcall hcounts.2.1 hsucc
    | backedUp hcounts =>
      exact .backedUp k call reply _ hcounts.1 hmem hcall hcounts.2.1 (backUp_cases _ _ _)
  | apply r msg _ hr =>
    obtain ⟨_, rfl, _⟩ := applyLoop_eq_some hr
    exact hsame _ _ _ hst
  | restart =>
    rw [new_eq] at hst
    cases hst

theorem Transition.logStep (hb : Basic C s) (h : Transition C s o s') {i : NodeID}
    (hi : i ∈ C.ids) : LogStep C s i (s'.nodes i) := by
  have hstep := h.node i
  have hper := hb.persisted i hi
  generalize s'.nodes i = r' at hstep ⊢
  -- only a leader's command and an accepted append touch the log
  cases hstep with
  | same => exact .same rfl
  | startElection => exact .same rfl
  | start command hi hl => exact .extended command hi hl rfl
  | requestVote call r reply _ _ hr =>
    cases hr with
    | refused | adopted | granted | adoptedGranted => exact .same rfl
  | appendEntries call r reply hcall hcallee hr =>
    cases hr with
    | stale => exact .same rfl
    | rejected => exact .same (by rw [persistIf_log]; rfl)
    | accepted _ hle hprev hterm =>
      cases hflag : (mergeEntries (s.nodes i).log (call.args.prevLogIndex + 1)
          call.args.entries).2 with
      -- a merge that changes nothing is not saved, and needs no sender
      | false => exact .same (by rw [persistIf_log]; exact mergeEntries_eq_of_not_changed hflag)
      | true =>
        refine .merged call hcall hcallee hle hprev hterm (by rw [persistIf_log]) ?_
        rw [Bool.or_true, persistIf, if_pos rfl, durTerm, durable_persistLocked]
        · rfl
        · exact mergeEntries_ne_nil hper.log_ne _ _
  | voteReply call r reply votes votes' _ _ hr =>
    cases hr with
    | ignored | steppedDown | counted | elected => exact .same rfl
  | appendReply k call r reply _ _ _ hr =>
    cases hr with
    | ignored | steppedDown | matched | backedUp => exact .same rfl
  | apply r msg _ hr =>
    obtain ⟨_, rfl, _⟩ := applyLoop_eq_some hr
    exact .same rfl
  | restart =>
    refine .same ?_
    rw [new_eq]
    exact hper.log_eq

theorem Transition.durTerm_le (hb : Basic C s) (h : Transition C s o s') {i : NodeID}
    (hi : i ∈ C.ids) : durTerm (s.nodes i) ≤ durTerm (s'.nodes i) :=
  (h.advances hb hi).durable.term_le

/-- A leader or candidate has saved its term. -/
theorem Persisted.durTerm_eq {r : Raft σ} (h : Persisted r) (hs : r.state ≠ .follower) :
    durTerm r = r.currentTerm := by
  rcases Nat.lt_or_eq_of_le h.term_le with hlt | heq
  · exact absurd (h.lag hlt).1 hs
  · exact heq

end Steps

/-! ## The invariant -/

/-- The log invariant. -/
structure Logs [Storage σ] (C : Cluster) (s : System σ) (g : History) : Prop where
  zero : g.leaderLog 0 = [sentinel]
  unled : ∀ t, 0 < t → g.leader t = none → g.leaderLog t = []
  led : ∀ t c, g.leader t = some c → WfLog g t (g.leaderLog t)
  node : ∀ i ∈ C.ids, WfLog g (durTerm (s.nodes i)) (s.nodes i).log
  leader : ∀ i ∈ C.ids, (s.nodes i).state = .leader →
    g.leaderLog (s.nodes i).currentTerm = (s.nodes i).log
  candidate : ∀ i ∈ C.ids, (s.nodes i).state = .candidate →
    ∀ e ∈ (s.nodes i).log, e.term < (s.nodes i).currentTerm
  call : ∀ c ∈ s.appendCalls, Describes (g.leaderLog c.args.term) c.args
  nextIndex : ∀ i ∈ C.ids, (s.nodes i).state = .leader →
    ∀ p, (s.nodes i).nextIndex p ≤ (s.nodes i).log.length
  reply : ∀ k reply, (k, reply) ∈ s.appendReplies →
    ∃ c, s.appendCalls[k]? = some c ∧ reply.conflictIndex ≤ c.args.prevLogIndex

section Steps

variable [ReliableStorage σ] {C : Cluster} {s s' : System σ} {o : Option NodeID} {g : History}

/-- Histories only grow. -/
theorem Logs.observe_le (hv : Votes C s) (hl : Leaders C s g) (hg : Logs C s g)
    (h : Leadership C s s' o) : g ≤ g.observe s' o := by
  refine ⟨fun t i ht => hl.observe_mono hv h ht, fun t => ?_⟩
  cases h with
  | elected c he =>
    have hterm := he.term
    by_cases htc : t = (s'.nodes c).currentTerm
    -- a winner is the first leader of its term, so nothing was recorded for it
    · subst htc
      have hpos := (hv.election _ _ (hv.candidate c he.mem he.candidate)).2.1
      rw [hterm, hg.unled _ hpos (he.unled hv hl)]
      exact List.nil_prefix
    · rw [g.observe_leaderLog_of_ne s' c htc]
  | extended j command he =>
    have hterm := he.term
    -- the leader's recorded log is its log, which grew at the end
    by_cases htj : t = (s'.nodes j).currentTerm
    · subst htj
      rw [g.observe_leaderLog_self s' j, hterm, hg.leader j he.mem he.leader, he.node]
      exact List.prefix_append _ _
    · rw [g.observe_leaderLog_of_ne s' j htj]
  | kept => exact List.prefix_rfl

theorem Logs.step_leader (hv : Votes C s) (hl : Leaders C s g) (hg : Logs C s g)
    (h : Leadership C s s' o) :
    ∀ i ∈ C.ids, (s'.nodes i).state = .leader →
      (g.observe s' o).leaderLog (s'.nodes i).currentTerm = (s'.nodes i).log := by
  intro i hi hlead
  cases h with
  | elected c he =>
    by_cases hic : i = c
    · subst hic
      exact g.observe_leaderLog_self s' i
    · rw [he.others i hic] at hlead ⊢
      rw [g.observe_leaderLog_of_ne, hg.leader i hi hlead]
      -- another leader of the winner's term would have been recorded
      intro heq
      have hled := hl.leader i hi hlead
      have hterm := he.term
      rw [heq, hterm, he.unled hv hl] at hled
      cases hled
  | extended j command he =>
    by_cases hij : i = j
    · subst hij
      exact g.observe_leaderLog_self s' i
    · rw [he.others i hij] at hlead ⊢
      rw [g.observe_leaderLog_of_ne, hg.leader i hi hlead]
      intro heq
      -- two leaders of one term are the same node
      have hled := hl.leader i hi hlead
      have hterm := he.term
      rw [heq, hterm, hl.leader j he.mem he.leader] at hled
      exact hij (Option.some.inj hled).symm
  | kept hkept =>
    obtain ⟨hold, hterm, hlog⟩ := hkept i hlead
    rw [hterm, hlog]
    exact hg.leader i hi hold

/-- The leader log a call was sent from is well formed. -/
theorem Logs.callLog (hl : Leaders C s g) (hg : Logs C s g) {c : AppendCall}
    (hc : c ∈ s.appendCalls) : WfLog g c.args.term (g.leaderLog c.args.term) :=
  hg.led _ _ (hl.appendCall c hc)

/-- **Merging at a node**: a call whose consistency check passed is merged as `Merged`
    says. -/
theorem Logs.merged (hl : Leaders C s g) (hg : Logs C s g) {c : AppendCall}
    (hc : c ∈ s.appendCalls) {i : NodeID} (hi : i ∈ C.ids)
    (hprev : c.args.prevLogIndex ≤ (s.nodes i).log.length - 1)
    (hterm : termAt (s.nodes i).log c.args.prevLogIndex = c.args.prevLogTerm) :
    Merged (g.leaderLog c.args.term) (s.nodes i).log
      (c.args.prevLogIndex + 1 + c.args.entries.length)
      (mergeEntries (s.nodes i).log (c.args.prevLogIndex + 1) c.args.entries) := by
  have hM := hg.callLog hl hc
  have hlog := hg.node i hi
  have hd := hg.call c hc
  have hpos := hlog.length_pos
  have hlt := hd.prev_lt
  -- the consistency check is the premise of log matching
  have hmatch := hlog.matching hM (i := c.args.prevLogIndex) (by omega) hlt
    (hterm.trans hd.prev_term.symm)
  exact mergeEntries_merged hM hlog (by omega) (by omega) hmatch hd.entries

theorem Merged.wf {g : History} {t t' u : Nat} {M log : List LogEntry} {n : Nat}
    {res : List LogEntry × Bool} (h : Merged M log (n + 1) res) (hM : WfLog g t M)
    (hlog : WfLog g t' log) (ht : t ≤ u) (ht' : t' ≤ u) : WfLog g u res.1 := by
  cases h with
  | kept => exact hlog.grow (le_refl g) ht'
  | replaced => exact (hM.take n).grow (le_refl g) ht

theorem Logs.step_node (hb : Basic C s) (hv : Votes C s) (hl : Leaders C s g) (hg : Logs C s g)
    (h : Transition C s o s') :
    ∀ i ∈ C.ids, WfLog (g.observe s' o) (durTerm (s'.nodes i)) (s'.nodes i).log := by
  intro i hi
  have hlead := h.leadership hb hv
  have hle := hg.observe_le hv hl hlead
  have hdur := h.durTerm_le hb hi
  have hnode := hg.node i hi
  cases h.logStep hb hi with
  | same hsame =>
    rw [hsame]
    exact hnode.grow hle hdur
  | extended command _ hst hext =>
    have hgrown := hnode.grow hle (Nat.le_refl _)
    have hlog : (s'.nodes i).log = (s.nodes i).log ++ [⟨(s.nodes i).currentTerm, command⟩] := by
      rw [hext]; rfl
    have hterm : (s'.nodes i).currentTerm = (s.nodes i).currentTerm := by rw [hext]; rfl
    have hst' : (s'.nodes i).state = .leader := by rw [hext]; exact hst
    have hbound : ∀ e ∈ (s.nodes i).log, e.term ≤ (s.nodes i).currentTerm := fun e he =>
      Nat.le_trans (hnode.le e he) (hb.persisted i hi).term_le
    -- a leader's new entry is recorded in its term's log, which keeps the log coherent
    have hown := hg.step_leader hv hl hlead i hi hst'
    rw [hterm, hlog] at hown
    have hdur' : durTerm (s'.nodes i) = (s.nodes i).currentTerm := by
      rw [((hb.step h).persisted i hi).durTerm_eq (by rw [hst']; decide), hterm]
    rw [hlog, hdur']
    refine ⟨hgrown.coherent.snoc hown hbound, ?_, fun e he => ?_⟩
    · exact getElem?_mono (List.prefix_append _ _) hgrown.head
    · rcases List.mem_append.mp he with he | he
      · exact hbound e he
      · rw [List.mem_singleton.mp he]
  -- the merge of two logs that follow the leaders' logs follows them as well
  | merged call hcall _ hcur hprev hterm hlog hdur' =>
    have hm := hg.merged hl hcall hi hprev hterm
    rw [hlog]
    rw [Nat.add_right_comm] at hm
    exact hm.wf ((hg.callLog hl hcall).grow hle (Nat.le_refl _)) (hnode.grow hle (Nat.le_refl _))
      (Nat.le_of_eq hdur'.symm) hdur

theorem Logs.step_candidate (hb : Basic C s) (hg : Logs C s g) (h : Transition C s o s') :
    ∀ i ∈ C.ids, (s'.nodes i).state = .candidate →
      ∀ e ∈ (s'.nodes i).log, e.term < (s'.nodes i).currentTerm := by
  intro i hi hcand e he
  rcases h.candidate_inv hcand with ⟨hc, hterm, hlog⟩ | ⟨_, hnode, _⟩
  · rw [hterm]
    exact hg.candidate i hi hc e (hlog ▸ he)
  · rw [hnode] at he ⊢
    have hle := (hg.node i hi).le e he
    -- a new candidate's term is above every term it has seen
    have hdur : durTerm (s.nodes i) ≤ _ := (hb.persisted i hi).term_le
    exact Nat.lt_succ_of_le (Nat.le_trans hle hdur)

omit [ReliableStorage σ] in
/-- What `replicateTo` sends describes the sender's log. -/
theorem describes_sendFrom {r : Raft σ} {ni : Nat} (hpos : 1 ≤ ni) (hlen : ni ≤ r.log.length) :
    Describes r.log (r.sendFrom ni) where
  prev_lt := show ni - 1 < r.log.length by omega
  prev_term := rfl
  entries := by
    show r.log.drop ni <+: r.log.drop (ni - 1 + 1)
    rw [Nat.sub_add_cancel hpos]

theorem Logs.step_call (hv : Votes C s) (hl : Leaders C s g) (hg : Logs C s g)
    (h : Transition C s o s') (hlead : Leadership C s s' o) :
    ∀ c ∈ s'.appendCalls, Describes ((g.observe s' o).leaderLog c.args.term) c.args := by
  intro c hc
  have hle := hg.observe_le hv hl hlead
  cases h with
  | replicateTo i peer hi _ hst =>
    rcases List.mem_append.mp hc with hc | hc
    · exact (hg.call c hc).grow (hle.2 _)
    · obtain rfl := List.mem_singleton.mp hc
      -- `nextIndex` never passes the end of the leader's log, so the arguments describe it
      have hpos := (hg.node i hi).length_pos
      have hnext := hg.nextIndex i hi hst peer
      show Describes (g.leaderLog (s.nodes i).currentTerm) _
      rw [hg.leader i hi hst]
      exact describes_sendFrom (by omega) (by omega)
  | _ => exact (hg.call c hc).grow (hle.2 _)

theorem Logs.step_nextIndex (hg : Logs C s g) (h : Transition C s o s') :
    ∀ i ∈ C.ids, (s'.nodes i).state = .leader →
      ∀ p, (s'.nodes i).nextIndex p ≤ (s'.nodes i).log.length := by
  intro i hi hst p
  have hold := hg.nextIndex i hi
  have hstep := h.node i
  generalize s'.nodes i = r' at hstep hst ⊢
  cases hstep.leader hst with
  | kept _ hlead _ hlog hnext =>
    rw [hnext]
    exact (hold hlead p).trans hlog.length_le
  -- a new leader starts behind its last entry
  | elected =>
    have hpos := (hg.node i hi).length_pos
    simp only [asLeader, lastIndexLocked]
    split_ifs <;> omega
  -- what was acknowledged is a piece of the leader's log
  | matched k call reply hlead hmem hcall hterm =>
    have hd := hg.call call (List.mem_of_getElem? hcall)
    rw [← hterm, hg.leader i hi hlead] at hd
    have := hd.length_le
    exact update_le (by omega) (hold hlead) p
  -- the leader backs up to an index of its own request
  | backedUp k call reply v hlead hmem hcall hterm hv =>
    obtain ⟨c, hc, hconf⟩ := hg.reply k reply hmem
    obtain rfl : c = call := Option.some.inj (hc.symm.trans hcall)
    have hd := hg.call c (List.mem_of_getElem? hc)
    rw [← hterm, hg.leader i hi hlead] at hd
    have hlt := hd.prev_lt
    have hn := hold hlead c.callee
    exact update_le (by omega) (hold hlead) p

theorem Logs.step_reply (hg : Logs C s g) (h : Transition C s o s') :
    ∀ k reply, (k, reply) ∈ s'.appendReplies →
      ∃ c, s'.appendCalls[k]? = some c ∧ reply.conflictIndex ≤ c.args.prevLogIndex := by
  intro k reply hmem
  have hcalls := h.appendCalls_mono
  have hkeep : (k, reply) ∈ s.appendReplies → ∃ c, s'.appendCalls[k]? = some c ∧
      reply.conflictIndex ≤ c.args.prevLogIndex := fun hold => by
    obtain ⟨c, hc, hconf⟩ := hg.reply k reply hold
    exact ⟨c, getElem?_mono hcalls hc, hconf⟩
  -- only an append that is handled adds a reply
  cases h with
  | deliverAppend k' c r reply' hc hr =>
    rcases List.mem_append.mp hmem with hm | hm
    · exact hkeep hm
    · obtain ⟨rfl, rfl⟩ := Prod.mk.inj (List.mem_singleton.mp hm)
      exact ⟨c, hc, hr.conflictIndex_le⟩
  | _ => exact hkeep hmem

/-- Only the recorded log of a current leader moves. -/
theorem Leadership.leaderLog_moved (h : Leadership C s s' o) (t : Nat) :
    (g.observe s' o).leaderLog t = g.leaderLog t ∨
      ∃ i ∈ C.ids, (s'.nodes i).state = .leader ∧ t = (s'.nodes i).currentTerm := by
  cases h with
  | elected c he =>
    by_cases htc : t = (s'.nodes c).currentTerm
    · exact Or.inr ⟨c, he.mem, he.state, htc⟩
    · exact Or.inl (g.observe_leaderLog_of_ne s' c htc)
  | extended j command he =>
    by_cases htj : t = (s'.nodes j).currentTerm
    · exact Or.inr ⟨j, he.mem, he.state, htj⟩
    · exact Or.inl (g.observe_leaderLog_of_ne s' j htj)
  | kept => exact Or.inl rfl

/-- The recorded log of a current leader is well formed: it is the leader's own. -/
theorem Logs.step_own (hb : Basic C s) (hv : Votes C s) (hl : Leaders C s g) (hg : Logs C s g)
    (h : Transition C s o s') {i : NodeID} (hi : i ∈ C.ids) (hst : (s'.nodes i).state = .leader) :
    WfLog (g.observe s' o) (s'.nodes i).currentTerm
      ((g.observe s' o).leaderLog (s'.nodes i).currentTerm) := by
  have hdur := ((hb.step h).persisted i hi).durTerm_eq (by rw [hst]; decide)
  have hwf := hg.step_node hb hv hl h i hi
  rw [hg.step_leader hv hl (h.leadership hb hv) i hi hst]
  rwa [hdur] at hwf

/-- **Step lemma** for the log invariant. -/
theorem Logs.step (hb : Basic C s) (hv : Votes C s) (hl : Leaders C s g) (hg : Logs C s g)
    (h : Transition C s o s') : Logs C s' (g.observe s' o) := by
  have hlead := h.leadership hb hv
  have hle := hg.observe_le hv hl hlead
  have hl' := hl.step hb hv h
  refine
    { zero := ?_, unled := ?_, led := ?_
      node := hg.step_node hb hv hl h
      leader := hg.step_leader hv hl hlead
      candidate := hg.step_candidate hb h
      call := hg.step_call hv hl h hlead
      nextIndex := hg.step_nextIndex h
      reply := hg.step_reply h }
  · rcases hlead.leaderLog_moved 0 with heq | ⟨i, hi, hst, h0⟩
    · rw [heq]
      exact hg.zero
    · -- nobody leads term 0
      have hpos := ((hv.step hb h).election _ _ (hl'.elected _ _ (hl'.leader i hi hst)).1).2.1
      omega
  · -- a term without a leader has no recorded log
    intro t hpos hnone
    rcases hlead.leaderLog_moved t with heq | ⟨i, hi, hst, rfl⟩
    · rw [heq]
      refine hg.unled t hpos ?_
      cases hled : g.leader t with
      | none => rfl
      | some c => rw [hle.1 t c hled] at hnone; cases hnone
    · rw [hl'.leader i hi hst] at hnone
      cases hnone
  · intro t c hled
    rcases hlead.leaderLog_moved t with heq | ⟨i, hi, hst, rfl⟩
    · rcases hl.observe_inv hlead hled with hold | ⟨he, rfl⟩
      · rw [heq]
        exact (hg.led t c hold).grow hle (Nat.le_refl _)
      · -- the winner's own log was recorded
        have hown := hg.step_own hb hv hl h he.mem he.state
        rwa [he.term] at hown
    · exact hg.step_own hb hv hl h hi hst

theorem logs_init (storages : NodeID → σ)
    (hfresh : ∀ i, Storage.load (storages i) = .ok none) :
    Logs C (System.init C storages) History.init where
  zero := rfl
  unled t hpos _ := if_neg (by omega)
  led t c hled := by simp [History.init] at hled
  node i _ := by
    simp only [System.init, new_eq, durTerm, durable_of_load_none (hfresh i)]
    -- the sentinel alone
    refine ⟨⟨fun j a ha => ?_, fun j k a b _ ha hb => ?_⟩, rfl, fun e he => ?_⟩
    · obtain rfl := List.mem_singleton.mp (List.mem_of_getElem? ha)
      exact List.take_prefix _ _
    · obtain rfl := List.mem_singleton.mp (List.mem_of_getElem? ha)
      obtain rfl := List.mem_singleton.mp (List.mem_of_getElem? hb)
      exact Nat.le_refl _
    · rw [List.mem_singleton.mp he]
      exact Nat.le_refl _
  leader i _ hst := by
    rw [init_state] at hst
    cases hst
  candidate i _ hst := by
    rw [init_state] at hst
    cases hst
  call c hc := by simp [System.init] at hc
  nextIndex i _ hst := by
    rw [init_state] at hst
    cases hst
  reply k reply hmem := by simp [System.init] at hmem

/-! ## All invariants so far -/

/-- A state together with a history that explains it. -/
structure Sound (C : Cluster) (s : System σ) (g : History) : Prop where
  basic : Basic C s
  votes : Votes C s
  leaders : Leaders C s g
  logs : Logs C s g

theorem Sound.leadership (hs : Sound C s g) (h : Transition C s o s') : Leadership C s s' o :=
  h.leadership hs.basic hs.votes

theorem Sound.le (hs : Sound C s g) (h : Transition C s o s') : g ≤ g.observe s' o :=
  hs.logs.observe_le hs.votes hs.leaders (hs.leadership h)

theorem Sound.step (hs : Sound C s g) (h : Transition C s o s') :
    Sound C s' (g.observe s' o) where
  basic := hs.basic.step h
  votes := hs.votes.step hs.basic h
  leaders := hs.leaders.step hs.basic hs.votes h
  logs := hs.logs.step hs.basic hs.votes hs.leaders h

theorem sound_init (storages : NodeID → σ)
    (hfresh : ∀ i, Storage.load (storages i) = .ok none) :
    Sound C (System.init C storages) History.init where
  basic := basic_init storages hfresh
  votes := votes_init storages
  leaders := leaders_init storages
  logs := logs_init storages hfresh

/-- Every recorded leader is a member. -/
theorem Sound.leader_mem (hs : Sound C s g) {t : Nat} {c : NodeID} (h : g.leader t = some c) :
    c ∈ C.ids :=
  (hs.votes.election _ _ (hs.leaders.elected t c h).1).1

end Steps

end EventLog.Raft
