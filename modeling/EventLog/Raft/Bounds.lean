import EventLog.Raft.LogAgreement
import EventLog.Raft.NodeRuns

/-!
# Log accesses and delivery order

The functions that index or slice `r.log`, with the bounds checks of the run-time: `none`
is a panic.  In every state of every run they return what the model computes, so no
access is out of range (`InRange`).

Between two restarts of a node its commit index never decreases and its messages carry
the indices 1, 2, 3, … in this order.  Behind this is an invariant of the calls:
`AppendEntries` takes over `min(LeaderCommit, lastNew)` without looking at its own commit
index, and no call announces more than the last entry it reaches (`Ordered.call`).
-/

namespace EventLog.Raft

open EventLog.Lib

variable {σ : Type}

/-! ## Bounds checks -/

/-- `log[n:]`. -/
def sliceFrom (log : List LogEntry) (n : Nat) : Option (List LogEntry) :=
  if n ≤ log.length then some (log.drop n) else none

/-- `log[:n]`. -/
def sliceTo (log : List LogEntry) (n : Nat) : Option (List LogEntry) :=
  if n ≤ log.length then some (log.take n) else none

/-- `lastLogTermIndexLocked` with its bounds check. -/
def lastLogTermIndexBounded (r : Raft σ) : Option (Nat × Nat) := do
  let e ← r.log[r.lastIndexLocked]?
  some (e.term, r.lastIndexLocked)

/-- `replicateTo` up to the RPC with its bounds checks. -/
def replicateToBounded (r : Raft σ) (peer : NodeID) : Option (Option AppendEntriesArgs) :=
  if r.state ≠ .leader then some none
  else do
    let ni := if r.nextIndex peer < 1 then 1 else r.nextIndex peer
    let prevIndex := ni - 1
    let prev ← r.log[prevIndex]?
    let entries ← sliceFrom r.log ni
    some (some
      { term := r.currentTerm
        leaderID := r.id
        prevLogIndex := prevIndex
        prevLogTerm := prev.term
        entries := entries
        leaderCommit := r.commitIndex })

/-- The loop of `advanceCommitLocked` with its bounds check. -/
def advanceCommitLoopBounded (r : Raft σ) : Nat → Option Nat
  | 0 => some r.commitIndex
  | n + 1 =>
    if n + 1 > r.commitIndex then do
      let e ← r.log[n + 1]?
      if e.term ≠ r.currentTerm then r.advanceCommitLoopBounded n
      else if r.replicaCount (n + 1) ≥ r.majority then some (n + 1)
      else r.advanceCommitLoopBounded n
    else some r.commitIndex

def advanceCommitBounded (r : Raft σ) : Option (Raft σ) := do
  let n ← r.advanceCommitLoopBounded r.lastIndexLocked
  some { r with commitIndex := n }

/-- `replicateTo` after the RPC with its bounds checks. -/
def replicateToReplyBounded (r : Raft σ) (peer : NodeID) (args : AppendEntriesArgs)
    (reply : AppendEntriesReply) : Option (Raft σ) :=
  if r.state ≠ .leader ∨ r.currentTerm ≠ args.term then some r
  else if reply.term > r.currentTerm then some (r.becomeFollowerLocked reply.term)
  else if reply.success then
    (r.recordMatch peer (args.prevLogIndex + args.entries.length)).advanceCommitBounded
  else if reply.conflictIndex > 0 then
    some { r with nextIndex := Function.update r.nextIndex peer reply.conflictIndex }
  else if r.nextIndex peer > 1 then
    some { r with nextIndex := Function.update r.nextIndex peer (r.nextIndex peer - 1) }
  else some r

/-- The loop that skips the conflicting term, with its bounds check. -/
def conflictStartBounded (log : List LogEntry) (conflictTerm : Nat) : Nat → Option Nat
  | 0 => some 0
  | ci + 1 =>
    if ci + 1 > 1 then do
      let e ← log[ci]?
      if e.term = conflictTerm then conflictStartBounded log conflictTerm ci else some (ci + 1)
    else some (ci + 1)

/-- The loop over `args.Entries` with its bounds checks. -/
def mergeEntriesBounded (log : List LogEntry) (idx : Nat) :
    List LogEntry → Option (List LogEntry × Bool)
  | [] => some (log, false)
  | e :: es => do
    -- the entry at `idx` is read only if there is one
    let held ← if idx ≤ log.length - 1 then (log[idx]?).map (·.term == e.term) else some false
    if held then mergeEntriesBounded log (idx + 1) es
    else do
      let front ← sliceTo log idx
      some (front ++ e :: es, true)

/-- `AppendEntries` from the consistency check on, with its bounds checks. -/
def appendCheckedBounded [Storage σ] (r : Raft σ) (changed : Bool) (args : AppendEntriesArgs) :
    Option (Raft σ × AppendEntriesReply) :=
  let reply : AppendEntriesReply :=
    { term := r.currentTerm, success := false, conflictIndex := 0 }
  if args.prevLogIndex > r.lastIndexLocked then
    some (r.persistIf changed, { reply with conflictIndex := r.lastIndexLocked + 1 })
  else do
    let prev ← r.log[args.prevLogIndex]?
    if prev.term ≠ args.prevLogTerm then do
      let ci ← conflictStartBounded r.log prev.term args.prevLogIndex
      some (r.persistIf changed, { reply with conflictIndex := ci })
    else do
      let (log, truncated) ← mergeEntriesBounded r.log (args.prevLogIndex + 1) args.entries
      let lastNew := args.prevLogIndex + args.entries.length
      let r :=
        { r with
          log := log
          commitIndex :=
            if args.leaderCommit > r.commitIndex then min args.leaderCommit lastNew
            else r.commitIndex }
      some (r.persistIf (changed || truncated), { reply with success := true })

def appendEntriesBounded [Storage σ] (r : Raft σ) (args : AppendEntriesArgs) :
    Option (Raft σ × AppendEntriesReply) :=
  if args.term < r.currentTerm then
    some (r, { term := r.currentTerm, success := false, conflictIndex := 0 })
  else
    let (r, changed) := r.observeTerm args.term
    { r with state := .follower, leaderID := args.leaderID }.appendCheckedBounded changed args

/-- One round of `applyLoop` with its bounds check. -/
def applyLoopBounded (r : Raft σ) : Option (Option (Raft σ × ApplyMsg)) :=
  if r.lastApplied ≥ r.commitIndex then some none
  else do
    let r := { r with lastApplied := r.lastApplied + 1 }
    let e ← r.log[r.lastApplied]?
    some (some (r, { commandValid := true, command := e.command, commandIndex := r.lastApplied }))

/-- Every access to the log is in range, whatever arguments arrive. -/
structure InRange [Storage σ] (r : Raft σ) : Prop where
  lastLogTermIndexLocked : r.lastLogTermIndexBounded = some r.lastLogTermIndexLocked
  replicateTo : ∀ peer, r.replicateToBounded peer = some (r.replicateTo peer)
  replicateToReply : ∀ peer args reply,
    r.replicateToReplyBounded peer args reply = some (r.replicateToReply peer args reply)
  appendEntries : ∀ args, r.appendEntriesBounded args = some (r.appendEntries args)
  applyLoop : r.applyLoopBounded = some r.applyLoop

/-! ## What the accesses need -/

theorem getElem?_termAt {log : List LogEntry} {i : Nat} (h : i < log.length) :
    ∃ e, log[i]? = some e ∧ e.term = termAt log i ∧ e = log.getD i sentinel := by
  have hget := List.getElem?_eq_getElem h
  refine ⟨log[i], hget, (termAt_eq hget).symm, ?_⟩
  simp [List.getD, hget]

theorem replicateToBounded_eq {r : Raft σ} {peer : NodeID} (hlog : r.log ≠ [])
    (hnext : r.state = .leader → r.nextIndex peer ≤ r.log.length) :
    r.replicateToBounded peer = some (r.replicateTo peer) := by
  unfold replicateToBounded replicateTo
  by_cases hst : r.state = .leader
  · have hpos := List.length_pos_iff.mpr hlog
    have hle := hnext hst
    -- the source sends from index 1 at least
    set ni := if r.nextIndex peer < 1 then 1 else r.nextIndex peer with hni
    have hni' : 1 ≤ ni ∧ ni ≤ r.log.length := by
      rw [hni]
      split_ifs <;> omega
    obtain ⟨e, he, hterm, _⟩ := getElem?_termAt (show ni - 1 < r.log.length by omega)
    simp only [hst, ne_eq, not_true_eq_false, if_false, he, sliceFrom, hni'.2, if_true, hterm,
      Option.bind_eq_bind, Option.bind_some]
  · simp only [ne_eq, hst, not_false_eq_true, if_true]

theorem advanceCommitLoopBounded_eq {r : Raft σ} {n : Nat} (h : n < r.log.length) :
    r.advanceCommitLoopBounded n = some (r.advanceCommitLoop n) := by
  induction n with
  | zero => rfl
  | succ n ih =>
    obtain ⟨e, he, hterm, _⟩ := getElem?_termAt h
    simp only [advanceCommitLoopBounded, advanceCommitLoop, he, hterm, Option.bind_eq_bind,
      Option.bind_some, ih (by omega)]
    split_ifs <;> rfl

theorem replicateToReplyBounded_eq {r : Raft σ} (hlog : r.log ≠ []) (peer : NodeID)
    (args : AppendEntriesArgs) (reply : AppendEntriesReply) :
    r.replicateToReplyBounded peer args reply = some (r.replicateToReply peer args reply) := by
  -- recording a match leaves the log, so the count starts inside it
  have hlast : (r.recordMatch peer (args.prevLogIndex + args.entries.length)).lastIndexLocked <
      (r.recordMatch peer (args.prevLogIndex + args.entries.length)).log.length := by
    have hpos := List.length_pos_iff.mpr hlog
    show r.log.length - 1 < r.log.length
    omega
  have hadv := advanceCommitLoopBounded_eq hlast
  unfold replicateToReplyBounded replicateToReply
  rw [advanceCommitBounded, hadv]
  split_ifs <;> rfl

theorem conflictStartBounded_eq {log : List LogEntry} {t ci : Nat} (h : ci ≤ log.length) :
    conflictStartBounded log t ci = some (conflictStart log t ci) := by
  induction ci with
  | zero => rfl
  | succ ci ih =>
    obtain ⟨e, he, hterm, _⟩ := getElem?_termAt (show ci < log.length from h)
    simp only [conflictStartBounded, conflictStart, he, hterm, Option.bind_eq_bind,
      Option.bind_some, ih (by omega)]
    -- the loop goes on under the same condition in both versions
    split_ifs with h1 h2 h3 h4
    · rfl
    · exact absurd ⟨h1, h2⟩ h3
    · exact absurd h4.2 h2
    · rfl
    · rename_i h5
      exact absurd h5.1 h1
    · rfl

theorem mergeEntriesBounded_eq {log es : List LogEntry} {idx : Nat} (hlog : log ≠ [])
    (hidx : idx ≤ log.length) :
    mergeEntriesBounded log idx es = some (mergeEntries log idx es) := by
  have hpos := List.length_pos_iff.mpr hlog
  induction es generalizing idx with
  | nil => rfl
  | cons e es ih =>
    -- an index inside the log is looked up, one beyond it is not
    by_cases hin : idx ≤ log.length - 1
    · obtain ⟨e', he', hterm, _⟩ := getElem?_termAt (show idx < log.length by omega)
      simp only [mergeEntriesBounded, mergeEntries, hin, he', hterm, if_true, true_and,
        Option.bind_eq_bind, Option.map_some, Option.bind_some, beq_iff_eq, sliceTo, hidx,
        ih (show idx + 1 ≤ log.length by omega)]
      split_ifs <;> rfl
    · simp only [mergeEntriesBounded, mergeEntries, hin, if_false, false_and,
        Option.bind_eq_bind, Option.bind_some, Bool.false_eq_true, sliceTo, hidx, if_true]

theorem appendEntriesBounded_eq [Storage σ] {r : Raft σ} (hlog : r.log ≠ [])
    (args : AppendEntriesArgs) : r.appendEntriesBounded args = some (r.appendEntries args) := by
  unfold appendEntriesBounded appendEntries
  by_cases hst : args.term < r.currentTerm
  · rw [if_pos hst, if_pos hst]
  · rw [if_neg hst, if_neg hst]
    obtain ⟨hfollow, hchanged⟩ := observeTerm_follow r args hst
    simp only [hfollow, hchanged]
    unfold appendCheckedBounded appendChecked
    by_cases hshort : args.prevLogIndex > (follow r args).lastIndexLocked
    · -- a log that is too short is answered without an access
      rw [if_pos hshort, if_pos hshort]
    · -- the previous entry is held: this is the check the access relies on
      have hpos := List.length_pos_iff.mpr hlog
      have hin : args.prevLogIndex < (follow r args).log.length := by
        have hle : args.prevLogIndex ≤ r.log.length - 1 := Nat.le_of_not_gt hshort
        show args.prevLogIndex < r.log.length
        omega
      obtain ⟨e, he, hterm, _⟩ := getElem?_termAt hin
      rw [if_neg hshort, if_neg hshort]
      simp only [he, hterm, Option.bind_eq_bind, Option.bind_some,
        conflictStartBounded_eq (Nat.le_of_lt hin),
        mergeEntriesBounded_eq (show (follow r args).log ≠ [] from hlog) hin]
      split_ifs <;> rfl

theorem applyLoopBounded_eq {r : Raft σ} (hcommit : r.commitIndex < r.log.length) :
    r.applyLoopBounded = some r.applyLoop := by
  unfold applyLoopBounded applyLoop
  split_ifs with hwait
  · rfl
  · obtain ⟨e, he, _, hget⟩ := getElem?_termAt (show r.lastApplied + 1 < r.log.length by omega)
    simp only [he, Option.bind_eq_bind, Option.bind_some, ← hget]

/-- Three facts put every access in range: the log holds the sentinel, a leader's
    `nextIndex` is at most one past the end, and the commit index is an entry. -/
theorem inRange [Storage σ] {r : Raft σ} (hlog : r.log ≠ [])
    (hnext : r.state = .leader → ∀ p, r.nextIndex p ≤ r.log.length)
    (hcommit : r.commitIndex < r.log.length) : InRange r where
  lastLogTermIndexLocked := by
    have hpos := List.length_pos_iff.mpr hlog
    -- the last index is in range since the sentinel is always there
    obtain ⟨e, he, hterm, _⟩ := getElem?_termAt
      (show r.lastIndexLocked < r.log.length from Nat.sub_lt hpos Nat.one_pos)
    rw [lastLogTermIndexBounded, he, Raft.lastLogTermIndexLocked, ← hterm]
    rfl
  replicateTo peer := replicateToBounded_eq hlog fun hst => hnext hst peer
  replicateToReply := replicateToReplyBounded_eq hlog
  appendEntries := appendEntriesBounded_eq hlog
  applyLoop := applyLoopBounded_eq hcommit

/-! ## Commit index and deliveries of one node -/

section Node

variable [Storage σ] {r r' : Raft σ} {x : Input}

@[simp] theorem persistIf_lastApplied (b : Bool) (r : Raft σ) :
    (r.persistIf b).lastApplied = r.lastApplied := by
  cases b <;> rfl

omit [Storage σ] in
theorem commitIndex_le_advanceCommitLocked (r : Raft σ) :
    r.commitIndex ≤ r.advanceCommitLocked.commitIndex := by
  rcases advanceCommitLoop_cases r r.lastIndexLocked with heq | ⟨hlt, _⟩
  · exact Nat.le_of_eq heq.symm
  · exact Nat.le_of_lt hlt

/-- The commit index does not decrease and nothing is delivered. -/
def Progress (r r' : Raft σ) : Prop :=
  r.commitIndex ≤ r'.commitIndex ∧ r'.lastApplied = r.lastApplied

theorem RequestVoteOutcome.progress {args : RequestVoteArgs} {reply : RequestVoteReply}
    (h : RequestVoteOutcome r args r' reply) : Progress r r' := by
  cases h with
  | refused | adopted | granted | adoptedGranted => exact ⟨Nat.le_refl _, rfl⟩

theorem VoteReplyOutcome.progress {term votes votes' : Nat} {reply : RequestVoteReply}
    (h : VoteReplyOutcome r term votes reply r' votes') : Progress r r' := by
  cases h with
  | ignored | steppedDown | counted | elected => exact ⟨Nat.le_refl _, rfl⟩

omit [Storage σ] in
theorem AppendReplyOutcome.progress {peer : NodeID} {args : AppendEntriesArgs}
    {reply : AppendEntriesReply} (h : AppendReplyOutcome r peer args reply r') :
    Progress r r' := by
  cases h with
  | ignored | steppedDown | backedUp => exact ⟨Nat.le_refl _, rfl⟩
  | matched =>
    let m := args.prevLogIndex + args.entries.length
    exact ⟨commitIndex_le_advanceCommitLocked (r.recordMatch peer m), rfl⟩

/-- A follower takes over an announced index that lies at or below `lastNew`, so the
    minimum is not below its own. -/
theorem AppendEntriesOutcome.progress {args : AppendEntriesArgs} {reply : AppendEntriesReply}
    (h : AppendEntriesOutcome r args r' reply)
    (hreach : args.leaderCommit ≤ args.prevLogIndex + args.entries.length) : Progress r r' := by
  cases h with
  | stale => exact ⟨Nat.le_refl _, rfl⟩
  | rejected =>
    refine ⟨?_, persistIf_lastApplied _ _⟩
    rw [persistIf_commitIndex]
    exact Nat.le_refl _
  | accepted =>
    refine ⟨?_, persistIf_lastApplied _ _⟩
    rw [persistIf_commitIndex]
    -- the commit index moves only up, to what the request reaches
    show r.commitIndex ≤ if args.leaderCommit > r.commitIndex then
      min args.leaderCommit (args.prevLogIndex + args.entries.length) else r.commitIndex
    split_ifs <;> omega

/-- A call does not announce more than the last entry it reaches. -/
def Input.Reaching : Input → Prop
  | .appendEntries args => args.leaderCommit ≤ args.prevLogIndex + args.entries.length
  | _ => True

/-- **Only a restart lowers the commit index, and only `applyLoop` delivers.** -/
theorem handle_progress (hx : x ≠ .restart) (hx' : x ≠ .apply) (hreach : x.Reaching) :
    Progress r (r.handle x) := by
  -- only an accepted append needs the bound on the announced commit index
  cases x with
  | startElection => exact ⟨Nat.le_refl _, rfl⟩
  | voteReply term votes reply => exact (startElectionReply_outcome r term votes reply).progress
  | requestVote args => exact (requestVote_outcome r args).progress
  | start command =>
    unfold handle Raft.start
    split_ifs <;> exact ⟨Nat.le_refl _, rfl⟩
  | appendReply peer args reply => exact (replicateToReply_outcome r peer args reply).progress
  | appendEntries args => exact (appendEntries_outcome r args).progress hreach
  | apply => exact absurd rfl hx'
  | restart => exact absurd rfl hx

end Node

/-! ## The nodes of a cluster -/

section Cluster

variable {C : Cluster} {s s' : System σ} {ev : Event} {i : NodeID}

/-- Where the inputs come from: crashes and deliveries are events of their own, and the
    arguments of `AppendEntries` are those of a call. -/
theorem Event.input_origin {x : Input} (h : ev.input s = some (i, x)) :
    (x = .restart → ev = .restart i) ∧ (x = .apply → ev = .apply i) ∧
      ∀ args, x = .appendEntries args → ∃ c ∈ s.appendCalls, c.callee = i ∧ c.args = args := by
  -- the input names the event it came from; only the two deliveries look at a request
  cases ev with
  | replicateTo => cases h
  | startElection | start | apply | restart =>
    obtain ⟨rfl, rfl⟩ := Prod.mk.inj (Option.some.inj h)
    simp
  | deliverVote k =>
    obtain ⟨c, _, hx⟩ := Option.map_eq_some_iff.mp h
    obtain ⟨_, rfl⟩ := Prod.mk.inj hx
    simp
  | deliverAppend k =>
    obtain ⟨c, hc, hx⟩ := Option.map_eq_some_iff.mp h
    obtain ⟨hi, rfl⟩ := Prod.mk.inj hx
    refine ⟨nofun, nofun, fun args hargs => ⟨c, List.mem_of_getElem? hc, hi, ?_⟩⟩
    exact Input.appendEntries.inj hargs
  | voteReply m =>
    simp only [Event.input, Option.bind_eq_bind, Option.bind_eq_some_iff, Option.some.injEq] at h
    obtain ⟨_, _, _, _, _, _, hx⟩ := h
    obtain ⟨_, rfl⟩ := Prod.mk.inj hx
    simp
  | appendReply m =>
    simp only [Event.input, Option.bind_eq_bind, Option.bind_eq_some_iff, Option.some.injEq] at h
    obtain ⟨_, _, _, _, hx⟩ := h
    obtain ⟨_, rfl⟩ := Prod.mk.inj hx
    simp

/-- The commit index bounds what was applied, and no call announces more than the last
    entry it reaches. -/
structure Ordered (C : Cluster) (s : System σ) : Prop where
  applied : ∀ i ∈ C.ids, (s.nodes i).lastApplied ≤ (s.nodes i).commitIndex
  call : ∀ c ∈ s.appendCalls,
    c.args.leaderCommit ≤ c.args.prevLogIndex + c.args.entries.length

variable [ReliableStorage σ]

/-- What one event does to the commit index and `lastApplied` of a node, a restart apart. -/
theorem Ordered.node (ho : Ordered C s) (hb : Basic C s) (h : step C s ev = some s')
    (hev : ev ≠ .restart i) :
    (s.nodes i).commitIndex ≤ (s'.nodes i).commitIndex ∧
      (ev ≠ .apply i → (s'.nodes i).lastApplied = (s.nodes i).lastApplied) := by
  rcases step_handle hb h i with hsame | ⟨x, hin, hnode⟩
  · -- a node the event does not reach
    rw [hsame]
    exact ⟨Nat.le_refl _, fun _ => rfl⟩
  · obtain ⟨hrestart, happly, hcall⟩ := Event.input_origin hin
    rw [hnode]
    by_cases hx : x = .apply
    · -- a delivery keeps the commit index
      subst hx
      refine ⟨?_, fun hne => absurd (happly rfl) hne⟩
      cases happ : (s.nodes i).applyLoop with
      | none => simp only [handle, happ, Nat.le_refl]
      | some p =>
        obtain ⟨_, hr, _⟩ := applyLoop_eq_some happ
        simp only [handle, happ, hr, Nat.le_refl]
    · -- a request that is delivered was sent, so what it announces it also reaches
      have hreach : x.Reaching := by
        cases x with
        | appendEntries args =>
          obtain ⟨c, hc, _, hargs⟩ := hcall args rfl
          exact hargs ▸ ho.call c hc
        | startElection | voteReply | requestVote | start | appendReply | apply | restart =>
          trivial
      have hprog := handle_progress (r := s.nodes i) (fun hx' => hev (hrestart hx')) hx hreach
      exact ⟨hprog.1, fun _ => hprog.2⟩

/-- A delivery at node `i`. -/
theorem step_apply {s s' : System σ} (h : step C s (.apply i) = some s') :
    (s.nodes i).lastApplied < (s.nodes i).commitIndex ∧
      (s'.nodes i).lastApplied = (s.nodes i).lastApplied + 1 ∧
      (s'.nodes i).commitIndex = (s.nodes i).commitIndex ∧
      ∃ msg, msg.commandIndex = (s.nodes i).lastApplied + 1 ∧
        s'.applied = s.applied ++ [(i, msg)] := by
  simp only [step, Option.bind_eq_bind, Option.bind_eq_some_iff, Option.guard_eq_some',
    Option.some.injEq] at h
  obtain ⟨_, _, ⟨r, msg⟩, happ, rfl⟩ := h
  obtain ⟨hlt, rfl, rfl⟩ := applyLoop_eq_some happ
  refine ⟨hlt, ?_, ?_, _, rfl, rfl⟩
  · simp only [System.setNode, Function.update_self]
  · simp only [System.setNode, Function.update_self]

theorem step_restart {s s' : System σ} (h : step C s (.restart i) = some s') :
    (s'.nodes i).lastApplied = 0 := by
  simp only [step, Option.bind_eq_bind, Option.bind_eq_some_iff, Option.guard_eq_some',
    Option.some.injEq] at h
  obtain ⟨_, _, rfl⟩ := h
  simp only [System.setNode, Function.update_self, new_eq]

/-- **Step lemma.** -/
theorem Ordered.step {g : History} (ho : Ordered C s) (hi : Inv C s g)
    (h : step C s ev = some s') : Ordered C s' where
  -- a restart starts from zero, a delivery moves up to the commit index, the rest do not move it
  applied i hmem := by
    have hle := ho.applied i hmem
    by_cases hrestart : ev = .restart i
    · subst hrestart
      rw [step_restart h]
      exact Nat.zero_le _
    · by_cases happly : ev = .apply i
      · subst happly
        obtain ⟨hlt, hlast, hcommit, _⟩ := step_apply h
        rw [hlast, hcommit]
        exact hlt
      · obtain ⟨hcommit, hlast⟩ := ho.node hi.sound.basic h hrestart
        rw [hlast happly]
        exact Nat.le_trans hle hcommit
  call c hc := by
    obtain ⟨o, ht⟩ := step_transition h
    rcases ht.appendCalls_inv hc with hold | ⟨hmem, hst, hargs⟩
    · exact ho.call c hold
    · -- everything up to the end of the sender's log is announced or carried
      have hlt := hi.commitIndex_lt hmem
      have hnext := hi.sound.logs.nextIndex c.caller hmem hst c.callee
      rw [hargs]
      simp only [sendFrom, List.length_drop]
      omega

theorem ordered_init (storages : NodeID → σ) : Ordered C (System.init C storages) where
  applied i _ := by simp only [System.init, new_eq, Nat.le_refl]
  call := by simp [System.init]

/-! ## Runs -/

/-- The command indices node `i` has handed to its apply channel, oldest first. -/
def delivered (s : System σ) (i : NodeID) : List Nat :=
  (s.applied.filter (·.1 = i)).map (·.2.commandIndex)

omit [ReliableStorage σ] in
theorem delivered_concat {j : NodeID} {msg : ApplyMsg}
    (h : s'.applied = s.applied ++ [(j, msg)]) :
    delivered s' i = delivered s i ++ if j = i then [msg.commandIndex] else [] := by
  rw [delivered, delivered, h, List.filter_append, List.map_append]
  split_ifs with hji <;> simp [hji]

omit [ReliableStorage σ] in
/-- Only node `i` delivers for node `i`. -/
theorem delivered_step [Storage σ] (h : step C s ev = some s') (hev : ev ≠ .apply i) :
    delivered s' i = delivered s i := by
  obtain hsame | ⟨j, msg, rfl, happ⟩ : s'.applied = s.applied ∨
      ∃ j msg, ev = .apply j ∧ s'.applied = s.applied ++ [(j, msg)] := by
    cases ev with
    | apply j =>
      simp only [step, Option.bind_eq_bind, Option.bind_eq_some_iff, Option.guard_eq_some',
        Option.some.injEq] at h
      obtain ⟨_, _, ⟨r, msg⟩, _, rfl⟩ := h
      exact Or.inr ⟨j, msg, rfl, rfl⟩
    | startElection | start | replicateTo | deliverVote | deliverAppend | voteReply
    | appendReply | restart =>
      simp only [step, Option.bind_eq_bind, Option.bind_eq_some_iff, Option.guard_eq_some',
        Option.some.injEq] at h
      -- no other event touches the apply channel
      refine Or.inl ?_
      grind [System.setNode]
  · rw [delivered, delivered, hsame]
  · rw [delivered_concat happ, if_neg fun hj => hev (by rw [hj]), List.append_nil]

theorem ordered_of_run {storages : NodeID → σ}
    (hfresh : ∀ i, Storage.load (storages i) = .ok none) {es : List Event}
    (hrun : Reaches C storages es s) : Ordered C s := by
  refine run_induction (P := fun _ s => Ordered C s) (ordered_init storages) ?_ hrun
  intro es t e t' hes ho hstep
  obtain ⟨g, hg⟩ := inv_of_run hfresh hes
  exact ho.step hg hstep

/-- **Run lemma**: while node `i` does not restart its commit index does not decrease and
    it delivers the indices that follow the last one, in order. -/
theorem delivered_run {g : History} (hi : Inv C s g) (ho : Ordered C s) {fs : List Event}
    (hfs : .restart i ∉ fs) (hrun : run (step C) s fs = some s') :
    (s.nodes i).commitIndex ≤ (s'.nodes i).commitIndex ∧
      ∃ n, (s'.nodes i).lastApplied = (s.nodes i).lastApplied + n ∧
        delivered s' i = delivered s i ++ List.range' ((s.nodes i).lastApplied + 1) n := by
  have hne : ∀ e ∈ fs, e ≠ .restart i := fun e he heq => hfs (heq ▸ he)
  -- the invariant: what was delivered since `s` is the indices since `s`, without a gap
  refine (run_invariant (I := fun q => (∃ g, Inv C q g) ∧ Ordered C q ∧
    (s.nodes i).commitIndex ≤ (q.nodes i).commitIndex ∧
    ∃ n, (q.nodes i).lastApplied = (s.nodes i).lastApplied + n ∧
      delivered q i = delivered s i ++ List.range' ((s.nodes i).lastApplied + 1) n) ?_
    ⟨⟨g, hi⟩, ho, Nat.le_refl _, 0, rfl, by simp⟩ (along_of_forall hne) hrun).2.2
  rintro q e q' ⟨⟨g, hq⟩, hoq, hcommit, n, hlast, hdel⟩ hne hstep
  obtain ⟨o, ht⟩ := step_transition hstep
  obtain ⟨hle, hsame⟩ := hoq.node hq.sound.basic hstep hne
  refine ⟨⟨_, hq.step ht⟩, hoq.step hq hstep, Nat.le_trans hcommit hle, ?_⟩
  by_cases happly : e = .apply i
  · -- one more index
    subst happly
    obtain ⟨_, hnext, _, msg, hidx, happ⟩ := step_apply hstep
    refine ⟨n + 1, by omega, ?_⟩
    rw [delivered_concat happ, if_pos rfl, hidx, hdel, hlast, List.append_assoc,
      List.range'_concat, Nat.one_mul, Nat.add_right_comm]
  · exact ⟨n, (hsame happly).trans hlast, (delivered_step hstep happly).trans hdel⟩

/-- **No access out of range, and deliveries in order**: in every state of every run all
    accesses to the log are in range, `lastApplied` is at most the commit index and the
    commit index at most the last index.  While a node does not restart its commit index
    never decreases, and from its start on the indices it delivers are 1, 2, 3, …. -/
theorem log_access_and_delivery (C : Cluster) (storages : NodeID → σ)
    (hfresh : ∀ i, Storage.load (storages i) = .ok none) (es : List Event) (s : System σ)
    (hrun : Reaches C storages es s) (i : NodeID) (hi : i ∈ C.ids) :
    InRange (s.nodes i) ∧ (s.nodes i).lastApplied ≤ (s.nodes i).commitIndex ∧
    (s.nodes i).commitIndex ≤ (s.nodes i).lastIndexLocked ∧
    ∀ es₁ s₁ fs, es = es₁ ++ fs → Reaches C storages es₁ s₁ → .restart i ∉ fs →
      (s₁.nodes i).commitIndex ≤ (s.nodes i).commitIndex ∧
      ((es₁ = [] ∨ ∃ es₀, es₁ = es₀ ++ [.restart i]) →
        delivered s i = delivered s₁ i ++ List.range' 1 (s.nodes i).lastApplied) := by
  obtain ⟨g, hg⟩ := inv_of_run hfresh hrun
  have hcommit := hg.commitIndex_lt hi
  refine ⟨inRange (hg.sound.logs.node i hi).ne_nil (hg.sound.logs.nextIndex i hi) hcommit,
    (ordered_of_run hfresh hrun).applied i hi, Nat.le_sub_one_of_lt hcommit, ?_⟩
  rintro es₁ s₁ fs rfl hreach hfs
  obtain ⟨g₁, hg₁⟩ := inv_of_run hfresh hreach
  -- the run is cut where `es₁` ends
  obtain ⟨s₁', hs₁', hrest⟩ := run_append_eq_some hrun
  obtain rfl := Option.some.inj (hs₁'.symm.trans hreach)
  obtain ⟨hle, n, hlast, hdel⟩ := delivered_run hg₁ (ordered_of_run hfresh hreach) hfs hrest
  refine ⟨hle, fun hstart => ?_⟩
  -- a node starts with nothing applied
  have hzero : (s₁'.nodes i).lastApplied = 0 := by
    rcases hstart with rfl | ⟨es₀, rfl⟩
    · obtain rfl := Option.some.inj hreach
      simp only [System.init, new_eq]
    · obtain ⟨t, _, hstep⟩ := run_concat_eq_some hreach
      exact step_restart hstep
  rw [hzero, Nat.zero_add] at hlast hdel
  rw [hdel, hlast]

end Cluster

/-- Node 1 has delivered index 1 and nothing else. -/
theorem log_access_and_delivery_replicateOnce : ∃ s,
    Reaches threeNodes (fun _ => newMemoryStorage) replicateOnce s ∧
    (s.nodes 1).lastApplied = 1 ∧ InRange (s.nodes 1) ∧ delivered s 1 = [1] := by
  have hrun : (run (step threeNodes) (System.init threeNodes fun _ => newMemoryStorage)
      replicateOnce).map (fun s => (s.nodes 1).lastApplied) = some 1 := by decide
  obtain ⟨s, hs, hlast⟩ := Option.map_eq_some_iff.mp hrun
  obtain ⟨hrange, _, _, hdel⟩ :=
    log_access_and_delivery threeNodes _ (fun _ => rfl) _ s hs 1 (by decide)
  have hone := (hdel [] _ replicateOnce rfl rfl (by decide)).2 (Or.inl rfl)
  rw [hlast] at hone
  exact ⟨s, hs, hlast, hrange, hone⟩

end EventLog.Raft
