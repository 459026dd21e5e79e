import EventLog.Raft.LogMatching

/-!
# `AppendEntries` within one term

What the handler does with the requests of the leader of its own term.  Such a request is
rejected because the log is too short, rejected because the terms at `PrevLogIndex` differ,
or accepted.  A request that carries a slice of the leader's log and is accepted makes the
follower take over that log up to the end of the slice, and nothing else.
-/

namespace EventLog.Raft

open EventLog.Lib

variable {σ : Type} [Storage σ] {r : Raft σ} {args : AppendEntriesArgs} {L : List LogEntry}

/-! ## Log matching -/

theorem logsMatch_take (L : List LogEntry) (n : Nat) : LogsMatch (L.take n) L :=
  fun i hi _ _ => by
    rw [List.length_take] at hi
    rw [List.take_take, Nat.min_eq_left (by omega)]

theorem LogsMatch.takeOver {log : List LogEntry} (h : LogsMatch log L) (n : Nat) :
    LogsMatch (takeOver L n log) L := by
  unfold Lib.takeOver
  split_ifs
  · exact h
  · exact logsMatch_take L n

/-- What merging leaves is what was there or what was sent. -/
theorem Merged.eq_takeOver {log : List LogEntry} {n : Nat} {res : List LogEntry × Bool}
    (h : Merged L log n res) : res.1 = takeOver L n log := by
  cases h with
  | kept hpre => exact (takeOver_of_isPrefix hpre).symm
  | replaced j hj _ hpart =>
    exact (if_neg fun hpre => hpart ((List.take_prefix_take_left hj).trans hpre)).symm

/-- Nothing was truncated exactly when everything was there. -/
theorem Merged.changed_iff {log : List LogEntry} {n : Nat} {res : List LogEntry × Bool}
    (h : Merged L log n res) : res.2 = false ↔ L.take n <+: log := by
  cases h with
  | kept hpre => exact iff_of_true rfl hpre
  | replaced j hj _ hpart =>
    exact iff_of_false (fun h => Bool.noConfusion h) fun hpre =>
      hpart ((List.take_prefix_take_left hj).trans hpre)

/-! ## The three answers -/

/-- Within one term the handler runs its consistency check on the follower of the sender. -/
theorem appendEntries_sameTerm (hterm : r.currentTerm = args.term) :
    r.appendEntries args = (r.follow args).appendChecked false args := by
  have hstale : ¬args.term < r.currentTerm := by omega
  obtain ⟨hfollow, hchanged⟩ := observeTerm_follow r args hstale
  have hsame : ¬r.currentTerm < args.term := by omega
  rw [decide_eq_false hsame] at hchanged
  rw [appendEntries, if_neg hstale]
  simp only [hfollow, hchanged]

/-- The log is too short: the leader is told where it ends. -/
theorem appendEntries_tooShort (hterm : r.currentTerm = args.term) (hlog : r.log ≠ [])
    (hshort : r.log.length ≤ args.prevLogIndex) :
    r.appendEntries args =
      (r.follow args, { term := args.term, success := false, conflictIndex := r.log.length }) := by
  have hpos := List.length_pos_iff.mpr hlog
  have hlast : (r.follow args).lastIndexLocked + 1 = r.log.length := by
    show r.log.length - 1 + 1 = r.log.length
    omega
  rw [appendEntries_sameTerm hterm, appendChecked, if_pos (by omega), hlast]
  rfl

/-- The terms differ: the leader is told where the term of the follower starts. -/
theorem appendEntries_conflict (hterm : r.currentTerm = args.term)
    (hlong : args.prevLogIndex < r.log.length)
    (hdiffer : termAt r.log args.prevLogIndex ≠ args.prevLogTerm) :
    r.appendEntries args =
      (r.follow args,
        { term := args.term
          success := false
          conflictIndex :=
            conflictStart r.log (termAt r.log args.prevLogIndex) args.prevLogIndex }) := by
  -- the follower has an entry at `PrevLogIndex`, of another term
  have hlast : ¬args.prevLogIndex > (r.follow args).lastIndexLocked := by
    show ¬args.prevLogIndex > r.log.length - 1
    omega
  have hcheck : termAt (r.follow args).log args.prevLogIndex ≠ args.prevLogTerm := hdiffer
  rw [appendEntries_sameTerm hterm, appendChecked, if_neg hlast, if_pos hcheck]
  rfl

/-- The prefix matches: the entries are merged and the commit point moves. -/
theorem appendEntries_matched (hterm : r.currentTerm = args.term)
    (hlong : args.prevLogIndex < r.log.length)
    (hsame : termAt r.log args.prevLogIndex = args.prevLogTerm) :
    r.appendEntries args =
      (persistIf (mergeEntries r.log (args.prevLogIndex + 1) args.entries).2
          { r.follow args with
            log := (mergeEntries r.log (args.prevLogIndex + 1) args.entries).1
            commitIndex :=
              if args.leaderCommit > r.commitIndex then
                min args.leaderCommit (args.prevLogIndex + args.entries.length)
              else r.commitIndex },
        { term := args.term, success := true, conflictIndex := 0 }) := by
  -- both parts of the consistency check pass
  have hlast : ¬args.prevLogIndex > (r.follow args).lastIndexLocked := by
    show ¬args.prevLogIndex > r.log.length - 1
    omega
  have hcheck : ¬termAt (r.follow args).log args.prevLogIndex ≠ args.prevLogTerm := by
    show ¬termAt r.log args.prevLogIndex ≠ args.prevLogTerm
    rw [hsame]
    exact not_not.mpr rfl
  rw [appendEntries_sameTerm hterm, appendChecked, if_neg hlast, if_neg hcheck]
  rfl

/-- Which of the three it is. -/
theorem appendEntries_success_iff (hterm : r.currentTerm = args.term) (hlog : r.log ≠ []) :
    (r.appendEntries args).2.success = true ↔
      args.prevLogIndex < r.log.length ∧ termAt r.log args.prevLogIndex = args.prevLogTerm := by
  by_cases hlong : args.prevLogIndex < r.log.length
  · by_cases hsame : termAt r.log args.prevLogIndex = args.prevLogTerm
    · rw [appendEntries_matched hterm hlong hsame]
      exact iff_of_true rfl ⟨hlong, hsame⟩
    · rw [appendEntries_conflict hterm hlong hsame]
      exact iff_of_false Bool.false_ne_true fun h => hsame h.2
  · rw [appendEntries_tooShort hterm hlog (by omega)]
    exact iff_of_false Bool.false_ne_true fun h => hlong h.1

/-- Merging what the sender's log holds behind `PrevLogIndex`, if the prefix matches. -/
theorem Describes.merged {log : List LogEntry} (h : Describes L args) (hmatch : LogsMatch log L)
    (hlong : args.prevLogIndex < log.length)
    (hsame : termAt log args.prevLogIndex = args.prevLogTerm) :
    Merged L log (args.prevLogIndex + 1 + args.entries.length)
      (mergeEntries log (args.prevLogIndex + 1) args.entries) :=
  mergeEntries_of_logsMatch hmatch (Nat.zero_lt_of_lt hlong) hlong h.prev_lt
    (hmatch _ hlong h.prev_lt (hsame.trans h.prev_term.symm)) h.entries

/-! ## Slices of one log -/

/-- The request carries what the log `L` holds behind `PrevLogIndex` and up to index `last`,
    the last one of the leader when it was sent. -/
structure SliceOf (L : List LogEntry) (last : Nat) (args : AppendEntriesArgs) : Prop where
  prev_le : args.prevLogIndex ≤ last
  last_lt : last < L.length
  prev_term : args.prevLogTerm = termAt L args.prevLogIndex
  entries : args.entries = (L.take (last + 1)).drop (args.prevLogIndex + 1)
  commit_le : args.leaderCommit ≤ last

namespace SliceOf

variable {last : Nat}

theorem lastNew (h : SliceOf L last args) :
    args.prevLogIndex + args.entries.length = last := by
  have h1 := h.prev_le
  have h2 := h.last_lt
  rw [h.entries, List.length_drop, List.length_take]
  omega

theorem describes (h : SliceOf L last args) : Describes L args where
  prev_lt := Nat.lt_of_le_of_lt h.prev_le h.last_lt
  prev_term := h.prev_term.symm
  entries := by
    rw [h.entries, List.drop_take]
    exact List.take_prefix _ _

/-- Merging a slice whose prefix matches takes over the log it is a slice of. -/
theorem merged {log : List LogEntry} (h : SliceOf L last args) (hmatch : LogsMatch log L)
    (hlong : args.prevLogIndex < log.length)
    (hsame : termAt log args.prevLogIndex = args.prevLogTerm) :
    Merged L log (last + 1) (mergeEntries log (args.prevLogIndex + 1) args.entries) := by
  have hlast := h.lastNew
  have hmerged := h.describes.merged hmatch hlong hsame
  rwa [show args.prevLogIndex + 1 + args.entries.length = last + 1 by omega] at hmerged

/-- **Specification of `AppendEntries`** for an accepted slice of the leader's log. -/
theorem accepted (h : SliceOf L last args) (hterm : r.currentTerm = args.term)
    (hmatch : LogsMatch r.log L) (hlog : r.log ≠ [])
    (hok : (r.appendEntries args).2.success = true) :
    (r.appendEntries args).1.log = takeOver L (last + 1) r.log ∧
      (r.appendEntries args).1.commitIndex = max r.commitIndex args.leaderCommit ∧
      (r.appendEntries args).1.currentTerm = args.term ∧
      (r.appendEntries args).1.state = .follower ∧
      (r.appendEntries args).1.leaderID = args.leaderID := by
  obtain ⟨hlong, hsame⟩ := (appendEntries_success_iff hterm hlog).mp hok
  have hmerged := h.merged hmatch hlong hsame
  have hcommit : (if args.leaderCommit > r.commitIndex then
      min args.leaderCommit (args.prevLogIndex + args.entries.length) else r.commitIndex) =
        max r.commitIndex args.leaderCommit := by
    -- the commit point of the leader lies inside the slice
    have h1 := h.commit_le
    rw [h.lastNew]
    split_ifs <;> omega
  rw [appendEntries_matched hterm hlong hsame, hcommit]
  refine ⟨?_, ?_, ?_, ?_, ?_⟩
  · rw [persistIf_log]
    exact hmerged.eq_takeOver
  -- the rest of the node is as `follow` left it
  all_goals
    unfold persistIf persistLocked follow
    split_ifs <;> rfl

/-- A follower that holds the whole slice, and knows of its commit point, only notes who
    leads. -/
theorem held (h : SliceOf L last args) (hterm : r.currentTerm = args.term)
    (hmatch : LogsMatch r.log L) (hpre : L.take (last + 1) <+: r.log)
    (hcommit : args.leaderCommit ≤ r.commitIndex) :
    r.appendEntries args =
      (r.follow args, { term := args.term, success := true, conflictIndex := 0 }) := by
  have h1 := h.prev_le
  have h2 := h.last_lt
  -- the log reaches to `last`, so `PrevLogIndex` is inside it
  have hlong : args.prevLogIndex < r.log.length := by
    have hlen := hpre.length_le
    rw [List.length_take] at hlen
    omega
  have hsame : termAt r.log args.prevLogIndex = args.prevLogTerm := by
    -- the entry at `PrevLogIndex` is the leader's
    have hget : L[args.prevLogIndex]? = some L[args.prevLogIndex] :=
      List.getElem?_eq_getElem (by omega)
    have hheld : (L.take (last + 1))[args.prevLogIndex]? = some L[args.prevLogIndex] := by
      rw [List.getElem?_take_of_lt (by omega), hget]
    rw [h.prev_term, termAt_eq hget, termAt_eq (getElem?_mono hpre hheld)]
  have hmerged := h.merged hmatch hlong hsame
  -- nothing is new in the slice, so nothing is merged and nothing saved
  have hlog : (mergeEntries r.log (args.prevLogIndex + 1) args.entries).1 = r.log :=
    hmerged.eq_takeOver.trans (takeOver_of_isPrefix hpre)
  rw [appendEntries_matched hterm hlong hsame, hmerged.changed_iff.mpr hpre, hlog,
    if_neg (by omega)]
  rfl

end SliceOf

end EventLog.Raft
