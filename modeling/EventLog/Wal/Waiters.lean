import EventLog.Lib.References
import EventLog.Wal.GroupCommit

/-!
# Waiters of a group commit

A goroutine that finds a flush in flight waits for its broadcast.  At most one flush is in
flight, `syncing` says whether there is one, and every path that ends it clears `syncing`
and broadcasts, so nobody is left waiting (`no_waiter_stranded`).

What a goroutine returns when it wakes is another matter.  `commitLocked` looks at `syncErr`
before it looks at `syncedSeq`, so a goroutine whose record was made durable by one flush
gets the error of a later one if it takes the lock only then
(`durable_reported_failed_lateWake`).  `durable_never_failed_iff` says that this is the only
way.
-/

namespace EventLog.Wal

open EventLog.Lib

/-! ## One flush at a time -/

/-- How many goroutines are between their unlock for the fsync and their re-lock. -/
def leaders (commits : List Commit) : Nat := commits.countP (·.pc.inFlush)

/-- `syncing` says whether a flush is in flight, and whoever waits un-notified waits for it. -/
structure FlushInv (w : WALWriter) (commits : List Commit) : Prop where
  count : leaders commits = if w.syncing then 1 else 0
  waiting : ∀ c ∈ commits, c.pc = .waiting false → w.syncing = true
  alive : w.syncing = true → w.syncErr = false

section Flush

variable {w : WALWriter} {commits : List Commit} {k : Nat} {c c' : Commit} {pc : Pc}

theorem Pc.Runnable.inFlush (h : pc.Runnable) : pc.inFlush = false := by
  rcases h with rfl | rfl <;> rfl

/-- Every other goroutine is still there after one moved. -/
theorem mem_set_of_ne {d : Commit} (hk : commits[k]? = some c) (hc' : c' ∈ commits)
    (hne : c' ≠ c) : c' ∈ commits.set k d := by
  obtain ⟨j, hj⟩ := List.mem_iff_getElem?.mp hc'
  refine List.mem_iff_getElem?.mpr ⟨j, ?_⟩
  rw [List.getElem?_set_ne, hj]
  rintro rfl
  exact hne (Option.some.inj (hj.symm.trans hk))

theorem leaders_set (hk : commits[k]? = some c) (pc : Pc) :
    leaders (commits.set k { c with pc := pc }) + (if c.pc.inFlush then 1 else 0) =
      leaders commits + if pc.inFlush then 1 else 0 :=
  countP_set_add (fun c : Commit => c.pc.inFlush) hk { c with pc := pc }

theorem leaders_concat (hc : c.pc = .ready) : leaders (commits ++ [c]) = leaders commits := by
  rw [leaders, List.countP_append, List.countP_singleton, hc]
  rfl

/-- A broadcast wakes only goroutines that are in no flush. -/
theorem leaders_broadcast (commits : List Commit) :
    leaders (broadcast commits) = leaders commits := by
  rw [leaders, leaders, broadcast, List.countP_map]
  refine List.countP_congr fun c _ => ?_
  simp only [Function.comp_apply]
  -- a goroutine that is woken was not leading a flush
  split
  · rename_i hpc
    rw [hpc]
    rfl
  · rfl

/-- A broadcast reaches everyone who waits. -/
theorem notified_of_mem_broadcast (h : c ∈ broadcast commits) : c.pc ≠ .waiting false := by
  obtain ⟨c', _, rfl⟩ := List.mem_map.mp h
  split
  · simp
  · rename_i hnot
    exact hnot false

/-- Only one goroutine leads a flush. -/
theorem FlushInv.unique (h : FlushInv w commits) (hk : commits[k]? = some c)
    (hin : c.pc.inFlush = true) (hc' : c' ∈ commits) (hin' : c'.pc.inFlush = true) : c' = c := by
  by_contra hne
  have hset := leaders_set hk .ready
  have hle : leaders commits ≤ 1 := by
    rw [h.count]
    split_ifs <;> decide
  -- without this one there would be no other
  have hpos : 0 < leaders (commits.set k { c with pc := .ready }) :=
    List.countP_pos_iff.mpr ⟨c', mem_set_of_ne hk hc' hne, hin'⟩
  rw [if_pos hin] at hset
  simp only [Pc.inFlush, Bool.false_eq_true, if_false] at hset
  omega

theorem FlushInv.syncing (h : FlushInv w commits) (hc : c ∈ commits)
    (hin : c.pc.inFlush = true) : w.syncing = true := by
  have hpos : 0 < leaders commits := List.countP_pos_iff.mpr ⟨c, hc, hin⟩
  have hcount := h.count
  by_contra hnot
  rw [if_neg hnot] at hcount
  omega

/-- A goroutine moves without joining or leaving a flush. -/
theorem FlushInv.moved (h : FlushInv w commits) (hk : commits[k]? = some c)
    (hsame : pc.inFlush = c.pc.inFlush) (hwait : pc = .waiting false → w.syncing = true) :
    FlushInv w (commits.set k { c with pc := pc }) where
  count := by
    have hset := leaders_set hk pc
    rw [hsame] at hset
    rw [Nat.add_right_cancel hset, h.count]
  waiting d hd hpc := by
    rcases List.mem_or_eq_of_mem_set hd with hd | rfl
    · exact h.waiting d hd hpc
    · exact hwait hpc
  alive := h.alive

theorem FlushInv.called (h : FlushInv w commits) (hready : c.pc = .ready) :
    FlushInv w (commits ++ [c]) where
  count := by rw [leaders_concat hready, h.count]
  waiting d hd hpc := by
    rcases List.mem_append.mp hd with hd | hd
    · exact h.waiting d hd hpc
    · rw [List.mem_singleton.mp hd, hready] at hpc
      cases hpc
  alive := h.alive

/-- A goroutine becomes the leader. -/
theorem FlushInv.led (h : FlushInv w commits) (hk : commits[k]? = some c) (hpc : c.pc.Runnable)
    (hidle : w.syncing = false) (herr : w.syncErr = false) (target covered : Nat) :
    FlushInv { w with syncing := true }
      (commits.set k { c with pc := .flushing target covered }) where
  count := by
    -- nobody led before, so there is one leader now
    have hset := leaders_set hk (.flushing target covered)
    have hcount := h.count
    rw [hidle] at hcount
    rw [hpc.inFlush] at hset
    simp only [Pc.inFlush, Bool.false_eq_true, if_false, if_true] at hset hcount ⊢
    omega
  waiting _ _ _ := rfl
  alive _ := herr

/-- The leader ends the flush: it clears `syncing` and wakes everyone. -/
theorem FlushInv.ended (h : FlushInv w commits) (hk : commits[k]? = some c)
    (hin : c.pc.inFlush = true) (hpc : pc.inFlush = false) {w' : WALWriter}
    (hidle : w'.syncing = false) : FlushInv w' (broadcast (commits.set k { c with pc := pc })) where
  count := by
    -- the one leader leaves its flush
    have hset := leaders_set hk pc
    have hcount := h.count
    rw [if_pos (h.syncing (List.mem_of_getElem? hk) hin)] at hcount
    rw [hin, hpc] at hset
    rw [leaders_broadcast, hidle]
    simp only [Bool.false_eq_true, if_false, if_true] at hset ⊢
    omega
  waiting d hd hwait := absurd hwait (notified_of_mem_broadcast hd)
  alive hsync := by rw [hidle] at hsync; cases hsync

/-- **Step lemma**: one flush at a time. -/
theorem FlushInv.step {cs : Checksum} {s s' : TracedLog} {e : WriterEvent}
    (h : FlushInv s.log.writer s.log.commits) (hstep : TracedStep cs s e s') :
    FlushInv s'.log.writer s'.log.commits := by
  -- only `led` starts a flush, and only `drained` and `broke` end one
  cases hstep with
  | called seq => exact h.called rfl
  | refused => exact h
  | writeFailed => exact { h with }
  | reserved data =>
    have hcalled := h.called (c := ⟨s.log.writer.nextOffset, data, s.log.writer.writeSeq + 1,
      .ready⟩) rfl
    exact { hcalled with }
  | failed k c hk hpc => exact h.moved hk hpc.inFlush.symm nofun
  | done k c hk hpc => exact h.moved hk hpc.inFlush.symm nofun
  | waited k c hk hpc hsync => exact h.moved hk hpc.inFlush.symm fun _ => hsync
  | led k c hk hpc herr _ hidle => exact h.led hk hpc hidle herr _ _
  | syncReturned k c target covered ok hk hpc =>
    exact h.moved hk (by rw [hpc]; rfl) nofun
  | drained k c target idx hk hpc => exact h.ended hk (by rw [hpc]; rfl) rfl rfl
  | broke k c target idx hk hpc => exact h.ended hk (by rw [hpc]; rfl) rfl rfl

end Flush

/-- A writer that was just opened flushes nothing. -/
theorem newWalWriter_idle {cs : Checksum} {file : Bytes} {store : InMemoryStore} {w : WALWriter}
    (h : newWalWriter cs file store = .ok w) :
    w.syncing = false ∧ w.syncErr = false ∧ w.writeSeq = 0 ∧ w.syncedSeq = 0 := by
  simp only [newWalWriter, WALWriter.recover] at h
  split_ifs at h
  split at h
  · cases h
  · obtain rfl := Except.ok.inj h
    exact ⟨rfl, rfl, rfl, rfl⟩

theorem FlushInv.opened {cs : Checksum} {file : Bytes} {store : InMemoryStore} {w : WALWriter}
    (h : newWalWriter cs file store = .ok w) : FlushInv w [] where
  count := by
    rw [(newWalWriter_idle h).1]
    rfl
  waiting := by simp
  alive hsync := by
    rw [(newWalWriter_idle h).1] at hsync
    cases hsync

/-! ## Waking up -/

/-- How many flushes were started; while one is in flight, this is its number. -/
def flushes (tr : List Action) : Nat :=
  tr.countP fun
    | .syncStarted _ => true
    | _ => false

@[simp] theorem flushes_append (tr acts : List Action) :
    flushes (tr ++ acts) = flushes tr + flushes acts :=
  List.countP_append

theorem flushes_checkpointActions (target : Nat) (idx : Nat → WriteOutcome)
    (ps : List PendingCheckpoint) : flushes (checkpointActions target idx ps) = 0 := by
  rw [checkpointActions, flushes, List.countP_map]
  exact List.countP_eq_zero.mpr fun _ _ => Bool.false_ne_true

/-- Goroutine `k` is blocked in `cond.Wait` with no broadcast since. -/
def Blocked (commits : List Commit) (k : Nat) : Prop :=
  ∃ c, commits[k]? = some c ∧ c.pc = .waiting false

section Waking

variable {commits : List Commit} {j k n : Nat} {c d : Commit}

theorem Blocked.set (h : Blocked commits k) (hj : commits[j]? = some c)
    (hpc : c.pc ≠ .waiting false) : Blocked (commits.set j d) k := by
  obtain ⟨c', hk, hwait⟩ := h
  refine ⟨c', ?_, hwait⟩
  rw [List.getElem?_set_ne, hk]
  rintro rfl
  rw [Option.some.inj (hj.symm.trans hk)] at hpc
  exact hpc hwait

theorem Blocked.concat (h : Blocked commits k) : Blocked (commits ++ [d]) k := by
  obtain ⟨c, hk, hwait⟩ := h
  refine ⟨c, ?_, hwait⟩
  rw [List.getElem?_append_left (List.getElem?_eq_some_iff.mp hk).1, hk]

theorem Pc.Runnable.not_blocked {pc : Pc} (h : pc.Runnable) : pc ≠ .waiting false := by
  rcases h with rfl | rfl <;> simp

/-- A goroutine that began to wait for flush `n` waits until that flush has ended. -/
def AwaitsFlush (k n : Nat) (s : TracedLog) : Prop :=
  n ≤ flushes s.trace ∧
    (s.log.writer.syncing = true → flushes s.trace = n → Blocked s.log.commits k)

/-- No flush starts, and while one is in flight the goroutine stays blocked. -/
theorem AwaitsFlush.moved {s s' : TracedLog} (h : AwaitsFlush k n s)
    (htr : flushes s'.trace = flushes s.trace)
    (hsync : s'.log.writer.syncing = true → s.log.writer.syncing = true ∧
      (Blocked s.log.commits k → Blocked s'.log.commits k)) : AwaitsFlush k n s' := by
  rw [AwaitsFlush, htr]
  exact ⟨h.1, fun hs hn => (hsync hs).2 (h.2 (hsync hs).1 hn)⟩

/-- **Step lemma**: only the end of the flush wakes the goroutine. -/
theorem AwaitsFlush.step {cs : Checksum} {s s' : TracedLog} {e : WriterEvent}
    (h : AwaitsFlush k n s) (hstep : TracedStep cs s e s') : AwaitsFlush k n s' := by
  -- only the start and the end of a flush concern a goroutine that waits
  cases hstep with
  | called seq => exact h.moved rfl fun hs => ⟨hs, (·.concat)⟩
  | refused => exact h
  | writeFailed => exact h.moved rfl fun hs => ⟨hs, fun hb => hb⟩
  | reserved data => exact h.moved (flushes_append _ _) fun hs => ⟨hs, (·.concat)⟩
  | failed j c hj hpc =>
    exact h.moved (flushes_append _ _) fun hs => ⟨hs, (·.set hj hpc.not_blocked)⟩
  | done j c hj hpc =>
    exact h.moved (flushes_append _ _) fun hs => ⟨hs, (·.set hj hpc.not_blocked)⟩
  | waited j c hj hpc => exact h.moved rfl fun hs => ⟨hs, (·.set hj hpc.not_blocked)⟩
  | led j c =>
    -- the number of the new flush is greater
    have hle := h.1
    have hnew : flushes (s.trace ++ [.syncStarted j]) = flushes s.trace + 1 := flushes_append _ _
    rw [AwaitsFlush, hnew]
    exact ⟨by omega, fun _ hn => by omega⟩
  | syncReturned j c target covered ok hj hpc =>
    exact h.moved (flushes_append _ _) fun hs => ⟨hs, (·.set hj (by rw [hpc]; simp))⟩
  | drained j c target idx =>
    -- the flush is over, so only the number of flushes is left to compare
    refine h.moved ?_ nofun
    rw [flushes_append, flushes_checkpointActions, Nat.add_zero]
  | broke j c target idx => exact h.moved (flushes_append _ _) nofun

/-- Where a woken goroutine stands after its pass; `n` is the flush it had waited for. -/
inductive Resumed (n : Nat) (s : TracedLog) : Pc → Prop where
  | returned (ok) : Resumed n s (.returned ok)
  /-- It waits for a newer flush. -/
  | waits : s.log.writer.syncing = true → n < flushes s.trace → Resumed n s (.waiting false)
  /-- It leads a flush, alone. -/
  | leads (target covered) : s.log.writer.syncing = true → leaders s.log.commits = 1 →
      Resumed n s (.flushing target covered)

/-- A pass of a goroutine that was woken. -/
theorem resumed_pass {cs : Checksum} {s : TracedLog}
    (hflush : FlushInv s.log.writer s.log.commits) (hawaits : AwaitsFlush k n s)
    (hk : s.log.commits[k]? = some c) (hwoken : c.pc = .waiting true) :
    ∃ s' c', s.step cs (.log (.pass k)) = some s' ∧ s'.log.commits[k]? = some c' ∧
      Resumed n s' c'.pc := by
  have hlen := (List.getElem?_eq_some_iff.mp hk).1
  -- the lock is free, so the pass can run
  have henabled : ∃ s', s.step cs (.log (.pass k)) = some s' := by
    simp only [TracedLog.step, OpenLog.step, Option.bind_eq_bind, hk, Option.bind_some, hwoken,
      or_true, guard_true, Option.pure_def]
    cases s.log.writer.commitPass c.seq <;> exact ⟨_, rfl⟩
  obtain ⟨s', hstep⟩ := henabled
  have hflush' := hflush.step (step_tracedStep hstep)
  have hset : ∀ d : Commit, (s.log.commits.set k d)[k]? = some d := fun d =>
    List.getElem?_set_self hlen
  refine ⟨s', ?_⟩
  cases step_tracedStep hstep with
  | failed => exact ⟨_, hstep, hset _, .returned false⟩
  | done => exact ⟨_, hstep, hset _, .returned true⟩
  | waited _ d hd _ hsync =>
    refine ⟨_, hstep, hset _, .waits hsync ?_⟩
    -- the flush it waited for is over: while it lasted the goroutine was not woken
    refine Nat.lt_of_le_of_ne hawaits.1 fun heq => ?_
    obtain ⟨c', hc', hwait⟩ := hawaits.2 hsync heq.symm
    obtain rfl := Option.some.inj (hk.symm.trans hc')
    rw [hwoken] at hwait
    cases hwait
  | led => exact ⟨_, hstep, hset _, .leads _ _ rfl hflush'.count⟩

end Waking

/-- **No waiter is stranded.**  In every state the goroutines of a writer reach: if one is
    blocked un-notified, `syncing` is set and one goroutine leads a flush; if `syncing` is not
    set, nobody is blocked un-notified; and the pass of a woken goroutine returns, waits for a
    newer flush, or leads one alone. -/
theorem no_waiter_stranded (cs : Checksum) (file : Bytes) (store : InMemoryStore) {w : WALWriter}
    (hopen : newWalWriter cs file store = .ok w) (es : List WriterEvent) {s : TracedLog}
    (hrun : run (TracedLog.step cs) (TracedLog.opened w) es = some s) :
    (∀ k, Blocked s.log.commits k → s.log.writer.syncing = true ∧ leaders s.log.commits = 1) ∧
      (s.log.writer.syncing = false → ∀ k, ¬Blocked s.log.commits k) ∧
      ∀ es₁ es₂ s₁ k c, es = es₁ ++ es₂ →
        run (TracedLog.step cs) (TracedLog.opened w) es₁ = some s₁ → Blocked s₁.log.commits k →
        s.log.commits[k]? = some c → c.pc = .waiting true →
        ∃ s' c', s.step cs (.log (.pass k)) = some s' ∧ s'.log.commits[k]? = some c' ∧
          Resumed (flushes s₁.trace) s' c'.pc := by
  -- nothing is asked of the events
  have hall : ∀ (es : List WriterEvent) (t : TracedLog),
      Along (TracedLog.step cs) (fun _ _ => True) t es := fun es t =>
    along_of_forall (P := fun _ => True) fun _ _ => trivial
  have hkeep : ∀ (t : TracedLog) (e : WriterEvent) (t' : TracedLog),
      FlushInv t.log.writer t.log.commits → True → t.step cs e = some t' →
      FlushInv t'.log.writer t'.log.commits :=
    fun t e t' h _ hstep => h.step (step_tracedStep hstep)
  have hinv := run_invariant hkeep (FlushInv.opened hopen) (hall es _) hrun
  have hsyncing : ∀ k, Blocked s.log.commits k → s.log.writer.syncing = true :=
    fun k ⟨c, hk, hwait⟩ => hinv.waiting c (List.mem_of_getElem? hk) hwait
  refine ⟨fun k hb => ⟨hsyncing k hb, ?_⟩, fun hidle k hb => ?_, ?_⟩
  · rw [hinv.count, if_pos (hsyncing k hb)]
  · rw [hsyncing k hb] at hidle
    cases hidle
  · rintro es₁ es₂ s₁ k c rfl hrun₁ hblocked hk hwoken
    obtain ⟨s₁', hs₁', hrest⟩ := run_append_eq_some hrun
    obtain rfl := Option.some.inj (hs₁'.symm.trans hrun₁)
    -- from the moment it waited on, only the end of the flush in flight could wake it
    have hawaits : AwaitsFlush k (flushes s₁'.trace) s :=
      run_invariant (fun t e t' h _ hstep => AwaitsFlush.step h (step_tracedStep hstep))
        ⟨Nat.le_refl _, fun _ _ => hblocked⟩ (hall es₂ _) hrest
    exact resumed_pass hinv hawaits hk hwoken

/-- In `overlapping`, goroutine 1 waits for the flush of goroutine 0, is woken and leads the
    next one. -/
theorem no_waiter_stranded_overlapping : ∃ w s₁ s s' c',
    newWalWriter byteSum [] (newInMemoryStore [] NthIndex) = .ok w ∧
      run (TracedLog.step byteSum) (TracedLog.opened w) (overlapping.take 4) = some s₁ ∧
      Blocked s₁.log.commits 1 ∧ s₁.log.writer.syncing = true ∧
      run (TracedLog.step byteSum) (TracedLog.opened w) (overlapping.take 6) = some s ∧
      s.log.writer.syncing = false ∧ ¬Blocked s.log.commits 1 ∧
      s.step byteSum (.log (.pass 1)) = some s' ∧ s'.log.commits[1]? = some c' ∧
      Resumed 1 s' c'.pc := by
  obtain ⟨s', c', hstep, hc', hres⟩ :=
    (no_waiter_stranded byteSum [] (newInMemoryStore [] NthIndex) rfl (overlapping.take 6) rfl).2.2
      (overlapping.take 4) _ _ 1 _ (List.take_append_drop 4 (overlapping.take 6)).symm rfl
      ⟨_, rfl, rfl⟩ rfl rfl
  refine ⟨_, _, _, s', c', rfl, rfl, ⟨_, rfl, rfl⟩, rfl, rfl, rfl, ?_, hstep, hc', hres⟩
  exact (no_waiter_stranded byteSum [] (newInMemoryStore [] NthIndex) rfl (overlapping.take 6)
    rfl).2.1 rfl 1

/-! ## What is covered -/

section Covered

variable {tr acts : List Action} {seq k target : Nat} {pc : Pc}

/-- The flush of goroutine `k` in flight started when the first `target` records of the
    session were written. -/
def Started (tr : List Action) (k target : Nat) : Prop :=
  ∃ before during, tr = before ++ .syncStarted k :: during ∧
    (∀ a ∈ during, a.isSyncOf k = false) ∧
    (writes before).map PendingCheckpoint.seq = List.range' 1 target

/-- The start of the flush in flight is the last start. -/
theorem split_unique {before before' during during' : List Action}
    (h : before ++ .syncStarted k :: during = before' ++ .syncStarted k :: during')
    (hd : ∀ a ∈ during, a.isSyncOf k = false) (hd' : ∀ a ∈ during', a.isSyncOf k = false) :
    before = before' := by
  -- otherwise one of the two starts lies behind the other
  have hnot : ∀ {xs ys zs : List Action}, (∀ a ∈ ys, a.isSyncOf k = false) →
      .syncStarted k :: ys = xs ++ .syncStarted k :: zs → xs = [] := by
    intro xs ys zs hys heq
    cases xs with
    | nil => rfl
    | cons x xs =>
      rw [List.cons_append, List.cons.injEq] at heq
      have hmem : Action.syncStarted k ∈ ys := heq.2 ▸ List.mem_append_right _ List.mem_cons_self
      have := hys _ hmem
      simp [Action.isSyncOf] at this
  -- one of the two prefixes is the longer one
  rcases List.append_eq_append_iff.mp h with ⟨xs, rfl, hxs⟩ | ⟨xs, rfl, hxs⟩
  · rw [hnot hd hxs, List.append_nil]
  · rw [hnot hd' hxs, List.append_nil]

theorem Started.append (h : Started tr k target) (hacts : ∀ a ∈ acts, a.isSyncOf k = false) :
    Started (tr ++ acts) k target :=
  flight_append h hacts

/-- Only the return of a flush covers more. -/
theorem covered_concat {a : Action} (h : Covered (tr ++ [a]) seq) :
    Covered tr seq ∨ ∃ k before during, a = .syncReturned k true ∧
      tr = before ++ .syncStarted k :: during ∧ (∀ a ∈ during, a.isSyncOf k = false) ∧
      seq ∈ (writes before).map PendingCheckpoint.seq := by
  obtain ⟨before, k, during, after, heq, hduring, hseq⟩ := h
  -- the return is the last action, or an earlier one
  rcases List.eq_nil_or_concat after with rfl | ⟨after, b, rfl⟩
  · rw [← List.cons_append, ← List.append_assoc] at heq
    obtain ⟨rfl, ha⟩ := List.append_inj' heq rfl
    exact Or.inr ⟨k, before, during, List.singleton_inj.mp ha, rfl, hduring, hseq⟩
  · have heq' : tr ++ [a] =
        (before ++ .syncStarted k :: (during ++ .syncReturned k true :: after)) ++ [b] := by
      rw [heq]
      simp
    exact Or.inl ⟨before, k, during, after, (List.append_inj' heq' rfl).1, hduring, hseq⟩

theorem covered_append_iff (hacts : ∀ a ∈ acts, ∀ k, a ≠ .syncReturned k true) :
    Covered (tr ++ acts) seq ↔ Covered tr seq := by
  refine ⟨fun h => ?_, fun h => h.append acts⟩
  -- one action after the other, from the end
  induction acts using List.reverseRecOn with
  | nil => rwa [List.append_nil] at h
  | append_singleton acts a ih =>
    rw [← List.append_assoc] at h
    rcases covered_concat h with h | ⟨k, _, _, ha, _⟩
    · exact ih (fun b hb => hacts b (List.mem_append_left _ hb)) h
    · exact absurd ha (hacts a (by simp) k)

/-- When the flush in flight returns nil, the records it found are covered and no others. -/
theorem Started.covered_iff (h : Started tr k target) :
    Covered (tr ++ [.syncReturned k true]) seq ↔ Covered tr seq ∨ (0 < seq ∧ seq ≤ target) := by
  obtain ⟨before, during, htr, hduring, hseqs⟩ := h
  -- the records written before the flush started are those up to its target
  have hmem : seq ∈ (writes before).map PendingCheckpoint.seq ↔ 0 < seq ∧ seq ≤ target := by
    rw [hseqs, List.mem_range'_1]
    omega
  constructor
  · intro hcov
    rcases covered_concat hcov with hold | ⟨j, before', during', ha, htr', hduring', hseq⟩
    · exact Or.inl hold
    · obtain rfl : k = j := (Action.syncReturned.inj ha).1
      rw [split_unique (htr.symm.trans htr') hduring hduring'] at hmem
      exact Or.inr (hmem.mp hseq)
  · rintro (hold | hnew)
    · exact hold.append _
    · exact ⟨before, k, during, [], by rw [htr]; simp, hduring, hmem.mpr hnew⟩

end Covered

/-- What the trace says of a goroutine's position, exactly. -/
def PcLed (tr : List Action) (k : Nat) : Pc → Prop
  | .flushing target _ => Started tr k target
  | _ => True

theorem pcLed_local : LocalPc PcLed where
  append {tr acts k pc} h hacts := by
    cases pc with
    | flushing => exact Started.append h hacts
    | ready | waiting | flushed | returned => trivial
  idle {tr k pc} h := by
    cases pc with
    | flushing => cases h
    | ready | waiting | flushed | returned => trivial

/-- An error is returned only for a record that is not covered by then. -/
def Blamed (tr : List Action) : Action → Prop
  | .committed seq false => ¬Covered tr seq
  | _ => True

/-- A flush that returned nil and is not yet accounted for has covered `seq`. -/
def FlushedTo (commits : List Commit) (seq : Nat) : Prop :=
  ∃ c ∈ commits, ∃ target, c.pc = .flushed target true ∧ seq ≤ target

/-- Writer, goroutines and trace agree on what is covered. -/
structure CoverInv (w : WALWriter) (commits : List Commit) (tr : List Action) : Prop where
  flush : FlushInv w commits
  seqs : (writes tr).map PendingCheckpoint.seq = List.range' 1 w.writeSeq
  goroutines : ∀ k c, commits[k]? = some c → PcLed tr k c.pc
  leader : ∀ c ∈ commits, c.pc.inFlush = true → w.syncedSeq < c.seq
  covered : ∀ seq, Covered tr seq ↔ 0 < seq ∧ (seq ≤ w.syncedSeq ∨ FlushedTo commits seq)
  history : ∀ i a, tr[i]? = some a → Blamed (tr.take i) a

section Steps

variable {w : WALWriter} {commits : List Commit} {tr acts : List Action} {seq k : Nat} {c : Commit}
  {pc : Pc}

theorem flushedTo_concat (hready : c.pc = .ready) :
    FlushedTo (commits ++ [c]) seq ↔ FlushedTo commits seq := by
  simp [FlushedTo, or_and_right, exists_or, hready]

/-- A goroutine that is in no flush moves on. -/
theorem flushedTo_set (hk : commits[k]? = some c) (hc : c.pc.inFlush = false)
    (hpc : pc.inFlush = false) :
    FlushedTo (commits.set k { c with pc := pc }) seq ↔ FlushedTo commits seq := by
  -- the goroutine that moved is in no flush, before or after
  constructor
  · rintro ⟨d, hd, target, hflushed, hle⟩
    rcases List.mem_or_eq_of_mem_set hd with hd | rfl
    · exact ⟨d, hd, target, hflushed, hle⟩
    · simp only at hflushed
      rw [hflushed] at hpc
      cases hpc
  · rintro ⟨d, hd, target, hflushed, hle⟩
    refine ⟨d, mem_set_of_ne hk hd ?_, target, hflushed, hle⟩
    rintro rfl
    rw [hflushed] at hc
    cases hc

/-- The leader's position says what its flush has covered. -/
theorem FlushInv.flushedTo_iff (h : FlushInv w commits) (hk : commits[k]? = some c)
    (hin : c.pc.inFlush = true) :
    FlushedTo commits seq ↔ ∃ target, c.pc = .flushed target true ∧ seq ≤ target := by
  constructor
  · rintro ⟨d, hd, target, hflushed, hle⟩
    obtain rfl := h.unique hk hin hd (by rw [hflushed]; rfl)
    exact ⟨target, hflushed, hle⟩
  · rintro ⟨target, hflushed, hle⟩
    exact ⟨c, List.mem_of_getElem? hk, target, hflushed, hle⟩

theorem FlushInv.not_flushedTo (h : FlushInv w commits) (hidle : w.syncing = false) :
    ¬FlushedTo commits seq := by
  rintro ⟨d, hd, target, hflushed, -⟩
  have := h.syncing hd (by rw [hflushed]; rfl)
  rw [hidle] at this
  cases this

/-- The return of a flush is an action of its leader. -/
theorem ne_syncReturned {a : Action} (h : ∀ j, a.isSyncOf j = false) (k : Nat) :
    a ≠ .syncReturned k true := by
  rintro rfl
  have := h k
  simp [Action.isSyncOf] at this

/-- A goroutine outside every flush acts and moves on. -/
theorem CoverInv.moved (h : CoverInv w commits tr) (hk : commits[k]? = some c)
    (hrun : c.pc.Runnable) (hpc : pc.inFlush = false)
    (hwait : pc = .waiting false → w.syncing = true)
    (hquiet : ∀ a ∈ acts, ∀ j, a.isSyncOf j = false) (hw : writes acts = [])
    (hhist : ∀ i a, acts[i]? = some a → Blamed (tr ++ acts.take i) a) :
    CoverInv w (commits.set k { c with pc := pc }) (tr ++ acts) where
  flush := h.flush.moved hk (by rw [hpc, hrun.inFlush]) hwait
  seqs := by rw [writes_append, hw, List.append_nil, h.seqs]
  goroutines := pcLed_local.set h.goroutines (fun a ha j _ => hquiet a ha j) (pcLed_local.idle hpc)
  leader d hd hin := by
    -- the goroutine that moved leads no flush
    rcases List.mem_or_eq_of_mem_set hd with hd | rfl
    · exact h.leader d hd hin
    · simp only at hin
      rw [hpc] at hin
      cases hin
  covered seq := by
    rw [covered_append_iff fun a ha => ne_syncReturned (hquiet a ha),
      flushedTo_set hk hrun.inFlush hpc, h.covered]
  history := history_append h.history hhist

/-- A goroutine calls `Commit`, possibly after it wrote a record. -/
theorem CoverInv.called (h : CoverInv w commits tr) (hready : c.pc = .ready) {w' : WALWriter}
    (hflush : FlushInv w' (commits ++ [c])) (hsynced : w'.syncedSeq = w.syncedSeq)
    (hseqs : (writes (tr ++ acts)).map PendingCheckpoint.seq = List.range' 1 w'.writeSeq)
    (hquiet : ∀ a ∈ acts, ∀ j, a.isSyncOf j = false)
    (hhist : ∀ i a, acts[i]? = some a → Blamed (tr ++ acts.take i) a) :
    CoverInv w' (commits ++ [c]) (tr ++ acts) where
  flush := hflush
  seqs := hseqs
  goroutines := pcLed_local.concat
    (fun j d hj => pcLed_local.append (h.goroutines j d hj) fun a ha => hquiet a ha j) hready
  leader d hd hin := by
    rw [hsynced]
    rcases List.mem_append.mp hd with hd | hd
    · exact h.leader d hd hin
    · rw [List.mem_singleton.mp hd, hready] at hin
      cases hin
  covered seq := by
    rw [covered_append_iff fun a ha => ne_syncReturned (hquiet a ha), flushedTo_concat hready,
      hsynced, h.covered]
  history := history_append h.history hhist

/-- A flush starts. -/
theorem CoverInv.led (h : CoverInv w commits tr) (hk : commits[k]? = some c)
    (hrun : c.pc.Runnable) (herr : w.syncErr = false) (hseq : w.syncedSeq < c.seq)
    (hidle : w.syncing = false) (covered : Nat) :
    CoverInv { w with syncing := true }
      (commits.set k { c with pc := .flushing w.writeSeq covered }) (tr ++ [.syncStarted k]) where
  flush := h.flush.led hk hrun hidle herr _ _
  seqs := by
    rw [writes_append]
    exact (List.append_nil _).symm ▸ h.seqs
  goroutines := pcLed_local.set h.goroutines
    (fun a ha j hj => by rw [List.mem_singleton.mp ha]; exact decide_eq_false (Ne.symm hj))
    ⟨tr, [], rfl, by simp, h.seqs⟩
  leader d hd hin := by
    rcases List.mem_or_eq_of_mem_set hd with hd | rfl
    · exact h.leader d hd hin
    · exact hseq
  covered seq := by
    -- the flush has just started and has covered nothing
    have hled := h.flush.led hk hrun hidle herr w.writeSeq covered
    have hlen := (List.getElem?_eq_some_iff.mp hk).1
    rw [covered_append_iff (by simp), h.covered,
      hled.flushedTo_iff (List.getElem?_set_self hlen) rfl]
    have hnone : ¬FlushedTo commits seq := h.flush.not_flushedTo hidle
    simp [hnone]
  history := history_append h.history (history_singleton trivial)

/-- `Sync` returned. -/
theorem CoverInv.syncReturned (h : CoverInv w commits tr) (hk : commits[k]? = some c)
    {target covered : Nat} (hpc : c.pc = .flushing target covered) (ok : Bool) :
    CoverInv w (commits.set k { c with pc := .flushed target ok })
      (tr ++ [.syncReturned k ok]) := by
  have hin : c.pc.inFlush = true := by rw [hpc]; rfl
  have hflush : FlushInv w (commits.set k { c with pc := .flushed target ok }) :=
    h.flush.moved hk (by rw [hin]; rfl) nofun
  have hlen := (List.getElem?_eq_some_iff.mp hk).1
  have hstarted := h.goroutines k c hk
  rw [hpc] at hstarted
  -- before, the flush in flight had covered nothing yet
  have hnone : ∀ seq, ¬FlushedTo commits seq := fun seq => by
    rw [h.flush.flushedTo_iff hk hin, hpc]
    simp
  refine
    { flush := hflush
      seqs := by rw [writes_append]; exact (List.append_nil _).symm ▸ h.seqs
      goroutines := pcLed_local.set h.goroutines
        (fun a ha j hj => by rw [List.mem_singleton.mp ha]; exact decide_eq_false (Ne.symm hj))
        trivial
      leader := fun d hd hd' => ?_
      covered := fun seq => ?_
      history := history_append h.history (history_singleton trivial) }
  · rcases List.mem_or_eq_of_mem_set hd with hd | rfl
    · exact h.leader d hd hd'
    · exact h.leader c (List.mem_of_getElem? hk) hin
  · rw [hflush.flushedTo_iff (List.getElem?_set_self hlen) rfl]
    -- a sync that succeeded covers all up to the target, one that failed nothing
    cases ok with
    | true =>
      rw [Started.covered_iff hstarted, h.covered]
      simp only [hnone, or_false, Pc.flushed.injEq, and_true, exists_eq_left', ← and_or_left]
    | false =>
      rw [covered_append_iff (by simp), h.covered]
      simp [hnone]

/-- The leader has the lock again and accounts for its flush. -/
theorem CoverInv.ended (h : CoverInv w commits tr) (hk : commits[k]? = some c) {target : Nat}
    {ok : Bool} (hflushed : c.pc = .flushed target ok) (hpc : pc.inFlush = false)
    {w' : WALWriter} (hidle : w'.syncing = false) (hwrite : w'.writeSeq = w.writeSeq)
    (hsynced : w'.syncedSeq = if ok then max w.syncedSeq target else w.syncedSeq)
    (hquiet : ∀ a ∈ acts, ∀ j, a.isSyncOf j = false) (hw : writes acts = [])
    (hhist : ∀ i a, acts[i]? = some a → Blamed (tr ++ acts.take i) a) :
    CoverInv w' (broadcast (commits.set k { c with pc := pc })) (tr ++ acts) := by
  have hin : c.pc.inFlush = true := by rw [hflushed]; rfl
  have hflush : FlushInv w' (broadcast (commits.set k { c with pc := pc })) :=
    h.flush.ended hk hin hpc hidle
  refine
    { flush := hflush
      seqs := by rw [writes_append, hw, List.append_nil, hwrite, h.seqs]
      goroutines := pcLed_local.broadcast (pcLed_local.set h.goroutines
        (fun a ha j _ => hquiet a ha j) (pcLed_local.idle hpc))
      leader := fun d hd hin => ?_
      covered := fun seq => ?_
      history := history_append h.history hhist }
  · -- nobody leads a flush now
    have := hflush.syncing hd hin
    rw [hidle] at this
    cases this
  · have hnone : ¬FlushedTo (broadcast (commits.set k { c with pc := pc })) seq :=
      hflush.not_flushedTo hidle
    rw [covered_append_iff fun a ha => ne_syncReturned (hquiet a ha), h.covered,
      h.flush.flushedTo_iff hk hin, hflushed, hsynced]
    -- what a successful flush covered is in `syncedSeq` now
    cases ok with
    | true =>
      simp only [hnone, Pc.flushed.injEq, and_true, exists_eq_left', or_false, if_true]
      omega
    | false => simp [hnone]

/-- A goroutine runs a pass after a flush failed only if no earlier flush has covered its
    record. -/
def NotLate (s : TracedLog) : WriterEvent → Prop
  | .log (.pass k) => ∀ c ∈ s.log.commits[k]?, s.log.writer.syncErr = true → 0 < c.seq →
      s.log.writer.syncedSeq < c.seq
  | _ => True

instance (s : TracedLog) : (e : WriterEvent) → Decidable (NotLate s e)
  | .log (.pass k) => inferInstanceAs (Decidable (∀ c ∈ s.log.commits[k]?,
      s.log.writer.syncErr = true → 0 < c.seq → s.log.writer.syncedSeq < c.seq))
  | .log (.reserve ..) | .log (.syncReturn ..) | .log (.relock ..) | .commit _ =>
    inferInstanceAs (Decidable True)

/-- No flush is in flight once one has failed. -/
theorem FlushInv.idle (h : FlushInv w commits) (herr : w.syncErr = true) : w.syncing = false := by
  by_contra hnot
  rw [h.alive (by simpa using hnot)] at herr
  cases herr

/-- What a pass that finds the error of a failed flush knows of its record. -/
theorem CoverInv.covered_of_syncErr (h : CoverInv w commits tr) (herr : w.syncErr = true)
    (seq : Nat) : Covered tr seq ↔ 0 < seq ∧ seq ≤ w.syncedSeq := by
  have hnone : ¬FlushedTo commits seq := h.flush.not_flushedTo (h.flush.idle herr)
  rw [h.covered]
  simp [hnone]

/-- **Step lemma.** -/
theorem CoverInv.step {cs : Checksum} {s s' : TracedLog} {e : WriterEvent}
    (h : CoverInv s.log.writer s.log.commits s.trace) (he : NotLate s e)
    (hstep : TracedStep cs s e s') : CoverInv s'.log.writer s'.log.commits s'.trace := by
  have hflush := h.flush.step hstep
  have hone : ∀ {a : Action}, (∀ j, a.isSyncOf j = false) → ∀ b ∈ [a], ∀ j, b.isSyncOf j = false :=
    fun ha b hb j => by rw [List.mem_singleton.mp hb, ha]
  cases hstep with
  | called seq =>
    have hcalled : CoverInv s.log.writer (s.log.commits ++ [⟨0, [], seq, .ready⟩])
        (s.trace ++ []) :=
      h.called rfl hflush rfl (by rw [List.append_nil]; exact h.seqs) (by simp) (by simp)
    rwa [List.append_nil] at hcalled
  | refused => exact h
  | writeFailed => exact { h with flush := hflush }
  | reserved data =>
    refine h.called rfl hflush rfl ?_ (hone fun _ => rfl) (history_singleton trivial)
    rw [writes_append, List.map_append, h.seqs, WALWriter.reserved, List.range'_concat,
      Nat.one_mul, Nat.add_comm 1]
    rfl
  | failed k c hk hpc herr =>
    refine h.moved hk hpc rfl Pc.noConfusion (hone fun _ => rfl) rfl (history_singleton ?_)
    -- with the error set only what is synced is covered, and the pass is not late for it
    rw [Blamed, h.covered_of_syncErr herr]
    rintro ⟨hpos, hle⟩
    exact absurd (he c hk herr hpos) (Nat.not_lt.mpr hle)
  | done k c hk hpc =>
    exact h.moved hk hpc rfl Pc.noConfusion (hone fun _ => rfl) rfl (history_singleton trivial)
  | waited k c hk hpc hsync =>
    have hmoved : CoverInv s.log.writer (s.log.commits.set k { c with pc := .waiting false })
        (s.trace ++ []) :=
      h.moved hk hpc rfl (fun _ => hsync) (by simp) rfl (by simp)
    rwa [List.append_nil] at hmoved
  | led k c hk hpc herr hseq hidle => exact h.led hk hpc herr hseq hidle _
  | syncReturned k c target covered ok hk hpc => exact h.syncReturned hk hpc ok
  | drained k c target idx hk hpc =>
    -- the drain does nothing but call `Checkpoint`
    have hcalls : ∀ a ∈ checkpointActions target idx s.log.writer.pending, ∃ x y o,
        a = .checkpointed x y o := fun a ha => by
      obtain ⟨p, _, rfl⟩ := List.mem_map.mp ha
      exact ⟨_, _, _, rfl⟩
    refine h.ended hk hpc rfl rfl rfl ?_ (fun a ha j => ?_) (writes_checkpointActions _ _ _)
      fun i a ha => ?_
    · rw [WALWriter.finishSync_true]
      rfl
    · obtain ⟨_, _, _, rfl⟩ := hcalls a ha
      rfl
    · obtain ⟨_, _, _, rfl⟩ := hcalls a (List.mem_of_getElem? ha)
      trivial
  | broke k c target idx hk hpc =>
    refine h.ended hk hpc rfl rfl rfl rfl (hone fun _ => rfl) rfl (history_singleton ?_)
    -- its own flush failed, and no other covered its record before it led
    have hin : c.pc.inFlush = true := by rw [hpc]; rfl
    have hlt := h.leader c (List.mem_of_getElem? hk) hin
    rw [Blamed, h.covered, h.flush.flushedTo_iff hk hin, hpc]
    simp [Nat.not_le.mpr hlt]

/-- A late pass reports a durable record as failed. -/
theorem CoverInv.lose {cs : Checksum} {s s' : TracedLog} {e : WriterEvent}
    (h : CoverInv s.log.writer s.log.commits s.trace) (he : ¬NotLate s e)
    (hstep : TracedStep cs s e s') :
    ∃ i seq, s'.trace[i]? = some (.committed seq false) ∧ Covered (s'.trace.take i) seq := by
  cases e with
  | commit seq => exact absurd trivial he
  | log e =>
    cases e with
    | pass k =>
      -- only a pass can be late
      simp only [NotLate, not_forall, Nat.not_lt] at he
      obtain ⟨c, hc, herr, hpos, hle⟩ := he
      cases hstep with
      | failed _ d hd =>
        obtain rfl := Option.some.inj (hd.symm.trans hc)
        refine ⟨s.trace.length, d.seq, by simp, ?_⟩
        rw [List.take_left]
        exact (h.covered_of_syncErr herr d.seq).mpr ⟨hpos, hle⟩
      -- with the error set a pass can only fail
      | done _ _ _ _ hok =>
        rw [herr] at hok
        cases hok
      | waited _ _ _ _ hsync =>
        rw [h.flush.idle herr] at hsync
        cases hsync
      | led _ _ _ _ hok =>
        rw [herr] at hok
        cases hok
    | reserve | syncReturn | relock => exact absurd trivial he

end Steps

theorem CoverInv.opened {cs : Checksum} {file : Bytes} {store : InMemoryStore} {w : WALWriter}
    (h : newWalWriter cs file store = .ok w) : CoverInv w [] [] := by
  obtain ⟨hidle, -, hwrite, hsynced⟩ := newWalWriter_idle h
  exact
    { flush := FlushInv.opened h
      seqs := by rw [hwrite]; rfl
      goroutines := by simp
      leader := by simp
      covered := fun seq => by
        -- nothing is written yet, so nothing is covered
        have hnone : ¬FlushedTo [] seq := (FlushInv.opened h).not_flushedTo hidle
        have hnot : ¬Covered [] seq := fun hc => by simpa [writes] using hc.mem_writes
        simp only [hnot, hnone, hsynced, or_false, false_iff]
        omega
      history := by simp }

/-! ## Failed commits -/

/-- What was done is never taken back. -/
theorem TracedStep.trace_extends {cs : Checksum} {s s' : TracedLog} {e : WriterEvent}
    (h : TracedStep cs s e s') : s.trace <+: s'.trace := by
  cases h with
  | called | refused | writeFailed | waited => exact List.prefix_rfl
  | reserved | failed | done | led | syncReturned | drained | broke => exact List.prefix_append _ _

theorem run_trace_extends {cs : Checksum} {s s' : TracedLog} {es : List WriterEvent}
    (h : run (TracedLog.step cs) s es = some s') : s.trace <+: s'.trace :=
  run_invariant (I := fun t => s.trace <+: t.trace)
    (fun _ _ _ hpre _ hstep => hpre.trans (step_tracedStep hstep).trace_extends) List.prefix_rfl
    (along_of_forall (P := fun _ => True) fun _ _ => trivial) h

/-- **A durable record is reported as failed exactly by a late pass.**  In a run of goroutines
    on a writer that was just opened, `Commit` returns an error only for records that no
    successful `Sync` covered by then if and only if no goroutine whose record is covered runs
    its pass after a flush failed. -/
theorem durable_never_failed_iff (cs : Checksum) (file : Bytes) (store : InMemoryStore)
    {w : WALWriter} (hopen : newWalWriter cs file store = .ok w) (es : List WriterEvent)
    {s : TracedLog} (hrun : run (TracedLog.step cs) (TracedLog.opened w) es = some s) :
    (∀ i seq, s.trace[i]? = some (.committed seq false) → ¬Covered (s.trace.take i) seq) ↔
      Along (TracedLog.step cs) NotLate (TracedLog.opened w) es := by
  have hexact := run_property_iff (F := fun _ _ => True) (P := NotLate)
    (I := fun t => CoverInv t.log.writer t.log.commits t.trace)
    (Q := fun t => ∀ i seq, t.trace[i]? = some (.committed seq false) →
      ¬Covered (t.trace.take i) seq)
    (fun t h i seq hi => h.history i (.committed seq false) hi)
    (fun t e t' h _ he hstep => h.step he (step_tracedStep hstep))
    (fun t e t' h _ he hstep hall => by
      obtain ⟨i, seq, hi, hcov⟩ := h.lose he (step_tracedStep hstep)
      exact hall i seq hi hcov)
    (CoverInv.opened hopen) (along_of_forall (P := fun _ => True) fun _ _ => trivial) hrun
  rw [← hexact]
  refine ⟨fun hall es₁ s₁ hpre hrun₁ i seq hi => ?_, fun hall => hall es s List.prefix_rfl hrun⟩
  -- what was done up to an earlier moment is the beginning of what was done
  obtain ⟨fs, rfl⟩ := hpre
  obtain ⟨t, ht, hrest⟩ := run_append_eq_some hrun
  obtain rfl := Option.some.inj (ht.symm.trans hrun₁)
  obtain ⟨acts, hacts⟩ := run_trace_extends hrest
  have hlt := (List.getElem?_eq_some_iff.mp hi).1
  have hfinal := hall i seq (by rw [← hacts, List.getElem?_append_left hlt, hi])
  rwa [← hacts, List.take_append_of_le_length (Nat.le_of_lt hlt)] at hfinal

/-- One record is committed, then the flush of another fails. -/
def failsLast : List WriterEvent :=
  [.log (.reserve [1] .ok), .log (.pass 0), .log (.syncReturn 0 true),
    .log (.relock 0 fun _ => .ok), .log (.pass 0), .log (.reserve [2] .ok), .log (.pass 1),
    .log (.syncReturn 1 false), .log (.relock 1 fun _ => .ok)]

/-- The error is returned for a record that is not covered. -/
theorem durable_never_failed_failsLast : ∃ w s,
    newWalWriter byteSum [] (newInMemoryStore [] NthIndex) = .ok w ∧
      run (TracedLog.step byteSum) (TracedLog.opened w) failsLast = some s ∧
      s.trace[8]? = some (.committed 2 false) ∧ ¬Covered (s.trace.take 8) 2 := by
  refine ⟨_, _, rfl, rfl, rfl, ?_⟩
  exact (durable_never_failed_iff byteSum [] (newInMemoryStore [] NthIndex) rfl failsLast rfl).mpr
    (by decide) 8 2 rfl

/-- Goroutines 0 and 1 reserve; 0 leads a flush that covers both records while 1 waits.  Before
    1 has the lock again, goroutine 2 reserves, leads the next flush, and that flush fails. -/
def lateWake : List WriterEvent :=
  [.log (.reserve [1] .ok), .log (.reserve [2] .ok), .log (.pass 0), .log (.pass 1),
    .log (.syncReturn 0 true), .log (.relock 0 fun _ => .ok), .log (.pass 0),
    .log (.reserve [3] .ok), .log (.pass 2), .log (.syncReturn 2 false),
    .log (.relock 2 fun _ => .ok), .log (.pass 1)]

/-- `Commit` of the second record returns an error, though the flush that covers it returned
    nil before. -/
theorem durable_reported_failed_lateWake : ∃ w s,
    newWalWriter byteSum [] (newInMemoryStore [] NthIndex) = .ok w ∧
      run (TracedLog.step byteSum) (TracedLog.opened w) lateWake = some s ∧
      s.trace[11]? = some (.committed 2 false) ∧ Covered (s.trace.take 11) 2 := by
  refine ⟨_, _, rfl, rfl, rfl, [.wrote ⟨1, 0, 0⟩ [1], .wrote ⟨2, 1, 6⟩ [2]], 0, [],
    [.checkpointed 0 0 .ok, .checkpointed 1 6 .ok, .committed 1 true, .wrote ⟨3, 2, 12⟩ [3],
      .syncStarted 2, .syncReturned 2 false, .committed 3 false], rfl, by simp, by decide⟩

end EventLog.Wal
