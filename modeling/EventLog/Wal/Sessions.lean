import EventLog.Wal.Invariant
import Mathlib.Data.List.Nodup

/-!
# Closing, crashing and opening a log

The invariant of an open log across sessions: a new log has it, `Close` keeps it, and
opening what a crash left establishes it again for the records that were left.
`AckedOnce` is the second invariant: no offset is acknowledged twice.
-/

namespace EventLog.Wal

open EventLog.Lib

variable {cs : Checksum} {n₀ : Nat} {recs : List Bytes} {tail : Bytes} {cps : List Nat}
  {w w' : OpenLog}

/-! ## Sessions -/

theorem LogInv.empty (cs : Checksum) : LogInv cs 0 [] [] [] OpenLog.empty where
  file := rfl
  torn := torn_nil cs
  max_le := by simp
  bound := Nat.zero_le _
  size := rfl
  next := rfl
  seq := rfl
  synced_seq := le_rfl
  pending := rfl
  index := ⟨rfl, rfl, rfl, List.Pairwise.nil, by simp⟩
  checkpointed := by simp
  durable := fun h => absurd h (Nat.lt_irrefl 0)
  synced_le := le_rfl
  commit := by simp [OpenLog.empty]
  acked := by simp [OpenLog.empty]

/-- A log that was just opened, with `n` of its bytes known to be durable. -/
theorem LogInv.opened {s : InMemoryStore} {n : Nat} {acked : List (Nat × Bytes)}
    (hindex : Indexes cs recs cps s) (hrecs : ∀ r ∈ recs, r.length ≤ MaxRecordSize)
    (hbound : (encodeAll cs recs).length ≤ maxFileSize) (hn : n ≤ (encodeAll cs recs).length)
    (hcps : ∀ k ∈ cps, startOf cs recs (k + 1) ≤ n)
    (hacked : ∀ o d, (o, d) ∈ acked → recs[o]? = some d ∧ startOf cs recs (o + 1) ≤ n) :
    LogInv cs recs.length recs [] cps
      { writer := openedWriter cs recs s, synced := n, commits := [], acked := acked } where
  file := (List.append_nil _).symm
  torn := torn_nil cs
  max_le := hrecs
  bound := hbound
  size := rfl
  next := rfl
  seq := rfl
  synced_seq := le_rfl
  pending := rfl
  index := hindex
  checkpointed := fun k hk => ⟨hindex.lt k hk, hcps k hk⟩
  durable := fun h => absurd h (Nat.lt_irrefl 0)
  synced_le := hn
  commit := by simp
  acked := hacked

/-- `Close` keeps the invariant, whether its flush succeeds or not. -/
theorem LogInv.close (h : LogInv cs n₀ recs tail cps w) (syncOk : Bool)
    {idx : Nat → WriteOutcome} (hidx : ∀ x, (idx x).Atomic) :
    ∃ cps', LogInv cs n₀ recs tail cps' (w.close syncOk idx) := by
  unfold OpenLog.close WALWriter.close
  split_ifs with hflush
  · -- the flush covers the whole file, so the drain may go up to `writeSeq`
    have hgrown := h.setSynced h.synced_le le_rfl
    obtain ⟨cps', h'⟩ := hgrown.drained w.writer.writeSeq hidx le_rfl
      (hgrown.startOf_le_file _) w.writer.syncing
    have hmax : max w.writer.syncedSeq w.writer.writeSeq = w.writer.writeSeq :=
      Nat.max_eq_right h.synced_seq
    refine ⟨cps', { h' with
      synced_seq := le_rfl
      pending := ?_
      checkpointed := fun k hk => hmax ▸ h'.checkpointed k hk
      durable := fun _ => hgrown.startOf_le_file _ }⟩
    rw [Nat.sub_self]
    rfl
  · exact ⟨cps, h⟩

/-- **Opening after a crash**: the log file was cut at a byte `n` no shorter than the
    synced part and the index file at any byte `j`.  The log opens and holds the records
    that end inside the cut file. -/
theorem LogInv.reopen (h : LogInv cs n₀ recs tail cps w) {n : Nat} (hn : w.synced ≤ n)
    (j : Nat) :
    ∃ m w', m ≤ recs.length ∧ (∀ k, k ≤ recs.length → startOf cs recs k ≤ n → k ≤ m) ∧
      startOf cs recs m ≤ n ∧
      w.reopen cs (w.writer.file.take n) (w.writer.store.indexFile.take j) = .ok w' ∧
      w'.acked = w.acked ∧ w'.commits = [] ∧ w'.synced = min w.synced (startOf cs recs m) ∧
      LogInv cs m (recs.take m) [] (cps.take (j / indexEntryBytes)) w' := by
  -- a whole number of records survives, and the front part of the index that is left points at them
  obtain ⟨m, s, hm, hkept, hfits, hopen, hindex⟩ := newWalWriter_cut h.max_le h.torn
    h.index.ascending h.index.lt h.bound j NthIndex
    fun k hk => (h.checkpointed k hk).2.trans hn
  have hlen : (recs.take m).length = m := List.length_take_of_le hm
  rw [← h.file, ← h.index.file] at hopen
  have hreopen := OpenLog.reopen.eq_1 cs w (w.writer.file.take n)
    (w.writer.store.indexFile.take j)
  simp only [hopen] at hreopen
  refine ⟨m, _, hm, hkept, hfits, hreopen, rfl, rfl, rfl, ?_⟩
  nth_rewrite 1 [← hlen]
  refine LogInv.opened hindex (fun r hr => h.max_le r (List.mem_of_mem_take hr))
    ((startOf_le cs recs m).trans h.bound) (Nat.min_le_right _ _) (fun k hk => ?_) fun o d hod => ?_
  · -- the checkpoints that are kept point at records that are kept
    have hkm : k + 1 ≤ m := by
      have := hindex.lt k hk
      omega
    refine le_min ?_ (startOf_le _ _ _)
    rw [startOf_take hkm]
    exact (h.checkpointed k (List.mem_of_mem_take hk)).2
  · obtain ⟨hdata, hle⟩ := h.acked o d hod
    -- an acknowledged record ends inside the synced part, so it was not cut
    have hlt := (List.getElem?_eq_some_iff.mp hdata).1
    have hom := hkept (o + 1) hlt (hle.trans hn)
    refine ⟨by rwa [List.getElem?_take_of_lt hom], le_min ?_ (startOf_le _ _ _)⟩
    rwa [startOf_take hom]

/-- **Closing and opening** keeps every whole record and truncates a torn one. -/
theorem LogInv.restart (h : LogInv cs n₀ recs tail cps w) (syncOk : Bool)
    {idx : Nat → WriteOutcome} (hidx : ∀ x, (idx x).Atomic) :
    ∃ cps' w', w.restart cs syncOk idx = .ok w' ∧ w'.acked = w.acked ∧ w'.commits = [] ∧
      LogInv cs recs.length recs [] cps' w' := by
  obtain ⟨cps', hclosed⟩ := h.close syncOk hidx
  -- nothing is cut, so every record is kept
  obtain ⟨m, w', hm, hkept, -, hopen, hacked, hcommits, -, h'⟩ := hclosed.reopen
    (n := (w.close syncOk idx).writer.file.length) hclosed.synced_le
    (w.close syncOk idx).writer.store.indexFile.length
  obtain rfl : m = recs.length :=
    Nat.le_antisymm hm (hkept _ le_rfl (hclosed.startOf_le_file _))
  rw [List.take_length, List.take_length] at hopen
  rw [List.take_length] at h'
  exact ⟨_, w', hopen, hacked, hcommits, h'⟩

/-! ## Writes by one goroutine -/

/-- No flush is in flight, none has failed, and every record is durable. -/
def WALWriter.Quiet (w : WALWriter) : Prop :=
  w.syncing = false ∧ w.syncErr = false ∧ w.syncedSeq = w.writeSeq

/-- Recovery starts no flush. -/
theorem WALWriter.Quiet.recover {v v' : WALWriter} (hv : v.Quiet)
    (h : v.recover cs = .ok v') : v'.Quiet := by
  simp only [WALWriter.recover] at h
  split_ifs at h
  split at h
  · cases h
  · obtain rfl := Except.ok.inj h
    exact hv

/-- A log that was just opened is quiet. -/
theorem reopen_quiet {file indexFile : Bytes} (h : w.reopen cs file indexFile = .ok w') :
    w'.writer.Quiet := by
  rw [OpenLog.reopen] at h
  split at h
  · cases h
  · rename_i v hv
    obtain rfl := Except.ok.inj h
    exact WALWriter.Quiet.recover ⟨rfl, rfl, rfl⟩ hv

/-- The outcomes of `Write` when no other goroutine runs and every write and fsync that
    the file size allows succeeds. -/
inductive Written (cs : Checksum) (n₀ : Nat) (recs : List Bytes) (w : OpenLog) (data : Bytes) :
    OpenLog × Except WriteError Nat → Prop where
  | tooLarge : MaxRecordSize < data.length →
      Written cs n₀ recs w data (w, .error (.reserve (.tooLarge data.length MaxRecordSize)))
  /-- The file would pass the largest file size. -/
  | full : data.length ≤ MaxRecordSize →
      maxFileSize < w.writer.file.length + (encode cs data).length →
      Written cs n₀ recs w data (w, .error (.reserve .write))
  | written (cps' w') : data.length ≤ MaxRecordSize → LogInv cs n₀ (recs ++ [data]) [] cps' w' →
      w'.writer.Quiet → w'.commits = [] → w'.acked = w.acked →
      Written cs n₀ recs w data (w', .ok recs.length)

/-- The goroutines inside `Commit` are not part of what the log holds. -/
theorem LogInv.dropCommits (h : LogInv cs n₀ recs tail cps w) :
    LogInv cs n₀ recs tail cps { w with commits := [] } :=
  { h with commit := fun c hc => by cases hc }

/-- **Run lemma of `commitLocked`** for one goroutine: the first pass leads a flush of
    everything appended so far, the second finds the record durable. -/
theorem commitLoop_alone (w : OpenLog) (seq : Nat) (idx : Nat → WriteOutcome)
    (hsyncing : w.writer.syncing = false) (herr : w.writer.syncErr = false)
    (hlt : w.writer.syncedSeq < seq) (hle : seq ≤ w.writer.writeSeq) :
    OpenLog.commitLoop seq true idx 2 w =
      ({ w with
        writer := { w.writer with syncing := true }.finishSync w.writer.writeSeq true idx
        synced := w.writer.file.length }, true) := by
  -- the first pass leads, the second finds the record synced
  have hlead : w.writer.commitPass seq = .lead w.writer.writeSeq := by
    rw [WALWriter.commitPass, if_neg (by simp [herr]), if_neg (by omega),
      if_neg (by simp [hsyncing])]
  have hdone : ({ w.writer with syncing := true }.finishSync w.writer.writeSeq true
      idx).commitPass seq = .done := by
    simp only [WALWriter.finishSync_true, WALWriter.commitPass, Bool.false_eq_true, if_false,
      herr]
    exact if_pos (hle.trans (Nat.le_max_right _ _))
  rw [OpenLog.commitLoop, hlead]
  simp only [if_true]
  rw [OpenLog.commitLoop, hdone]

/-- **Specification of `Write`** for one goroutine. -/
theorem LogInv.write (h : LogInv cs n₀ recs [] cps w) (hq : w.writer.Quiet)
    (hc : w.commits = []) (data : Bytes) {idx : Nat → WriteOutcome}
    (hidx : ∀ x, (idx x).Atomic) :
    Written cs n₀ recs w data (w.write cs data .ok true idx) := by
  obtain ⟨hsyncing, herr, hsynced⟩ := hq
  obtain ⟨writer, synced, commits, acked⟩ := w
  simp only at hsyncing herr hsynced hc
  subst hc
  unfold OpenLog.write WALWriter.reserve
  -- refused, written by the goroutine alone, or no room in the file
  by_cases hlarge : data.length > MaxRecordSize
  · simp only [hlarge, if_true]
    exact .tooLarge hlarge
  by_cases hsize : writer.file.length + (encode cs data).length ≤ maxFileSize
  · simp only [hlarge, if_false, fileWrite, hsize, if_true, Bool.not_true, Bool.false_eq_true]
    have hres := (h.reserved (Nat.le_of_not_gt hlarge) hsize).dropCommits
    -- its own flush covers the record and drains the queue
    have hgrown := hres.setSynced hres.synced_le le_rfl
    obtain ⟨cps', hdrained⟩ := hgrown.drained (writer.writeSeq + 1) hidx le_rfl
      (hgrown.startOf_le_file _) false
    have hcommit := commitLoop_alone ⟨writer.reserved cs data, synced, [], acked⟩
      (writer.writeSeq + 1) idx hsyncing herr (by simp only [WALWriter.reserved]; omega) le_rfl
    have hmax : max writer.syncedSeq (writer.writeSeq + 1) = writer.writeSeq + 1 :=
      Nat.max_eq_right (by omega)
    have hnext : writer.nextOffset = recs.length := h.next
    simp only [WALWriter.reserved, WALWriter.finishSync_true, hmax] at hcommit hdrained
    rw [hnext] at hdrained
    rw [hcommit, hnext]
    exact .written cps' _ (Nat.le_of_not_gt hlarge) hdrained ⟨rfl, herr, rfl⟩ rfl rfl
  · simp only [hlarge, if_false, fileWrite, hsize, Bool.not_false, if_true]
    exact .full (Nat.le_of_not_gt hlarge) (Nat.lt_of_not_le hsize)

/-! ## No offset twice -/

/-- Offsets are acknowledged at most once: goroutines hold different offsets, and one
    that has not returned holds an offset nobody was told about. -/
structure AckedOnce (w : OpenLog) : Prop where
  commits : (w.commits.map Commit.offset).Nodup
  acked : (w.acked.map Prod.fst).Nodup
  fresh : ∀ c ∈ w.commits, c.pc ≠ .returned true → c.offset ∉ w.acked.map Prod.fst

theorem AckedOnce.empty : AckedOnce OpenLog.empty :=
  ⟨List.nodup_nil, List.nodup_nil, by simp [OpenLog.empty]⟩

/-- Moving one goroutine to another position. -/
theorem AckedOnce.setPc (h : AckedOnce w) {k : Nat} {c : Commit}
    (hk : w.commits[k]? = some c) (pc : Pc) (hc : pc ≠ .returned true → c.pc ≠ .returned true) :
    AckedOnce (w.setPc k c pc) where
  commits := by
    -- the offsets of the goroutines do not change
    have hset : (w.commits.set k { c with pc := pc }).map Commit.offset =
        w.commits.map Commit.offset := by
      obtain ⟨hlt, rfl⟩ := List.getElem?_eq_some_iff.mp hk
      rw [List.map_set, ← List.getElem_map Commit.offset (h := by simpa using hlt),
        List.set_getElem_self]
    simpa only [OpenLog.setPc, hset] using h.commits
  acked := h.acked
  fresh := fun c' hc' hpc => by
    rcases List.mem_or_eq_of_mem_set hc' with hc' | rfl
    · exact h.fresh c' hc' hpc
    · exact h.fresh c (List.mem_of_getElem? hk) (hc hpc)

theorem AckedOnce.broadcast (h : AckedOnce w) :
    AckedOnce { w with commits := broadcast w.commits } where
  commits := by
    have hmap : (EventLog.Wal.broadcast w.commits).map Commit.offset =
        w.commits.map Commit.offset := by
      rw [EventLog.Wal.broadcast, List.map_map]
      refine List.map_congr_left fun c _ => ?_
      simp only [Function.comp_apply]
      split <;> rfl
    simpa only [hmap] using h.commits
  acked := h.acked
  fresh := fun c hc hpc => by
    obtain ⟨c', hc', hoff, -, -, hsame⟩ := mem_broadcast hc
    rw [hoff]
    refine h.fresh c' hc' fun hret => ?_
    -- a goroutine that was woken had not returned
    rcases hsame with hsame | ⟨-, b, hwait⟩
    · exact hpc (hsame.trans hret)
    · rw [hwait] at hret
      cases hret

/-- **Step lemma**: an append takes an offset nobody holds, and only a goroutine that has
    not returned is acknowledged. -/
theorem AckedOnce.step (h : AckedOnce w) (hi : LogInv cs n₀ recs tail cps w) {e : LogEvent}
    (ht : LogTransition cs w e w') : AckedOnce w' := by
  have hready : ∀ {c : Commit}, (c.pc = .ready ∨ c.pc = .waiting true) → c.pc ≠ .returned true := by
    rintro c (hpc | hpc) <;> rw [hpc] <;> exact Pc.noConfusion
  cases ht with
  | refused data o hd => exact h
  | writeFailed data o m hd hm hzero => exact { h with }
  | reserved data o hd hsize =>
    have hnext := hi.next
    refine ⟨?_, h.acked, fun c hc hpc => ?_⟩
    · simp only [List.map_append, List.map_cons, List.map_nil]
      refine List.Nodup.append h.commits (List.nodup_singleton _) ?_
      -- the new offset is behind all others, so nobody waits for it and nobody was answered for it
      rw [List.disjoint_singleton, List.mem_map]
      rintro ⟨c, hc, hoff⟩
      have := (List.getElem?_eq_some_iff.mp (hi.commit c hc).1).1
      omega
    · rcases List.mem_append.mp hc with hc | hc
      · exact h.fresh c hc hpc
      · obtain rfl := List.mem_singleton.mp hc
        intro hmem
        obtain ⟨⟨o, d⟩, hod, hoff⟩ := List.mem_map.mp hmem
        have := (List.getElem?_eq_some_iff.mp (hi.acked o d hod).1).1
        simp only at hoff
        omega
  | commitFailed k c hk hpc | waited k c hk hpc => exact h.setPc hk _ fun _ => hready hpc
  | led k c hk hpc hsync => exact { h.setPc hk _ fun _ => hready hpc with }
  | syncReturned k c target covered ok hk hpc =>
    exact { h.setPc hk _ fun _ => by rw [hpc]; exact Pc.noConfusion with }
  | relocked k c target ok idx hk hpc =>
    have hset : AckedOnce { w with writer := w.writer.finishSync target ok idx } := { h with }
    exact (hset.setPc hk _ fun _ => by rw [hpc]; exact Pc.noConfusion).broadcast
  -- one goroutine is answered, for an offset nobody else waits for
  | committed k c hk hpc hseq =>
    have hc := List.mem_of_getElem? hk
    have hset := h.setPc hk (.returned true) fun h => absurd rfl h
    have hnew := h.fresh c hc (hready hpc)
    refine ⟨hset.commits, ?_, fun c' hc' hpc' => ?_⟩
    · simp only [List.map_append, List.map_cons, List.map_nil]
      refine List.Nodup.append h.acked (List.nodup_singleton _) ?_
      rwa [List.disjoint_singleton]
    · -- a goroutine at the acknowledged offset is the one that returned
      have hmem : { c with pc := .returned true } ∈
          w.commits.set k { c with pc := .returned true } :=
        List.mem_set (List.getElem?_eq_some_iff.mp hk).1 _
      have hne : c'.offset ≠ c.offset := fun hoff =>
        hpc' (congrArg Commit.pc (List.inj_on_of_nodup_map hset.commits hc' hmem hoff))
      simp only [List.map_append, List.map_cons, List.map_nil, List.mem_append,
        List.mem_singleton, not_or]
      exact ⟨hset.fresh c' hc' hpc', hne⟩

end EventLog.Wal
