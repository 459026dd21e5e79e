import EventLog.Wal.Transitions
import Mathlib.Order.Basic

/-!
# The invariant of an open log

The file holds whole records, possibly followed by a torn one; sequence numbers count
the records of the session; the pending list holds exactly the records whose fsync is
still missing; and every checkpoint and every acknowledged record lies inside the part
of the file that a `Sync` has covered.
-/

namespace EventLog.Wal

open EventLog.Lib

/-! ## Pending checkpoints -/

/-- The pending checkpoints of the `m` records from session number `lo` on; the session
    started with `n₀` records. -/
def pendingOf (cs : Checksum) (recs : List Bytes) (n₀ lo m : Nat) : List PendingCheckpoint :=
  (List.range' lo m).map fun i => ⟨i + 1, n₀ + i, startOf cs recs (n₀ + i)⟩

theorem pendingOf_succ (cs : Checksum) (recs : List Bytes) (n₀ lo m : Nat) :
    pendingOf cs recs n₀ lo (m + 1) =
      ⟨lo + 1, n₀ + lo, startOf cs recs (n₀ + lo)⟩ :: pendingOf cs recs n₀ (lo + 1) m := by
  rw [pendingOf, List.range'_succ, List.map_cons]
  rfl

theorem pendingOf_concat (cs : Checksum) (recs : List Bytes) (n₀ lo m : Nat) :
    pendingOf cs recs n₀ lo (m + 1) =
      pendingOf cs recs n₀ lo m ++
        [⟨lo + m + 1, n₀ + (lo + m), startOf cs recs (n₀ + (lo + m))⟩] := by
  rw [pendingOf, List.range'_concat, List.map_append, Nat.one_mul]
  rfl

/-- Appending records leaves the pending checkpoints of earlier ones. -/
theorem pendingOf_append {cs : Checksum} {recs : List Bytes} {n₀ lo m : Nat}
    (recs' : List Bytes) (h : n₀ + (lo + m) ≤ recs.length) :
    pendingOf cs (recs ++ recs') n₀ lo m = pendingOf cs recs n₀ lo m := by
  refine List.map_congr_left fun i hi => ?_
  have := (List.mem_range'_1.mp hi).2
  rw [startOf_append _ (by omega)]

/-- **Specification of the drain loop**: the pending records up to `target` are handed to
    `Checkpoint` in order, the rest stays pending. -/
theorem drainLoop_spec {cs : Checksum} {recs : List Bytes} (n₀ lo m target : Nat)
    {cps : List Nat} {s : InMemoryStore} {idx : Nat → WriteOutcome} (hidx : ∀ x, (idx x).Atomic)
    (hs : Indexes cs recs cps s) (hcps : ∀ k ∈ cps, k < n₀ + lo)
    (hlen : n₀ + (lo + m) ≤ recs.length) (htarget : target ≤ lo + m) :
    ∃ cps', Indexes cs recs cps' (drainLoop target idx s (pendingOf cs recs n₀ lo m)).1 ∧
      (drainLoop target idx s (pendingOf cs recs n₀ lo m)).2 =
        pendingOf cs recs n₀ (max lo target) (lo + m - max lo target) ∧
      ∀ k ∈ cps', k ∈ cps ∨ k < n₀ + target := by
  induction m generalizing lo cps s with
  | zero =>
    have hmax : max lo target = lo := by omega
    rw [hmax, Nat.add_zero, Nat.sub_self]
    exact ⟨cps, hs, rfl, fun k hk => Or.inl hk⟩
  | succ m ih =>
    rw [pendingOf_succ, drainLoop]
    -- the first pending record is drained, or the loop stops at it
    by_cases hle : lo + 1 ≤ target
    · simp only [if_pos hle]
      obtain ⟨cps₁, hs₁, hcases⟩ := hs.checkpoint (hidx (n₀ + lo)) hcps (by omega)
      -- `Checkpoint` writes an entry for this record or none
      have hcps₁ : ∀ k ∈ cps₁, k ∈ cps ∨ k = n₀ + lo := by
        rcases hcases with rfl | rfl
        · exact fun k hk => Or.inl hk
        · exact fun k hk => (List.mem_append.mp hk).imp id List.mem_singleton.mp
      obtain ⟨cps', hs', hrest, hnew⟩ := ih (lo + 1) hs₁
        (fun k hk => by
          rcases hcps₁ k hk with hk | rfl
          · have := hcps k hk
            omega
          · omega) (by omega) (by omega)
      refine ⟨cps', hs', ?_, fun k hk => ?_⟩
      · have h1 : max (lo + 1) target = max lo target := by omega
        rw [hrest, h1, Nat.add_assoc, Nat.add_comm 1]
      · rcases hnew k hk with hk | hk
        · rcases hcps₁ k hk with hk | rfl
          · exact Or.inl hk
          · exact Or.inr (by omega)
        · exact Or.inr hk
    · simp only [if_neg hle]
      have hmax : max lo target = lo := by omega
      rw [hmax, Nat.add_sub_cancel_left, pendingOf_succ]
      exact ⟨cps, hs, rfl, fun k hk => Or.inl hk⟩

/-! ## The invariant -/

/-- What a goroutine's position says: a flush covers everything it will mark durable. -/
def PcOK (cs : Checksum) (n₀ : Nat) (recs : List Bytes) (w : OpenLog) : Pc → Prop
  | .flushing target covered => target ≤ w.writer.writeSeq ∧
      startOf cs recs (n₀ + target) ≤ covered ∧ covered ≤ w.writer.file.length
  | .flushed target true => target ≤ w.writer.writeSeq ∧
      startOf cs recs (n₀ + target) ≤ w.synced
  | _ => True

/-- The log holds `recs`, of which the session found `n₀`, and the checkpoints `cps`. -/
structure LogInv (cs : Checksum) (n₀ : Nat) (recs : List Bytes) (tail : Bytes) (cps : List Nat)
    (w : OpenLog) : Prop where
  file : w.writer.file = encodeAll cs recs ++ tail
  torn : Torn cs tail
  max_le : ∀ r ∈ recs, r.length ≤ MaxRecordSize
  bound : (encodeAll cs recs).length ≤ maxFileSize
  size : w.writer.size = (encodeAll cs recs).length
  next : w.writer.nextOffset = recs.length
  seq : n₀ + w.writer.writeSeq = recs.length
  synced_seq : w.writer.syncedSeq ≤ w.writer.writeSeq
  pending : w.writer.pending = pendingOf cs recs n₀ w.writer.syncedSeq
    (w.writer.writeSeq - w.writer.syncedSeq)
  index : Indexes cs recs cps w.writer.store
  checkpointed : ∀ k ∈ cps, k < n₀ + w.writer.syncedSeq ∧ startOf cs recs (k + 1) ≤ w.synced
  durable : 0 < w.writer.syncedSeq → startOf cs recs (n₀ + w.writer.syncedSeq) ≤ w.synced
  synced_le : w.synced ≤ w.writer.file.length
  commit : ∀ c ∈ w.commits, recs[c.offset]? = some c.data ∧ n₀ + c.seq = c.offset + 1 ∧
    0 < c.seq ∧ PcOK cs n₀ recs w c.pc
  acked : ∀ o d, (o, d) ∈ w.acked → recs[o]? = some d ∧ startOf cs recs (o + 1) ≤ w.synced

/-! ## Steps -/

section Steps

variable {cs : Checksum} {n₀ : Nat} {recs : List Bytes} {tail : Bytes} {cps : List Nat}
  {w w' : OpenLog}

/-- What a position says survives every change that only adds to the log. -/
theorem PcOK.mono {recs' : List Bytes} {pc : Pc} (h : PcOK cs n₀ recs w pc)
    (hseq : w.writer.writeSeq ≤ w'.writer.writeSeq)
    (hfile : w.writer.file.length ≤ w'.writer.file.length) (hsynced : w.synced ≤ w'.synced)
    (hstart : ∀ k, k ≤ n₀ + w.writer.writeSeq → startOf cs recs' k = startOf cs recs k) :
    PcOK cs n₀ recs' w' pc := by
  -- only a goroutine in a flush, or back from one that succeeded, promises anything
  cases pc with
  | flushing target covered =>
    obtain ⟨ht, hcov, hle⟩ := h
    refine ⟨ht.trans hseq, ?_, hle.trans hfile⟩
    rwa [hstart _ (by omega)]
  | flushed target ok =>
    cases ok with
    | true =>
      obtain ⟨ht, hcov⟩ := h
      refine ⟨ht.trans hseq, ?_⟩
      rw [hstart _ (by omega)]
      exact hcov.trans hsynced
    | false => trivial
  | ready | waiting | returned => trivial

/-- Moving one goroutine to a position that is justified. -/
theorem LogInv.setPc (h : LogInv cs n₀ recs tail cps w) {k : Nat} {c : Commit}
    (hk : w.commits[k]? = some c) (pc : Pc) (hpc : PcOK cs n₀ recs w pc) :
    LogInv cs n₀ recs tail cps (w.setPc k c pc) :=
  { h with
    commit := fun c' hc' => by
      rcases List.mem_or_eq_of_mem_set hc' with hc' | rfl
      · exact h.commit c' hc'
      · obtain ⟨hdata, hseq, hpos, -⟩ := h.commit c (List.mem_of_getElem? hk)
        exact ⟨hdata, hseq, hpos, hpc⟩ }

/-- The records of the session that are synced end inside the synced part. -/
theorem LogInv.startOf_le_synced (h : LogInv cs n₀ recs tail cps w) {c : Commit}
    (hc : c ∈ w.commits) (hseq : c.seq ≤ w.writer.syncedSeq) :
    startOf cs recs (c.offset + 1) ≤ w.synced := by
  obtain ⟨-, hoff, hpos, -⟩ := h.commit c hc
  exact (startOf_mono (by omega)).trans (h.durable (by omega))

/-- The file ends at or behind its last whole record. -/
theorem LogInv.startOf_le_file (h : LogInv cs n₀ recs tail cps w) (k : Nat) :
    startOf cs recs k ≤ w.writer.file.length := by
  rw [h.file, List.length_append]
  exact (startOf_le cs recs k).trans (Nat.le_add_right _ _)

/-- A write that failed leaves a torn tail. -/
theorem LogInv.writeFailed (h : LogInv cs n₀ recs [] cps w) {data : Bytes} {m : Nat}
    (hd : data.length ≤ MaxRecordSize) (hm : m < (encode cs data).length) :
    LogInv cs n₀ recs ((encode cs data).take m) cps
      { w with writer := { w.writer with file := w.writer.file ++ (encode cs data).take m } } := by
  have hfile : w.writer.file.length ≤ (w.writer.file ++ (encode cs data).take m).length := by
    rw [List.length_append]
    exact Nat.le_add_right _ _
  exact
    { h with
      file := by rw [h.file, List.append_nil]
      torn := ⟨data, m, hd, hm, rfl⟩
      synced_le := h.synced_le.trans hfile
      commit := fun c hc => by
        obtain ⟨hdata, hseq, hpos, hpc⟩ := h.commit c hc
        exact ⟨hdata, hseq, hpos, hpc.mono le_rfl hfile le_rfl fun _ _ => rfl⟩ }

/-- A record that was just written is the last one pending. -/
theorem LogInv.pending_reserved (h : LogInv cs n₀ recs tail cps w) (data : Bytes) :
    (w.writer.reserved cs data).pending = pendingOf cs (recs ++ [data]) n₀ w.writer.syncedSeq
      (w.writer.writeSeq + 1 - w.writer.syncedSeq) := by
  have hseq := h.seq
  have hsynced := h.synced_seq
  have hcount : w.writer.writeSeq + 1 - w.writer.syncedSeq =
      w.writer.writeSeq - w.writer.syncedSeq + 1 := by omega
  have hlast : w.writer.syncedSeq + (w.writer.writeSeq - w.writer.syncedSeq) =
      w.writer.writeSeq := by omega
  have hpos : startOf cs (recs ++ [data]) recs.length = w.writer.size := by
    rw [startOf_append _ le_rfl, startOf_length, h.size]
  simp only [WALWriter.reserved, hcount, pendingOf_concat, hlast, hseq, hpos, h.next, h.pending]
  rw [pendingOf_append _ (by omega)]

/-- `Reserve` behind the last whole record. -/
theorem LogInv.reserved (h : LogInv cs n₀ recs [] cps w) {data : Bytes}
    (hd : data.length ≤ MaxRecordSize)
    (hsize : w.writer.file.length + (encode cs data).length ≤ maxFileSize) :
    LogInv cs n₀ (recs ++ [data]) [] cps
      { w with
        writer := w.writer.reserved cs data
        commits := w.commits ++
          [⟨w.writer.nextOffset, data, w.writer.writeSeq + 1, .ready⟩] } := by
  have hseq := h.seq
  have hsynced := h.synced_seq
  have hfile : w.writer.file = encodeAll cs recs := by rw [h.file, List.append_nil]
  have hgrow : w.writer.file.length ≤ (w.writer.file ++ encode cs data).length := by
    rw [List.length_append]
    exact Nat.le_add_right _ _
  -- earlier records keep their positions
  have hstart : ∀ k, k ≤ recs.length → startOf cs (recs ++ [data]) k = startOf cs recs k :=
    fun k hk => startOf_append _ hk
  have hlt : ∀ {o d}, recs[o]? = some d → o < recs.length := fun h =>
    (List.getElem?_eq_some_iff.mp h).1
  have hkeep : ∀ {o d}, recs[o]? = some d → (recs ++ [data])[o]? = some d := fun h => by
    rwa [List.getElem?_append_left (hlt h)]
  exact
    { file := by rw [List.append_nil, encodeAll_concat, ← hfile]; rfl
      torn := torn_nil cs
      max_le := fun r hr => by
        rcases List.mem_append.mp hr with hr | hr
        · exact h.max_le r hr
        · rwa [List.mem_singleton.mp hr]
      bound := by rwa [encodeAll_concat, List.length_append, ← hfile]
      size := by
        rw [encodeAll_concat, List.length_append, ← h.size]
        rfl
      next := by
        rw [List.length_append, ← h.next]
        rfl
      seq := by
        rw [List.length_append, ← h.seq]
        rfl
      synced_seq := hsynced.trans (Nat.le_succ _)
      pending := h.pending_reserved data
      index := h.index.append [data]
      -- checkpoints and durable records are old ones
      checkpointed := fun k hk => by
        obtain ⟨hlt', hle⟩ := h.checkpointed k hk
        exact ⟨hlt', by rwa [hstart _ (h.index.lt k hk)]⟩
      durable := fun hpos => by
        have hle := h.durable hpos
        rwa [← hstart _ (by omega)] at hle
      synced_le := h.synced_le.trans hgrow
      commit := fun c hc => by
        rcases List.mem_append.mp hc with hc | hc
        · obtain ⟨hdata, hoff, hpos, hpc⟩ := h.commit c hc
          refine ⟨hkeep hdata, hoff, hpos, hpc.mono (Nat.le_succ _) hgrow le_rfl fun k hk => ?_⟩
          exact hstart k (by omega)
        · obtain rfl := List.mem_singleton.mp hc
          refine ⟨?_, ?_, Nat.succ_pos _, trivial⟩
          · rw [h.next]
            simp
          · rw [h.next, ← hseq, Nat.add_assoc]
      acked := fun o d ho => by
        obtain ⟨hdata, hle⟩ := h.acked o d ho
        exact ⟨hkeep hdata, by rwa [hstart _ (hlt hdata)]⟩ }

/-- A `Sync` may cover more of the file. -/
theorem LogInv.setSynced (h : LogInv cs n₀ recs tail cps w) {n : Nat} (hle : w.synced ≤ n)
    (hn : n ≤ w.writer.file.length) : LogInv cs n₀ recs tail cps { w with synced := n } :=
  { h with
    checkpointed := fun k hk => (h.checkpointed k hk).imp_right fun h' => h'.trans hle
    durable := fun hpos => (h.durable hpos).trans hle
    synced_le := hn
    commit := fun c hc => by
      obtain ⟨hdata, hseq, hpos, hpc⟩ := h.commit c hc
      exact ⟨hdata, hseq, hpos, hpc.mono le_rfl le_rfl hle fun _ _ => rfl⟩
    acked := fun o d ho => (h.acked o d ho).imp_right fun h' => h'.trans hle }

/-- A successful `Sync` covers what was in the file when it started. -/
theorem LogInv.syncReturned (h : LogInv cs n₀ recs tail cps w) {k target covered : Nat}
    {c : Commit} (hk : w.commits[k]? = some c) (hpc : c.pc = .flushing target covered)
    (ok : Bool) :
    LogInv cs n₀ recs tail cps
      { w.setPc k c (.flushed target ok) with
        synced := if ok then max w.synced covered else w.synced } := by
  obtain ⟨-, -, -, hc⟩ := h.commit c (List.mem_of_getElem? hk)
  rw [hpc] at hc
  obtain ⟨htarget, hcov, hfile⟩ := hc
  cases ok with
  | false => exact h.setPc hk _ trivial
  | true =>
    -- the synced part only grows, so everything but the moved goroutine is kept
    have hgrown := h.setSynced (Nat.le_max_left w.synced covered)
      (Nat.max_le.mpr ⟨h.synced_le, hfile⟩)
    exact hgrown.setPc hk _ ⟨htarget, hcov.trans (Nat.le_max_right _ _)⟩

/-- A broadcast changes nothing but the positions of waiting goroutines. -/
theorem mem_broadcast {commits : List Commit} {c : Commit} (h : c ∈ broadcast commits) :
    ∃ c' ∈ commits, c.offset = c'.offset ∧ c.data = c'.data ∧ c.seq = c'.seq ∧
      (c.pc = c'.pc ∨ c.pc = .waiting true ∧ ∃ b, c'.pc = .waiting b) := by
  obtain ⟨c', hc', rfl⟩ := List.mem_map.mp h
  refine ⟨c', hc', ?_⟩
  cases hpc : c'.pc with
  | waiting notified => exact ⟨rfl, rfl, rfl, Or.inr ⟨rfl, notified, rfl⟩⟩
  | ready | flushing | flushed | returned => exact ⟨rfl, rfl, rfl, Or.inl hpc⟩

theorem LogInv.broadcast (h : LogInv cs n₀ recs tail cps w) :
    LogInv cs n₀ recs tail cps { w with commits := broadcast w.commits } :=
  { h with
    commit := fun c hc => by
      obtain ⟨c', hc', hoff, hdata, hseq, hpc⟩ := mem_broadcast hc
      obtain ⟨h1, h2, h3, h4⟩ := h.commit c' hc'
      rw [hoff, hdata, hseq]
      refine ⟨h1, h2, h3, ?_⟩
      rcases hpc with hpc | ⟨hpc, -⟩ <;> rw [hpc]
      · exact h4
      · trivial }

/-- Draining the pending list up to a target whose records are synced. -/
theorem LogInv.drained (h : LogInv cs n₀ recs tail cps w) (target : Nat)
    {idx : Nat → WriteOutcome} (hidx : ∀ x, (idx x).Atomic)
    (htarget : target ≤ w.writer.writeSeq) (hsync : startOf cs recs (n₀ + target) ≤ w.synced)
    (b : Bool) :
    ∃ cps', LogInv cs n₀ recs tail cps'
      { w with
        writer :=
          { w.writer with
            syncing := b
            syncedSeq := max w.writer.syncedSeq target
            store := (drainLoop target idx w.writer.store w.writer.pending).1
            pending := (drainLoop target idx w.writer.store w.writer.pending).2 } } := by
  have hseq := h.seq
  have hle := h.synced_seq
  obtain ⟨cps', hindex, hrest, hnew⟩ := drainLoop_spec n₀ w.writer.syncedSeq
    (w.writer.writeSeq - w.writer.syncedSeq) target hidx h.index
    (fun k hk => (h.checkpointed k hk).1) (by omega) (by omega)
  rw [← h.pending] at hindex hrest
  refine ⟨cps', { h with
    synced_seq := Nat.max_le.mpr ⟨hle, htarget⟩
    pending := ?_
    index := hindex
    checkpointed := fun k hk => ?_
    durable := fun _ => ?_ }⟩
  · rw [hrest, Nat.add_sub_cancel' hle]
  -- an old checkpoint, or one of a record the flush covered
  · rcases hnew k hk with hk | hk
    · obtain ⟨hlt, hpos⟩ := h.checkpointed k hk
      exact ⟨lt_of_lt_of_le hlt (Nat.add_le_add_left (Nat.le_max_left _ _) _), hpos⟩
    · exact ⟨lt_of_lt_of_le hk (Nat.add_le_add_left (Nat.le_max_right _ _) _),
        (startOf_mono hk).trans hsync⟩
  -- a later flush may have returned first
  · rcases Nat.lt_or_ge target w.writer.syncedSeq with hlt | hge
    · rw [Nat.max_eq_left hlt.le]
      exact h.durable (by omega)
    · rwa [Nat.max_eq_right hge]

/-- `commitLocked` after its `Sync` returned. -/
theorem LogInv.relocked (h : LogInv cs n₀ recs tail cps w) {k target : Nat} {c : Commit}
    {ok : Bool} {idx : Nat → WriteOutcome} (hidx : ∀ x, (idx x).Atomic)
    (hk : w.commits[k]? = some c) (hpc : c.pc = .flushed target ok) :
    ∃ cps', LogInv cs n₀ recs tail cps'
      { w with
        writer := w.writer.finishSync target ok idx
        commits := EventLog.Wal.broadcast
          (w.commits.set k { c with pc := if ok then .ready else .returned false }) } := by
  cases ok with
  | false =>
    -- a failed flush marks nothing durable
    have hfail : LogInv cs n₀ recs tail cps
        { w with writer := { w.writer with syncing := false, syncErr := true } } :=
      { h with }
    exact ⟨cps, (hfail.setPc hk (.returned false) trivial).broadcast⟩
  | true =>
    obtain ⟨-, -, -, hc⟩ := h.commit c (List.mem_of_getElem? hk)
    rw [hpc] at hc
    obtain ⟨htarget, hsync⟩ := hc
    obtain ⟨cps', hdrained⟩ := h.drained target hidx htarget hsync false
    refine ⟨cps', ?_⟩
    simp only [WALWriter.finishSync_true, if_true]
    exact (hdrained.setPc hk .ready trivial).broadcast

end Steps

/-! ## Whole steps -/

/-- The index writes of the event happen as a whole or not at all. -/
def LogEvent.AtomicIndex : LogEvent → Prop
  | .relock _ idx => ∀ x, (idx x).Atomic
  | _ => True

/-- All writes of the event happen as a whole or not at all. -/
def LogEvent.Atomic : LogEvent → Prop
  | .reserve _ o => o.Atomic
  | .relock _ idx => ∀ x, (idx x).Atomic
  | _ => True

theorem LogEvent.Atomic.index {e : LogEvent} (h : e.Atomic) : e.AtomicIndex := by
  cases e with
  | relock k idx => exact h
  | reserve | pass | syncReturn => trivial

/-- **Step lemma of the invariant**: a log that ends with a whole record stays a log of
    whole records, with a torn tail only if a write failed half way. -/
theorem LogInv.step {cs : Checksum} {n₀ : Nat} {recs : List Bytes} {tail : Bytes}
    {cps : List Nat} {w w' : OpenLog} {e : LogEvent} (h : LogInv cs n₀ recs tail cps w)
    (ht : LogTransition cs w e w') (hidx : e.AtomicIndex)
    (hend : ∀ data o, e = .reserve data o → w'.writer.file ≠ w.writer.file → tail = []) :
    ∃ recs' tail' cps', LogInv cs n₀ recs' tail' cps' w' ∧
      (recs' = recs ∨ ∃ data o, e = .reserve data o ∧ recs' = recs ++ [data]) ∧
      (tail = [] → e.Atomic → tail' = []) := by
  cases ht with
  | refused data o hd => exact ⟨recs, tail, cps, h, Or.inl rfl, fun h _ => h⟩
  | writeFailed data o m hd hm hzero =>
    rcases Nat.eq_zero_or_pos m with rfl | hpos
    · -- nothing was written
      rw [List.take_zero, List.append_nil]
      exact ⟨recs, tail, cps, h, Or.inl rfl, fun h _ => h⟩
    · obtain rfl := hend data o rfl fun hsame => by
        rw [List.append_right_eq_self, List.take_eq_nil_iff] at hsame
        exact hsame.elim hpos.ne' (encode_ne_nil cs data)
      refine ⟨recs, _, cps, h.writeFailed hd hm, Or.inl rfl, fun _ ho => ?_⟩
      rw [hzero ho, List.take_zero]
  | reserved data o hd hsize =>
    obtain rfl := hend data o rfl (mt List.append_right_eq_self.mp (encode_ne_nil cs data))
    exact ⟨_, [], cps, h.reserved hd hsize, Or.inr ⟨data, o, rfl, rfl⟩, fun _ _ => rfl⟩
  | commitFailed k c hk hpc =>
    exact ⟨recs, tail, cps, h.setPc hk _ trivial, Or.inl rfl, fun h _ => h⟩
  | committed k c hk hpc hseq =>
    have hc := List.mem_of_getElem? hk
    refine ⟨recs, tail, cps, { h.setPc hk (.returned true) trivial with
      acked := fun o d hod => ?_ }, Or.inl rfl, fun h _ => h⟩
    rcases List.mem_append.mp hod with hod | hod
    · exact h.acked o d hod
    · obtain ⟨rfl, rfl⟩ := Prod.mk.inj (List.mem_singleton.mp hod)
      exact ⟨(h.commit c hc).1, h.startOf_le_synced hc hseq⟩
  | waited k c hk hpc =>
    exact ⟨recs, tail, cps, h.setPc hk _ trivial, Or.inl rfl, fun h _ => h⟩
  | led k c hk hpc hsync =>
    have hpc' : PcOK cs n₀ recs w (.flushing w.writer.writeSeq w.writer.file.length) :=
      ⟨le_rfl, h.startOf_le_file _, le_rfl⟩
    exact ⟨recs, tail, cps, { h.setPc hk _ hpc' with }, Or.inl rfl, fun h _ => h⟩
  | syncReturned k c target covered ok hk hpc =>
    exact ⟨recs, tail, cps, h.syncReturned hk hpc ok, Or.inl rfl, fun h _ => h⟩
  | relocked k c target ok idx hk hpc =>
    obtain ⟨cps', h'⟩ := h.relocked hidx hk hpc
    exact ⟨recs, tail, cps', h', Or.inl rfl, fun h _ => h⟩

end EventLog.Wal
