import EventLog.Lib.Run
import EventLog.Wal.Sessions
import EventLog.Wal.Walk

/-!
# Index files that are not the ones of the log

The index is a hint: it is written without an fsync and read without a checksum.

## Damaged index files

A crash may lose a suffix of the index file, tear its last entry and leave entries that
are zero.  Every entry that is left is still true, a zero one because it names the first
record, so opening and reading give what they give without an index.

## Stale index files

The checkpoints of a longer log are another matter.  `recover` does not start at a
checkpoint past the end of the file, but the store keeps it, and `Floor` returns it as
soon as the log has grown past its offset.
-/

namespace EventLog.Wal

open EventLog.Lib

variable {cs : Checksum} {recs : List Bytes} {cps : List Nat}

/-! ## Damaged index files -/

/-- What is left of the index file: the entry of each listed record or, where the flag is
    set, zeros in its place, cut at byte `j`. -/
def damagedIndex (cs : Checksum) (recs : List Bytes) (entries : List (Nat × Bool)) (j : Nat) :
    Bytes :=
  (entries.flatMap fun (k, zeroed) =>
    if zeroed then List.replicate indexEntryBytes 0 else entryBytes k (startOf cs recs k)).take j

/-- An entry of zeros is the checkpoint of the first record. -/
theorem damagedIndex_eq (cs : Checksum) (recs : List Bytes) (entries : List (Nat × Bool))
    (j : Nat) : damagedIndex cs recs entries j =
      (indexBytes cs recs (entries.map fun (k, zeroed) => if zeroed then 0 else k)).take j := by
  rw [damagedIndex, indexBytes, List.flatMap_map]
  congr 2
  funext e
  obtain ⟨k, zeroed⟩ := e
  -- sixteen zero bytes are the entry of record 0, which starts at 0
  cases zeroed with
  | false => rfl
  | true => exact (by decide : List.replicate indexEntryBytes 0 = entryBytes 0 0)

/-- **The sparse index never changes an answer**: with whatever is left of the index file
    the log opens as without one, and every offset is read as by a scan from byte 0, before
    the torn tail is truncated and after. -/
theorem damaged_index_transparent (cs : Checksum) (recs : List Bytes) (tail : Bytes)
    (entries : List (Nat × Bool)) (hrecs : ∀ r ∈ recs, r.length ≤ MaxRecordSize)
    (ht : Torn cs tail) (hsize : (encodeAll cs recs).length ≤ maxFileSize)
    (hlt : ∀ e ∈ entries, e.1 < recs.length) (j nth : Nat) :
    ∃ w w₀ : WALWriter,
      newWalWriter cs (encodeAll cs recs ++ tail)
        (newInMemoryStore (damagedIndex cs recs entries j) nth) = .ok w ∧
      newWalWriter cs (encodeAll cs recs ++ tail) (newInMemoryStore [] nth) = .ok w₀ ∧
      w.nextOffset = w₀.nextOffset ∧ w.size = w₀.size ∧ w.file = w₀.file ∧
      w₀.nextOffset = recs.length ∧ w₀.file = encodeAll cs recs ∧
      (∀ o, readAt cs w.file w.store o = scanAt cs w.file o) ∧
      ∀ o, readAt cs (encodeAll cs recs ++ tail) w.store o =
        scanAt cs (encodeAll cs recs ++ tail) o := by
  -- a zeroed entry is a true one
  have hzeroed : ∀ k ∈ entries.map fun (k, zeroed) => if zeroed then 0 else k,
      k < recs.length := fun k hk => by
    obtain ⟨⟨k', zeroed⟩, he, rfl⟩ := List.mem_map.mp hk
    have hk' := hlt _ he
    cases zeroed with
    | false => exact hk'
    | true => exact Nat.zero_lt_of_lt hk'
  -- the entries are true ones, so those that are kept lead to the right places
  obtain ⟨n, hindex, -⟩ := Indexes.load_front hzeroed hsize
    (s := newInMemoryStore (damagedIndex cs recs entries j) nth) (damagedIndex_eq cs recs entries j)
  have hempty : Indexes cs recs [] (newInMemoryStore [] nth).loadCheckpoints :=
    Indexes.load List.Pairwise.nil (by simp) hsize (j := 0) rfl
  refine ⟨_, _, newWalWriter_eq hindex hrecs hsize ht.unfinished,
    newWalWriter_eq hempty hrecs hsize ht.unfinished, rfl, rfl, rfl,
    rfl, rfl, fun o => ?_, readAt_eq_scanAt tail hindex hrecs⟩
  have h := readAt_eq_scanAt [] hindex hrecs o
  rwa [List.append_nil] at h

/-- A torn third entry behind an entry of zeros. -/
theorem damaged_index_transparent_torn : ∃ w w₀ : WALWriter,
    newWalWriter byteSum (encodeAll byteSum [[1], [2, 2], [3]] ++ [0, 0])
      (newInMemoryStore
        (damagedIndex byteSum [[1], [2, 2], [3]] [(0, true), (1, false), (2, false)] 41)
        NthIndex) = .ok w ∧
    newWalWriter byteSum (encodeAll byteSum [[1], [2, 2], [3]] ++ [0, 0])
      (newInMemoryStore [] NthIndex) = .ok w₀ ∧
    w.nextOffset = w₀.nextOffset ∧ readAt byteSum w.file w.store 2 = scanAt byteSum w.file 2 := by
  obtain ⟨w, w₀, hw, hw₀, hnext, -, -, -, -, hread, -⟩ := damaged_index_transparent
    byteSum [[1], [2, 2], [3]] [0, 0] [(0, true), (1, false), (2, false)] (by decide)
    ⟨[4], 2, by decide, by decide, by decide⟩ (by decide) (by decide) 41 NthIndex
  exact ⟨w, w₀, hw, hw₀, hnext, hread 2⟩

/-! ## Stale index files -/

/-- One goroutine at work on a log: a `Write`, or `Close` and `NewWalWriter`; `idx` gives
    the outcomes of the index writes, which neither reports. -/
inductive SessionOp where
  | write (data : Bytes) (idx : Nat → WriteOutcome)
  | reopen (idx : Nat → WriteOutcome)

/-- No index write leaves a part of an entry. -/
def SessionOp.Atomic : SessionOp → Prop
  | .write _ idx => ∀ x, (idx x).Atomic
  | .reopen idx => ∀ x, (idx x).Atomic

/-- An open log and the payloads written to it, by offset. -/
structure Session where
  log : OpenLog
  written : List Bytes

/-- `NewWalWriter` on files that are durable. -/
def OpenLog.openOn (cs : Checksum) (file indexFile : Bytes) : Except RecoverError OpenLog :=
  { OpenLog.empty with synced := file.length }.reopen cs file indexFile

/-- The next operation; `none` when it fails. -/
def Session.step (cs : Checksum) (s : Session) : SessionOp → Option Session
  | .write data idx =>
    match s.log.write cs data .ok true idx with
    | (log, .ok _) => some { log := log, written := s.written ++ [data] }
    | (_, .error _) => none
  | .reopen idx =>
    match s.log.restart cs true idx with
    | .ok log => some { s with log := log }
    | .error _ => none

/-- Every offset below `NextOffset` is read back, every checkpoint in the store is the
    position of a record, and closing and opening finds the same `NextOffset`. -/
structure Session.Sound (cs : Checksum) (s : Session) : Prop where
  next : s.log.writer.nextOffset = s.written.length
  read : ∀ o d, s.written[o]? = some d →
    readAt cs s.log.writer.file s.log.writer.store o = .ok d
  checkpoints : ∀ k pos,
    (k, pos) ∈ s.log.writer.store.offsets.zip s.log.writer.store.positions →
      k < s.written.length ∧ pos = startOf cs s.written k
  reopens : ∀ idx : Nat → WriteOutcome, (∀ x, (idx x).Atomic) →
    ∃ w, s.log.restart cs true idx = .ok w ∧
      w.writer.nextOffset = s.log.writer.nextOffset

/-- The log is whole, everything in it is durable and its checkpoints are true. -/
def Session.Inv (cs : Checksum) (s : Session) : Prop :=
  ∃ n₀ cps, LogInv cs n₀ s.written [] cps s.log ∧ s.log.writer.Quiet ∧ s.log.commits = []

/-- The checkpoints in memory. -/
theorem Indexes.mem_zip {s : InMemoryStore} (h : Indexes cs recs cps s) {k : Nat} {pos : Int} :
    (k, pos) ∈ s.offsets.zip s.positions ↔ k ∈ cps ∧ pos = startOf cs recs k := by
  rw [h.offsets, h.positions, ← List.map_prod_left_eq_zip, List.mem_map]
  constructor
  · rintro ⟨k', hk', heq⟩
    obtain ⟨rfl, rfl⟩ := Prod.mk.inj heq
    exact ⟨hk', rfl⟩
  · rintro ⟨hk, rfl⟩
    exact ⟨k, hk, rfl⟩

theorem Session.Inv.sound {s : Session} (h : s.Inv cs) : s.Sound cs := by
  obtain ⟨n₀, cps, hlog, -, -⟩ := h
  have hfile := hlog.file
  rw [List.append_nil] at hfile
  refine ⟨hlog.next, fun o d ho => ?_, fun k pos hk => ?_, fun idx hidx => ?_⟩
  · -- a read goes by the index, whose entries are true
    have hread := readAt_eq [] hlog.index hlog.max_le ho
    rwa [List.append_nil, ← hfile] at hread
  · obtain ⟨hk, hpos⟩ := hlog.index.mem_zip.mp hk
    exact ⟨hlog.index.lt k hk, hpos⟩
  · obtain ⟨_, w, hopen, -, -, hlog'⟩ := hlog.restart true hidx
    exact ⟨w, hopen, hlog'.next.trans hlog.next.symm⟩

/-- **Step lemma of a session.** -/
theorem Session.Inv.step {s s' : Session} {e : SessionOp} (h : s.Inv cs) (he : e.Atomic)
    (hstep : s.step cs e = some s') : s'.Inv cs := by
  obtain ⟨n₀, cps, hlog, hquiet, hcommits⟩ := h
  cases e with
  | write data idx =>
    have hwrite := hlog.write hquiet hcommits data he
    simp only [Session.step] at hstep
    generalize s.log.write cs data .ok true idx = out at hwrite hstep
    cases hwrite with
    -- a refused record is no write of the session
    | tooLarge _ => cases hstep
    | full _ _ => cases hstep
    | written cps' w' _ hlog' hquiet' hcommits' _ =>
      obtain rfl := Option.some.inj hstep
      exact ⟨n₀, cps', hlog', hquiet', hcommits'⟩
  | reopen idx =>
    obtain ⟨cps', w', hopen, -, hcommits', hlog'⟩ := hlog.restart true he
    simp only [Session.step, hopen] at hstep
    obtain rfl := Option.some.inj hstep
    exact ⟨_, cps', hlog', reopen_quiet hopen, hcommits'⟩

/-- **Checkpoints past the end of the log are not harmless**: in a session on a log whose
    index file was written for a longer one, the log is sound at every moment exactly when
    every checkpoint names a record the log still has. -/
theorem stale_index_sound_iff (cs : Checksum) (recs more : List Bytes) (cps : List Nat)
    (hrecs : ∀ r ∈ recs, r.length ≤ MaxRecordSize)
    (hsize : (encodeAll cs (recs ++ more)).length ≤ maxFileSize)
    (hasc : cps.Pairwise (· < ·)) (hlt : ∀ k ∈ cps, k < (recs ++ more).length) :
    ∃ w, OpenLog.openOn cs (encodeAll cs recs) (indexBytes cs (recs ++ more) cps) = .ok w ∧
      ∀ es s, (∀ e ∈ es, e.Atomic) → run (Session.step cs) ⟨w, recs⟩ es = some s →
        ((∀ es₁ s₁, es₁ <+: es → run (Session.step cs) ⟨w, recs⟩ es₁ = some s₁ → s₁.Sound cs) ↔
          ∀ k ∈ cps, k < recs.length) := by
  have hload := Indexes.load_all hasc hlt hsize NthIndex
  set store := (newInMemoryStore (indexBytes cs (recs ++ more) cps) NthIndex).loadCheckpoints
  -- recovery finds the records and keeps every checkpoint
  have hopen : OpenLog.openOn cs (encodeAll cs recs) (indexBytes cs (recs ++ more) cps) =
      .ok ⟨openedWriter cs recs store, (encodeAll cs recs).length, [], []⟩ := by
    rw [OpenLog.openOn, OpenLog.reopen, newWalWriter_stale hload hrecs hsize]
    simp only [openedWriter, Nat.min_self]
    rfl
  refine ⟨_, hopen, fun es s hes hrun => ⟨fun hall k hk => ?_, ?_⟩⟩
  · -- a stale checkpoint is in the store from the first moment on
    have hfirst := hall [] _ List.nil_prefix rfl
    exact (hfirst.checkpoints k _ (hload.mem_zip.mpr ⟨hk, rfl⟩)).1
  · -- with no stale checkpoint the log is as if the rest had never been written
    rintro hcps es₁ s₁ ⟨fs, rfl⟩ hrun₁
    have hindex : Indexes cs recs cps store :=
      hload.transfer (fun k hk => (startOf_append more (hcps k hk).le).symm) hcps
    have hbound : (encodeAll cs recs).length ≤ maxFileSize := by
      rw [encodeAll_append, List.length_append] at hsize
      omega
    have hinv : Session.Inv cs
        ⟨⟨openedWriter cs recs store, (encodeAll cs recs).length, [], []⟩, recs⟩ :=
      ⟨_, cps, LogInv.opened hindex hrecs hbound le_rfl (fun k _ => startOf_le _ _ _)
        (fun o d hod => by cases hod), ⟨rfl, rfl, rfl⟩, rfl⟩
    have hes₁ : ∀ e ∈ es₁, e.Atomic := fun e he => hes e (List.mem_append_left fs he)
    have hinv₁ := run_invariant (P := fun _ e => SessionOp.Atomic e) (I := Session.Inv cs)
      (fun _ _ _ hI he hstep => hI.step he hstep) hinv (along_of_forall hes₁) hrun₁
    exact hinv₁.sound

/-- A session on a log whose one checkpoint names a record it still has. -/
theorem stale_index_sound_iff_kept : ∃ w s,
    OpenLog.openOn byteSum (encodeAll byteSum [[5]]) (indexBytes byteSum [[5], [6]] [0]) = .ok w ∧
    run (Session.step byteSum) ⟨w, [[5]]⟩ [.write [7] fun _ => .ok, .reopen fun _ => .ok] =
      some s ∧ s.Sound byteSum := by
  obtain ⟨w, hopen, hall⟩ := stale_index_sound_iff byteSum [[5]] [[6]] [0] (by decide) (by decide)
    (by decide) (by decide)
  obtain ⟨s, hrun⟩ : ∃ s, run (Session.step byteSum) ⟨w, [[5]]⟩
      [.write [7] fun _ => .ok, .reopen fun _ => .ok] = some s := by
    obtain rfl := Except.ok.inj (hopen.symm.trans rfl)
    exact ⟨_, rfl⟩
  have hsound := (hall _ s (by simp [SessionOp.Atomic, WriteOutcome.Atomic]) hrun).mpr (by decide)
  exact ⟨w, s, hopen, hrun, hsound _ s (List.prefix_refl _) hrun⟩

/-- The index file of a log of two records, found with an empty log: after two writes
    `ReadAt(1)` starts in the middle of a record, and after the third the log does not open. -/
theorem stale_checkpoint_unreadable : ∃ w s₂ s₃,
    OpenLog.openOn byteSum [] (indexBytes byteSum [[1, 1, 1, 1, 1, 1], [2]] [1]) = .ok w ∧
    run (Session.step byteSum) ⟨w, []⟩ [.write [7] fun _ => .ok, .write [8] fun _ => .ok] =
      some s₂ ∧
    s₂.log.writer.nextOffset = 2 ∧ readAt byteSum s₂.log.writer.file s₂.log.writer.store 1 =
      .error .eof ∧
    s₂.step byteSum (.write [9] fun _ => .ok) = some s₃ ∧
    s₃.log.restart byteSum true (fun _ => .ok) =
      .error (.corruption ⟨11, [], [], .lengthOutOfBounds (8 * 2 ^ 24)⟩) :=
  ⟨_, _, _, rfl, rfl, by decide, by decide, rfl, by rfl⟩

end EventLog.Wal
