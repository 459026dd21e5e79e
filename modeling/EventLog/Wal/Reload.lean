import EventLog.Lib.Run
import EventLog.Wal.Store

/-!
# Reloading the index

`LoadCheckpoints` on an index file of any content, then any calls of `Checkpoint` that
return nil, then the same file in a fresh store.

* **Loading**: the longest ascending prefix of the entries is kept, in memory and on disk,
  and loading again changes nothing.
* **Calls**: entries above the ones kept are added to both sides (`Holds.calls`).
* **Reloading**: a store that holds its entries is what a fresh store makes of its file
  (`Holds.reloads`).
-/

namespace EventLog.Wal

open EventLog.Lib

/-! ## Calls -/

/-- A call of `Checkpoint`, and what the write of its entry does if there is one. -/
structure CheckpointCall where
  offset : UInt64
  position : Int64
  write : WriteOutcome
  deriving DecidableEq

namespace CheckpointCall

def entry (c : CheckpointCall) : Nat × Int := (c.offset.toNat, c.position.toInt)

theorem entry_inFields (c : CheckpointCall) : InFields c.entry :=
  ⟨c.offset.toNat_lt, c.position.le_toInt, c.position.toInt_lt⟩

end CheckpointCall

/-- `Checkpoint`, as far as it returns nil. -/
def InMemoryStore.call (s : InMemoryStore) (c : CheckpointCall) : Option InMemoryStore :=
  if s.Accepts c.entry.1 c.entry.2 c.write then some (s.checkpoint c.entry.1 c.entry.2 c.write)
  else none

section Calls

variable {es : List (Nat × Int)} {s s' : InMemoryStore} {c : CheckpointCall}

/-- A call that returns nil had no failing write. -/
theorem InMemoryStore.Accepts.checkpoint_eq {offset : Nat} {position : Int} {o : WriteOutcome}
    (h : s.Accepts offset position o) :
    s.checkpoint offset position o = s.checkpoint offset position .ok := by
  rcases h with hskip | hwrite
  · simp only [InMemoryStore.checkpoint, hskip, and_self, if_true]
  · cases o with
    | ok => rfl
    | failed k => cases hwrite

/-- **Step lemma**: a call above all entries adds its entry, or drops it. -/
theorem Holds.call (h : Holds es s) (habove : ∀ e ∈ es, Above e c.entry)
    (hcall : s.call c = some s') : ∃ es', Holds es' s' ∧ (es' = es ∨ es' = es ++ [c.entry]) := by
  unfold InMemoryStore.call at hcall
  split at hcall
  next hok =>
    obtain rfl := Option.some.inj hcall
    rw [hok.checkpoint_eq]
    exact h.checkpoint habove trivial
  next => cases hcall

/-- **Run lemma**: after any calls that ascend above the entries. -/
theorem Holds.calls {calls : List CheckpointCall} (h : Holds es s)
    (hasc : (es ++ calls.map CheckpointCall.entry).Pairwise Above)
    (hrun : run InMemoryStore.call s calls = some s') :
    ∃ written, written.Sublist (calls.map CheckpointCall.entry) ∧ Holds (es ++ written) s' := by
  induction calls generalizing s es with
  | nil =>
    obtain rfl := Option.some.inj hrun
    exact ⟨[], List.Sublist.refl [], by rwa [List.append_nil]⟩
  | cons c calls ih =>
    obtain ⟨t, hcall, hrest⟩ := run_cons_eq_some hrun
    rw [List.map_cons] at hasc ⊢
    have habove : ∀ e ∈ es, Above e c.entry := fun e he =>
      (List.pairwise_append.mp hasc).2.2 e he _ List.mem_cons_self
    obtain ⟨es', hes', rfl | rfl⟩ := h.call habove hcall
    · -- dropped: the later calls still ascend above the entries
      have hlater := hasc.sublist
        ((List.Sublist.refl es').append (List.sublist_cons_self c.entry _))
      obtain ⟨written, hsub, hholds⟩ := ih hes' hlater hrest
      exact ⟨written, hsub.cons c.entry, hholds⟩
    · -- written: it stands behind the entries there are
      have hlater : (es ++ [c.entry] ++ calls.map CheckpointCall.entry).Pairwise Above := by
        rwa [List.append_assoc]
      obtain ⟨written, hsub, hholds⟩ := ih hes' hlater hrest
      rw [List.append_assoc] at hholds
      exact ⟨c.entry :: written, hsub.cons_cons c.entry, hholds⟩

end Calls

/-! ## Reloading -/

/-- The store has the entries `es` in memory; its file gives them back to a fresh store, and
    `Floor` finds them in both. -/
structure Reloads (es : List (Nat × Int)) (s : InMemoryStore) : Prop where
  offsets : s.offsets = es.map Prod.fst
  positions : s.positions = es.map Prod.snd
  fresh : ∀ nth, (newInMemoryStore s.indexFile nth).loadCheckpoints =
    { s with n := 0, nthIndex := nth }
  floor : ∀ x, IsFloor es x (s.floor x)
  freshFloor : ∀ nth x, IsFloor es x ((newInMemoryStore s.indexFile nth).loadCheckpoints.floor x)

section Reload

variable {es kept : List (Nat × Int)} {s : InMemoryStore}

/-- Memory and file agree, so the file gives back what is in memory. -/
theorem Holds.reloads (h : Holds es s) (hfields : ∀ e ∈ es, InFields e) : Reloads es s := by
  -- an ascending file is read back as it was written
  have hfresh : ∀ nth, (newInMemoryStore s.indexFile nth).loadCheckpoints =
      { s with n := 0, nthIndex := nth } := by
    intro nth
    rw [loadCheckpoints_of_file (s := newInMemoryStore s.indexFile nth) h.file h.ascending
      hfields, ← h.offsets, ← h.positions]
    rfl
  refine ⟨h.offsets, h.positions, hfresh, h.floor, fun nth x => ?_⟩
  rw [hfresh]
  exact h.floor x

/-- The entries of a file are values of the two types. -/
theorem inFields_of_front (h : IsFront Above (fileEntries s.indexFile) kept) :
    ∀ e ∈ kept, InFields e := by
  intro e he
  obtain ⟨i, -, rfl⟩ := List.mem_map.mp (h.isPrefix.subset he)
  exact entryAt_inFields s.indexFile i

/-- **Index reload law.**  On an index file of any content `LoadCheckpoints` keeps the longest
    prefix of entries that ascends in offset and position, cuts the file to exactly these,
    and changes nothing when it is called again.  After any calls of `Checkpoint` that return
    nil and ascend above the last entry kept, a fresh store on the file loads what is in
    memory, and `Floor` returns the greatest entry at or below any target. -/
theorem index_reload (s : InMemoryStore) :
    ∃ kept, IsFront Above (fileEntries s.indexFile) kept ∧
      s.loadCheckpoints.offsets = kept.map Prod.fst ∧
      s.loadCheckpoints.positions = kept.map Prod.snd ∧
      s.loadCheckpoints.indexFile = entriesBytes kept ∧
      s.loadCheckpoints.indexFile = s.indexFile.take (kept.length * indexEntryBytes) ∧
      s.loadCheckpoints.loadCheckpoints = s.loadCheckpoints ∧
      ∀ (calls : List CheckpointCall) (s' : InMemoryStore),
        (kept.getLast?.toList ++ calls.map CheckpointCall.entry).Pairwise Above →
        run InMemoryStore.call s.loadCheckpoints calls = some s' →
        ∃ written, written.Sublist (calls.map CheckpointCall.entry) ∧
          Reloads (kept ++ written) s' := by
  -- the load keeps the front part of the file that ascends
  have hfront := loadLoop_front s.indexFile
  set kept := InMemoryStore.loadLoop s.indexFile (s.indexFile.length / indexEntryBytes) 0 none
  have hholds := holds_loadCheckpoints hfront
  have hfields := inFields_of_front hfront
  refine ⟨kept, hfront, hholds.offsets, hholds.positions, hholds.file, rfl,
    hholds.loadCheckpoints hfields, fun calls s' hcalls hrun => ?_⟩
  obtain ⟨written, hsub, hwritten⟩ :=
    hholds.calls (ascending_append hfront.ascending hcalls) hrun
  refine ⟨written, hsub, hwritten.reloads fun e he => ?_⟩
  -- the entries that were added come from calls
  rcases List.mem_append.mp he with he | he
  · exact hfields e he
  · obtain ⟨c, -, rfl⟩ := List.mem_map.mp (hsub.subset he)
    exact c.entry_inFields

/-- Two entries, one that goes back, and three bytes of a torn one. -/
def damagedFile : Bytes := entriesBytes [(10, 100), (20, 200), (15, 150)] ++ [1, 2, 3]

/-- Four calls above the entry (20, 200). -/
def fourCalls : List CheckpointCall :=
  [⟨25, 300, .ok⟩, ⟨30, 400, .ok⟩, ⟨40, 500, .ok⟩, ⟨50, 600, .ok⟩]

/-- Two entries are kept, every second call adds one, and all four are loaded again. -/
theorem index_reload_damaged :
    ∃ s', run InMemoryStore.call (newInMemoryStore damagedFile 2).loadCheckpoints fourCalls =
        some s' ∧ s'.offsets = [10, 20, 30, 50] ∧
      (newInMemoryStore s'.indexFile 7).loadCheckpoints = { s' with n := 0, nthIndex := 7 } ∧
      s'.floor 45 = some (30, 400) := by
  obtain ⟨kept, -, hoff, hpos, -, -, -, hcalls⟩ := index_reload (newInMemoryStore damagedFile 2)
  -- the entry of the damaged file that goes back is dropped, with what follows
  have hfst : kept.map Prod.fst = [10, 20] := hoff.symm.trans (by decide +kernel)
  have hsnd : kept.map Prod.snd = [100, 200] := hpos.symm.trans (by decide +kernel)
  have hkept : kept = [(10, 100), (20, 200)] := List.zip_of_prod hfst hsnd
  obtain ⟨s', hrun, hoffsets, hfloor⟩ : ∃ s', run InMemoryStore.call
      (newInMemoryStore damagedFile 2).loadCheckpoints fourCalls = some s' ∧
      s'.offsets = [10, 20, 30, 50] ∧ s'.floor 45 = some (30, 400) :=
    ⟨_, rfl, by decide +kernel, by decide +kernel⟩
  obtain ⟨written, -, hreloads⟩ := hcalls fourCalls s' (by rw [hkept]; decide) hrun
  exact ⟨s', hrun, hoffsets, hreloads.fresh 7, hfloor⟩

end Reload

end EventLog.Wal
