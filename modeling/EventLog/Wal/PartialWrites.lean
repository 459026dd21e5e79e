import EventLog.Lib.Run
import EventLog.Wal.Sessions
import EventLog.Wal.Walk

/-!
# Writes that fail half way

`Reserve` appends to an `O_APPEND` file and returns an error when the write fails; what
the write left behind stays in the file, while `size`, `nextOffset` and the positions of
later checkpoints do not count it.  The next `Reserve` then puts its record behind the
torn bytes and acknowledges an offset at which the reader finds those bytes.

Nothing is lost as long as no `Reserve` writes a byte while the file is longer than `size`:
`NewWalWriter` truncates the torn bytes.
-/

namespace EventLog.Wal

open EventLog.Lib

/-- What happens to a log over several sessions. -/
inductive SessionEvent where
  | log (e : LogEvent)
  /-- `Close`, then `NewWalWriter`. -/
  | restart (syncOk : Bool) (idx : Nat → WriteOutcome)

/-- One step; `none` when the event is not enabled. -/
def OpenLog.sessionStep (cs : Checksum) (w : OpenLog) : SessionEvent → Option OpenLog
  | .log e => w.step cs e
  | .restart syncOk idx =>
    match w.restart cs syncOk idx with
    | .error _ => none
    | .ok w' => some w'

/-- The index writes of the event happen as a whole or not at all. -/
def SessionEvent.AtomicIndex : SessionEvent → Prop
  | .log e => e.AtomicIndex
  | .restart _ idx => ∀ x, (idx x).Atomic

/-- A `Reserve` that writes a byte does so at `size`, where the next record is expected. -/
def WritesAtSize (cs : Checksum) (w : OpenLog) : SessionEvent → Prop
  | .log (.reserve data o) =>
    (w.reserve cs data o).1.writer.file ≠ w.writer.file → w.writer.file.length = w.writer.size
  | _ => True

instance (cs : Checksum) (w : OpenLog) : DecidablePred (WritesAtSize cs w)
  | .log (.reserve data o) => inferInstanceAs
      (Decidable ((w.reserve cs data o).1.writer.file ≠ w.writer.file → _))
  | .log (.pass _) | .log (.syncReturn ..) | .log (.relock ..) | .restart .. =>
    inferInstanceAs (Decidable True)

variable {cs : Checksum} {w w' : OpenLog}

/-- The file ends at `size` exactly when it has no torn tail. -/
theorem LogInv.tail_eq_nil {n₀ : Nat} {recs : List Bytes} {tail : Bytes} {cps : List Nat}
    (h : LogInv cs n₀ recs tail cps w) (heq : w.writer.file.length = w.writer.size) :
    tail = [] := by
  rw [h.file, h.size, List.length_append] at heq
  exact List.length_eq_zero_iff.mp (by omega)

/-- A `Reserve` that writes finds a clean end of the file. -/
theorem LogInv.clean_of_writesAtSize {n₀ : Nat} {recs : List Bytes} {tail : Bytes}
    {cps : List Nat} {e : LogEvent} (h : LogInv cs n₀ recs tail cps w)
    (hend : WritesAtSize cs w (.log e)) (hstep : w.step cs e = some w') :
    ∀ data o, e = .reserve data o → w'.writer.file ≠ w.writer.file → tail = [] := by
  rintro data o rfl hwrites
  obtain rfl := Option.some.inj hstep
  exact h.tail_eq_nil (hend hwrites)

/-! ## Reservations -/

/-- What `Reserve` returns in a step of the writer: an offset, for the payload. -/
def OpenLog.newlyReserved (cs : Checksum) (w : OpenLog) : LogEvent → List (Nat × Bytes)
  | .reserve data o =>
    match (w.reserve cs data o).2 with
    | .ok (offset, _) => [(offset, data)]
    | .error _ => []
  | _ => []

/-- A step reserves nothing, or the next offset for the payload of a `Reserve`. -/
theorem newlyReserved_cases (cs : Checksum) (w : OpenLog) (e : LogEvent) :
    w.newlyReserved cs e = [] ∨ ∃ data o, e = .reserve data o ∧
      w.newlyReserved cs e = [(w.writer.nextOffset, data)] := by
  cases e with
  | reserve data o =>
    have hout := reserve_outcome cs w.writer data o
    simp only [OpenLog.newlyReserved, OpenLog.reserve]
    generalize w.writer.reserve cs data o = out at hout
    obtain ⟨writer, result⟩ := out
    -- only a record that is written takes an offset
    cases hout with
    | tooLarge _ => exact Or.inl rfl
    | failed m _ _ _ => exact Or.inl rfl
    | reserved _ _ => exact Or.inr ⟨data, o, rfl, rfl⟩
  | pass k | syncReturn k ok | relock k idx => exact Or.inl rfl

/-- `NextOffset` counts what is reserved. -/
theorem nextOffset_step {e : LogEvent} (h : w.step cs e = some w') :
    w'.writer.nextOffset = w.writer.nextOffset + (w.newlyReserved cs e).length := by
  cases e with
  | reserve data o =>
    obtain rfl := Option.some.inj h
    have hout := reserve_outcome cs w.writer data o
    simp only [OpenLog.reserve, OpenLog.newlyReserved]
    generalize w.writer.reserve cs data o = out at hout
    obtain ⟨writer, result⟩ := out
    cases hout with
    | tooLarge _ => rfl
    | failed m _ _ _ => rfl
    | reserved _ _ => rfl
  | pass k =>
    cases step_logTransition h with
    | commitFailed | committed | waited | led => rfl
  | syncReturn k ok =>
    cases step_logTransition h with
    | syncReturned => rfl
  | relock k idx =>
    cases step_logTransition h with
    | relocked _ c target ok _ hk hpc =>
      -- only a flush that succeeded drains the pending list
      cases ok with
      | false => rfl
      | true =>
        simp only [WALWriter.finishSync_true]
        rfl

/-- **Step lemma**: the log holds what was reserved. -/
theorem LogInv.addReserved {n₀ : Nat} {recs ds : List Bytes} {tail : Bytes} {cps : List Nat}
    {e : LogEvent} (h : LogInv cs n₀ recs tail cps w) (hidx : e.AtomicIndex)
    (hend : ∀ data o, e = .reserve data o → w'.writer.file ≠ w.writer.file → tail = [])
    (ht : LogTransition cs w e w')
    (hds : ds = [] ∨ ∃ data o, e = .reserve data o ∧ ds = [data])
    (hnext : w'.writer.nextOffset = w.writer.nextOffset + ds.length) :
    ∃ tail' cps', LogInv cs n₀ (recs ++ ds) tail' cps' w' ∧
      (tail = [] → e.Atomic → tail' = []) := by
  obtain ⟨recs', tail', cps', h', hrecs, htail⟩ := h.step ht hidx hend
  refine ⟨tail', cps', ?_, htail⟩
  -- the records are counted by `nextOffset`
  rw [h.next, h'.next] at hnext
  -- as many offsets as records, so both lists are empty or both have the record
  rcases hrecs with rfl | ⟨data, o, rfl, rfl⟩
  · have hnil : ds = [] := List.length_eq_zero_iff.mp (by omega)
    rwa [hnil, List.append_nil]
  · rcases hds with rfl | ⟨data', o', heq, rfl⟩
    · rw [List.length_append, List.length_singleton, List.length_nil] at hnext
      omega
    · injection heq with hdata
      rwa [← hdata]

/-! ## Runs -/

/-- **Step lemma over sessions.** -/
theorem LogInv.sessionStep {n₀ : Nat} {recs : List Bytes} {tail : Bytes} {cps : List Nat}
    {e : SessionEvent} (h : LogInv cs n₀ recs tail cps w) (hidx : e.AtomicIndex)
    (hend : WritesAtSize cs w e) (hstep : w.sessionStep cs e = some w') :
    (∃ n₀' recs' tail' cps', LogInv cs n₀' recs' tail' cps' w') ∧
      w.acked.Sublist w'.acked := by
  cases e with
  -- a write that fails leaves its bytes behind, but none is written after them
  | log e =>
    have ht := step_logTransition hstep
    obtain ⟨recs', tail', cps', h', -⟩ := h.step ht hidx (h.clean_of_writesAtSize hend hstep)
    exact ⟨⟨n₀, recs', tail', cps', h'⟩, ht.acked_sublist⟩
  -- the restart cuts the torn bytes off
  | restart syncOk idx =>
    obtain ⟨cps', w'', hopen, hacked, -, h'⟩ := h.restart syncOk hidx
    rw [OpenLog.sessionStep, hopen] at hstep
    obtain rfl := Option.some.inj hstep
    exact ⟨⟨_, recs, [], cps', h'⟩, by rw [hacked]⟩

/-- **When a failed write does no damage.**  In every run of sessions in which no `Reserve`
    writes behind what a failed write left, every acknowledged record is read back in every
    later state, and the log can be closed and opened again. -/
theorem acked_readable_of_writesAtSize (cs : Checksum) (es es' : List SessionEvent)
    {w₁ w₂ : OpenLog} (hidx : ∀ e ∈ es ++ es', e.AtomicIndex)
    (hend : Along (OpenLog.sessionStep cs) (WritesAtSize cs) OpenLog.empty es)
    (hend' : Along (OpenLog.sessionStep cs) (WritesAtSize cs) w₁ es')
    (hrun : run (OpenLog.sessionStep cs) OpenLog.empty es = some w₁)
    (hrun' : run (OpenLog.sessionStep cs) w₁ es' = some w₂) :
    (∀ o d, (o, d) ∈ w₁.acked → readAt cs w₂.writer.file w₂.writer.store o = .ok d) ∧
      ∀ syncOk idx, (∀ x, (idx x).Atomic) → ∃ w₃, w₂.restart cs syncOk idx = .ok w₃ := by
  -- the invariant with the acknowledgements since `v`, for either part of the run
  have hstep : ∀ {v : OpenLog} (t : OpenLog) (e : SessionEvent) (t' : OpenLog),
      ((∃ n₀ recs tail cps, LogInv cs n₀ recs tail cps t) ∧ v.acked.Sublist t.acked) →
      (e.AtomicIndex ∧ WritesAtSize cs t e) → t.sessionStep cs e = some t' →
      (∃ n₀ recs tail cps, LogInv cs n₀ recs tail cps t') ∧ v.acked.Sublist t'.acked := by
    rintro v t e t' ⟨⟨n₀, recs, tail, cps, h⟩, hsub⟩ ⟨hidx, hend⟩ hstep
    obtain ⟨hinv, hsub'⟩ := h.sessionStep hidx hend hstep
    exact ⟨hinv, hsub.trans hsub'⟩
  obtain ⟨h₁, -⟩ := run_invariant hstep ⟨⟨_, _, _, _, LogInv.empty cs⟩, List.Sublist.refl _⟩
    ((along_of_forall fun e he => hidx e (List.mem_append_left _ he)).and hend) hrun
  obtain ⟨⟨n₀, recs, tail, cps, h₂⟩, hsub⟩ := run_invariant hstep ⟨h₁, List.Sublist.refl _⟩
    ((along_of_forall fun e he => hidx e (List.mem_append_right _ he)).and hend') hrun'
  refine ⟨fun o d hod => ?_, fun syncOk idx hatomic => ?_⟩
  · rw [h₂.file]
    exact readAt_eq tail h₂.index h₂.max_le (h₂.acked o d (hsub.subset hod)).1
  · obtain ⟨cps', w₃, hopen, -⟩ := h₂.restart syncOk hatomic
    exact ⟨w₃, hopen⟩

/-- A write that fails after one byte. -/
def failOne : SessionEvent := .log (.reserve [7] (.failed 1))

/-- A record that is written and acknowledged. -/
def ackEight : List SessionEvent :=
  [.log (.reserve [8] .ok), .log (.pass 0), .log (.syncReturn 0 true),
    .log (.relock 0 fun _ => .ok), .log (.pass 0)]

/-- With a restart in between the record is read back. -/
theorem acked_readable_after_restart : ∃ w₁ w₂,
    run (OpenLog.sessionStep byteSum) OpenLog.empty
        ([failOne, .restart true fun _ => .ok] ++ ackEight) = some w₁ ∧
      run (OpenLog.sessionStep byteSum) w₁ [.restart true fun _ => .ok] = some w₂ ∧
      (0, [8]) ∈ w₁.acked ∧ readAt byteSum w₂.writer.file w₂.writer.store 0 = .ok [8] := by
  refine ⟨_, _, rfl, rfl, by decide, ?_⟩
  refine (acked_readable_of_writesAtSize byteSum
    ([failOne, .restart true fun _ => .ok] ++ ackEight) [.restart true fun _ => .ok] ?_
    (by decide) (by decide) rfl rfl).1 0 [8] (by decide)
  simp [failOne, ackEight, SessionEvent.AtomicIndex, LogEvent.AtomicIndex, WriteOutcome.Atomic]

/-- Without one, the record lands behind the byte the failed write left: it is acknowledged
    at offset 0, and reading offset 0 fails, also after closing and opening the log. -/
theorem acked_unreadable_after_failedWrite : ∃ w w',
    run (OpenLog.sessionStep byteSum) OpenLog.empty (failOne :: ackEight) = some w ∧
      (0, [8]) ∈ w.acked ∧
      readAt byteSum w.writer.file w.writer.store 0 =
        .error (.corruption ⟨0, [1], [0], .checksumMismatch 0⟩) ∧
      run (OpenLog.sessionStep byteSum) w [.restart true fun _ => .ok] = some w' ∧
      readAt byteSum w'.writer.file w'.writer.store 0 =
        .error (.corruption ⟨0, [1], [0], .checksumMismatch 0⟩) :=
  ⟨_, _, rfl, by decide, by decide, rfl, by decide⟩

end EventLog.Wal
