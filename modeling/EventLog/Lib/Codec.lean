import EventLog.Lib.Bytes

/-!
# Exact codecs on byte streams

A writer gives the bytes of a value.  A reader takes one value from the front of a stream
and leaves the rest, or fails.  The two are exact for the values that fit when the reader
gives back what the writer wrote, whatever follows it, and takes nothing else:

* `ExactCodec.readMany_flatMap`: a sequence of values is read back in order.
* `ExactCodec.truncated`: from a part of the bytes of a value nothing is read.
* `ExactCodec.map`: the same bytes, another type of values.
-/

namespace EventLog.Lib

variable {α β ε : Type*}

/-- Take `n` values from a stream; the first failure ends it. -/
def readMany (read : Bytes → Except ε α × Bytes) : Nat → Bytes → Except ε (List α) × Bytes
  | 0, bs => (.ok [], bs)
  | n + 1, bs =>
    match read bs with
    | (.error e, rest) => (.error e, rest)
    | (.ok a, rest) =>
      match readMany read n rest with
      | (.error e, rest) => (.error e, rest)
      | (.ok as, rest) => (.ok (a :: as), rest)

/-- The values of a stream up to the first failure. -/
def readAll (read : Bytes → Except ε α × Bytes) : Nat → Bytes → List α
  | 0, _ => []
  | fuel + 1, bs =>
    match read bs with
    | (.error _, _) => []
    | (.ok a, rest) => a :: readAll read fuel rest

theorem readAll_of_ok {read : Bytes → Except ε α × Bytes} {bs rest : Bytes} {a : α} (fuel : Nat)
    (h : read bs = (.ok a, rest)) :
    readAll read (fuel + 1) bs = a :: readAll read fuel rest := by
  rw [readAll, h]

/-- Reading and writing are inverse to each other for the values that fit. -/
structure ExactCodec (write : α → Bytes) (read : Bytes → Except ε α × Bytes)
    (Fits : α → Prop) : Prop where
  readBack : ∀ a rest, Fits a → read (write a ++ rest) = (.ok a, rest)
  consumed : ∀ bs a rest, read bs = (.ok a, rest) → Fits a ∧ bs = write a ++ rest

namespace ExactCodec

variable {write : α → Bytes} {read : Bytes → Except ε α × Bytes} {Fits : α → Prop}

/-- **Run lemma**: a sequence of values is read back in order, and what follows is left. -/
theorem readMany_flatMap (h : ExactCodec write read Fits) (as : List α) (rest : Bytes)
    (has : ∀ a ∈ as, Fits a) :
    readMany read as.length (as.flatMap write ++ rest) = (.ok as, rest) := by
  induction as with
  | nil => rfl
  | cons a as ih =>
    have ha := h.readBack a (as.flatMap write ++ rest) (has a List.mem_cons_self)
    have has' := ih fun b hb => has b (List.mem_cons_of_mem a hb)
    simp only [List.flatMap_cons, List.append_assoc, List.length_cons, readMany, ha, has']

/-- From a part of the bytes of a value nothing is read: it would be the value itself. -/
theorem truncated (h : ExactCodec write read Fits) {a : α} {bs : Bytes} (ha : Fits a)
    (hpre : bs <+: write a) (hne : bs ≠ write a) : ∃ e rest, read bs = (.error e, rest) := by
  cases hread : read bs with
  | mk result rest =>
    cases result with
    | error e => exact ⟨e, rest, rfl⟩
    | ok b =>
      exfalso
      obtain ⟨hb, hbs⟩ := h.consumed bs b rest hread
      obtain ⟨more, hmore⟩ := hpre
      -- the whole bytes are read as both values
      have hread₁ := h.readBack a [] ha
      have hread₂ := h.readBack b (rest ++ more) hb
      rw [← List.append_assoc, ← hbs, hmore] at hread₂
      rw [List.append_nil, hread₂] at hread₁
      have hnil := (List.append_eq_nil_iff.mp (Prod.mk.inj hread₁).2).2
      rw [hnil, List.append_nil] at hmore
      exact hne hmore

/-- The same bytes, read as values of another type. -/
theorem map {read' : Bytes → Except ε β × Bytes} (h : ExactCodec write read Fits)
    (e : β → α)
    (hread : ∀ bs b rest, read' bs = (.ok b, rest) ↔ read bs = (.ok (e b), rest)) :
    ExactCodec (fun b => write (e b)) read' (fun b => Fits (e b)) where
  readBack b rest hb := (hread _ b rest).mpr (h.readBack (e b) rest hb)
  consumed bs b rest hb := h.consumed bs (e b) rest ((hread bs b rest).mp hb)

end ExactCodec

end EventLog.Lib
