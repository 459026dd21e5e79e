import EventLog.Lib.CrashDisk

/-!
# Consumer offsets

`internal/consumeroffset`: a consumer of the log writes down how far it got.
`OffsetWriter.Write` replaces the offset file at once, `BatchWrite` only when `nthOffset`
records have passed since the last flush.  `OffsetReader.Read` gives the offset to resume
from.

A consumer that crashes handles again what lies between the stored offset and its own, so
the distance of the two is what `BatchWrite` has to bound.  The writer measures it from
`previousOffset`, which is set before the flush is known to succeed.
-/

namespace EventLog.ConsumerOffset

open EventLog.Lib

/-! ## Reader and writer -/

/-- Why the offset file cannot be read. -/
inductive ReadError where
  | tooShort (length : Nat)
  deriving DecidableEq, Repr

/-- `OffsetReader.Read` on the bytes under the path; a missing file is offset 0. -/
def OffsetReader.read : Option Bytes → Except ReadError UInt64
  | none => .ok 0
  | some buf =>
    if buf.length < 8 then .error (.tooShort buf.length)
    else .ok (UInt64.ofNat (beNat (buf.take 8)))

/-- The bytes `PutUint64` stores. -/
def offsetBytes (offset : UInt64) : Bytes := beBytes 8 offset.toNat

/-- What is stored is read back. -/
theorem read_offsetBytes (offset : UInt64) :
    OffsetReader.read (some (offsetBytes offset)) = .ok offset := by
  have hlen : (offsetBytes offset).length = 8 := beBytes_length 8 offset.toNat
  have htake : (offsetBytes offset).take 8 = offsetBytes offset :=
    List.take_of_length_le (Nat.le_of_eq hlen)
  have hnat : beNat (offsetBytes offset) = offset.toNat := beNat_beBytes offset.toNat_lt
  simp [OffsetReader.read, hlen, htake, hnat]

structure OffsetWriter where
  nthOffset : UInt32
  previousOffset : UInt64
  deriving DecidableEq, Repr

/-- `NewOffsetWriter`: the offset already in the file is not looked at. -/
def newOffsetWriter (nthOffset : UInt32) : OffsetWriter := ⟨nthOffset, 0⟩

namespace OffsetWriter

def writeLocked (d : Disk) (offset : UInt64) (os : List WriteOutcome) : Disk × SaveResult :=
  d.perform (replaceCalls (offsetBytes offset)) os

/-- `BatchWrite`; the addition is that of `uint64`. -/
def batchWrite (w : OffsetWriter) (d : Disk) (offset : UInt64) (os : List WriteOutcome) :
    OffsetWriter × Disk × SaveResult :=
  if offset < w.previousOffset + w.nthOffset.toUInt64 then (w, d, .nil)
  else ({ w with previousOffset := offset }, writeLocked d offset os)

def write (w : OffsetWriter) (d : Disk) (offset : UInt64) (os : List WriteOutcome) :
    OffsetWriter × Disk × SaveResult :=
  (w, writeLocked d offset os)

end OffsetWriter

/-- What `OffsetReader.Read` makes of the bytes of a file. -/
def decodeOffset (bs : Bytes) : Option UInt64 := (OffsetReader.read (some bs)).toOption

theorem decode_offsetBytes (offset : UInt64) : decodeOffset (offsetBytes offset) = some offset := by
  rw [decodeOffset, read_offsetBytes]
  rfl

theorem writeLocked_atomically : SavesAtomically decodeOffset OffsetWriter.writeLocked :=
  fun _ _ offset os hinv hA => replace_saves (decode_offsetBytes offset) hinv hA os

/-- `Read` of a file that decodes to `r`; no file is offset 0. -/
theorem read_of_map_decode {c : Option Bytes} {r : Option UInt64}
    (h : c.map decodeOffset = r.map some) : OffsetReader.read c = .ok (r.getD 0) := by
  rcases map_decode_cases h with ⟨rfl, rfl⟩ | ⟨data, p, rfl, rfl, hdecode⟩
  · rfl
  · unfold decodeOffset at hdecode
    cases hread : OffsetReader.read (some data) with
    | error err =>
      rw [hread] at hdecode
      cases hdecode
    | ok q =>
      rw [hread] at hdecode
      exact congrArg Except.ok (Option.some.inj hdecode)

/-! ## Runs -/

/-- A consumer's writer and the disk its offset file is on. -/
structure Consumer where
  writer : OffsetWriter
  disk : Disk
  deriving DecidableEq, Repr

inductive Event where
  | batchWrite (offset : UInt64) (os : List WriteOutcome)
  | write (offset : UInt64) (os : List WriteOutcome)
  /-- A new process, with a new writer on the same path. -/
  | restart
  /-- The machine goes down; a new process follows. -/
  | crash (kept : List DirOp) (data : Nat → Bytes)

/-- The offset an event commits. -/
def Event.offset : Event → Option UInt64
  | .batchWrite offset _ => some offset
  | .write offset _ => some offset
  | .restart => none
  | .crash _ _ => none

namespace Consumer

def init (nthOffset : UInt32) : Consumer := ⟨newOffsetWriter nthOffset, Disk.empty⟩

/-- What a call of the writer leaves. -/
def after (r : OffsetWriter × Disk × SaveResult) : Consumer := ⟨r.1, r.2.1⟩

def step (s : Consumer) : Event → Option Consumer
  | .batchWrite offset os => some (after (s.writer.batchWrite s.disk offset os))
  | .write offset os => some (after (s.writer.write s.disk offset os))
  | .restart => some ⟨newOffsetWriter s.writer.nthOffset, s.disk⟩
  | .crash kept data =>
    if kept.Sublist s.disk.pending then
      some ⟨newOffsetWriter s.writer.nthOffset, s.disk.crash kept data⟩
    else none

end Consumer

/-! ## Nothing beyond the offsets committed so far -/

variable {nth : UInt32} {lo o : UInt64} {s s' : Consumer} {e : Event}

/-- The file holds an offset of at most `lo`. -/
def StoredLe (lo : UInt64) (c : Option Bytes) : Prop := ∃ p ≤ lo, OffsetReader.read c = .ok p

theorem StoredLe.mono {c : Option Bytes} (h : StoredLe lo c) (hlo : lo ≤ o) : StoredLe o c := by
  obtain ⟨p, hp, hread⟩ := h
  exact ⟨p, UInt64.le_trans hp hlo, hread⟩

theorem storedLe_offsetBytes (o : UInt64) : StoredLe o (some (offsetBytes o)) :=
  ⟨o, UInt64.le_refl o, read_offsetBytes o⟩

/-- Neither the file nor the writer is beyond `lo`, whatever a crash does. -/
structure Upto (nth : UInt32) (lo : UInt64) (s : Consumer) : Prop where
  disk : s.disk.Inv (StoredLe lo)
  previous : s.writer.previousOffset ≤ lo
  interval : s.writer.nthOffset = nth

theorem upto_init (nth : UInt32) : Upto nth 0 (Consumer.init nth) where
  disk := Disk.inv_empty ⟨0, UInt64.le_refl 0, rfl⟩
  previous := UInt64.le_refl 0
  interval := rfl

/-- A flush of `o`, whether it succeeds or not. -/
theorem writeLocked_storedLe {d : Disk} (h : d.Inv (StoredLe lo)) (hlo : lo ≤ o)
    (os : List WriteOutcome) : (OffsetWriter.writeLocked d o os).1.Inv (StoredLe o) :=
  (replace_triple (storedLe_offsetBytes o) d os (h.mono fun _ hc => hc.mono hlo)).1

/-- A flush that returned nil stored its offset. -/
theorem writeLocked_nil {d : Disk} {os : List WriteOutcome} (h : d.Inv (StoredLe o))
    (hnil : (OffsetWriter.writeLocked d o os).2 = .nil) :
    OffsetReader.read (OffsetWriter.writeLocked d o os).1.content = .ok o := by
  have hplaced := (replace_triple (storedLe_offsetBytes o) d os h).2 hnil
  have hcontent : (OffsetWriter.writeLocked d o os).1.content = some (offsetBytes o) :=
    hplaced.content
  rw [hcontent, read_offsetBytes]

theorem Upto.mono (h : Upto nth lo s) (hlo : lo ≤ o) : Upto nth o s where
  disk := h.disk.mono fun _ hc => hc.mono hlo
  previous := UInt64.le_trans h.previous hlo
  interval := h.interval

/-- **Step lemma**: after an event nothing is beyond the offset it committed. -/
theorem Upto.step (h : Upto nth lo s) (he : ∀ o ∈ e.offset, lo ≤ o)
    (hstep : s.step e = some s') : Upto nth (e.offset.getD lo) s' := by
  have hnew : newOffsetWriter s.writer.nthOffset = newOffsetWriter nth := by rw [h.interval]
  cases e with
  | batchWrite o os =>
    have hlo := he o rfl
    obtain rfl := Option.some.inj hstep
    unfold OffsetWriter.batchWrite
    -- an offset within the interval is not written at all
    split
    · exact h.mono hlo
    · exact ⟨writeLocked_storedLe h.disk hlo os, UInt64.le_refl o, h.interval⟩
  | write o os =>
    have hlo := he o rfl
    obtain rfl := Option.some.inj hstep
    exact ⟨writeLocked_storedLe h.disk hlo os, UInt64.le_trans h.previous hlo, h.interval⟩
  -- a new writer has written nothing yet, and the file stays as it was
  | restart =>
    obtain rfl := Option.some.inj hstep
    rw [hnew]
    exact ⟨h.disk, UInt64.zero_le, rfl⟩
  | crash kept data =>
    simp only [Consumer.step] at hstep
    split at hstep
    next hkept =>
      obtain rfl := Option.some.inj hstep
      rw [hnew]
      exact ⟨h.disk.crash hkept data, UInt64.zero_le, rfl⟩
    next => cases hstep

/-! ## The distance from the stored offset -/

/-- The offsets of a list of calls. -/
def offsets (es : List Event) : List UInt64 := es.filterMap Event.offset

/-- When `BatchWrite` returned nil the stored offset is less than `nth` behind. -/
def Bounded (nth : UInt32) (s : Consumer) : Event → Consumer → Prop
  | .batchWrite o os, s' =>
    (s.writer.batchWrite s.disk o os).2.2 = .nil → ∃ p, OffsetReader.read s'.disk.content = .ok p ∧
      p ≤ o ∧ o.toNat - p.toNat < nth.toNat
  | _, _ => True

/-- The flush recorded last is in the file; or, if it failed, the call commits less than
    `nth` beyond the file or at least `nth` beyond the failed flush. -/
def FlushKnown (nth : UInt32) (s : Consumer) : Event → Prop
  | .batchWrite o _ =>
    match OffsetReader.read s.disk.content with
    | .ok p =>
      s.writer.previousOffset ≤ p ∨ o.toNat < p.toNat + nth.toNat ∨
        s.writer.previousOffset.toNat + nth.toNat ≤ o.toNat
    | .error _ => False
  | _ => True

instance (nth : UInt32) (s : Consumer) (e : Event) : Decidable (FlushKnown nth s e) := by
  cases e with
  | batchWrite o os =>
    unfold FlushKnown
    cases OffsetReader.read s.disk.content <;> infer_instance
  | write o os => exact isTrue trivial
  | restart => exact isTrue trivial
  | crash kept data => exact isTrue trivial

/-- The call comes after everything committed so far, and its threshold does not wrap. -/
def InOrder (nth : UInt32) (s : Consumer) (e : Event) : Prop :=
  ∃ lo, Upto nth lo s ∧ ∀ o ∈ e.offset, lo ≤ o ∧ o.toNat + nth.toNat < 2 ^ 64

/-- Non-decreasing offsets: every call of the run comes in order. -/
theorem along_inOrder {es : List Event} (h : Upto nth lo s)
    (hsorted : (offsets es).Pairwise (· ≤ ·)) (hlo : ∀ o ∈ offsets es, lo ≤ o)
    (hwrap : ∀ o ∈ offsets es, o.toNat + nth.toNat < 2 ^ 64) :
    Along Consumer.step (InOrder nth) s es := by
  -- on the events: what one step leaves is the start of the rest
  induction es generalizing s lo with
  | nil => trivial
  | cons e es ih =>
    have hmem : ∀ o ∈ e.offset, o ∈ offsets (e :: es) := fun o ho =>
      List.mem_filterMap.mpr ⟨e, List.mem_cons_self, ho⟩
    have hrest : ∀ o ∈ offsets es, o ∈ offsets (e :: es) := fun o ho => by
      obtain ⟨e', he', ho'⟩ := List.mem_filterMap.mp ho
      exact List.mem_filterMap.mpr ⟨e', List.mem_cons_of_mem e he', ho'⟩
    refine ⟨⟨lo, h, fun o ho => ⟨hlo o (hmem o ho), hwrap o (hmem o ho)⟩⟩, fun s' hs' => ?_⟩
    refine ih (h.step (fun o ho => hlo o (hmem o ho)) hs') ?_ ?_ fun o ho => hwrap o (hrest o ho)
    · unfold offsets at hsorted ⊢
      cases ho : e.offset with
      | none => rwa [List.filterMap_cons_none ho] at hsorted
      | some o =>
        rw [List.filterMap_cons_some ho] at hsorted
        exact hsorted.tail
    · -- the offsets that follow are not below the one just written
      intro o' ho'
      cases ho : e.offset with
      | none => exact hlo o' (hrest o' ho')
      | some o =>
        unfold offsets at hsorted
        rw [List.filterMap_cons_some ho] at hsorted
        exact List.rel_of_pairwise_cons hsorted ho'

/-- The comparison of `BatchWrite`, when the addition does not wrap. -/
theorem lt_threshold_iff {w : OffsetWriter} (hprev : w.previousOffset ≤ o)
    (hwrap : o.toNat + w.nthOffset.toNat < 2 ^ 64) :
    o < w.previousOffset + w.nthOffset.toUInt64 ↔
      o.toNat < w.previousOffset.toNat + w.nthOffset.toNat := by
  have hle := UInt64.le_iff_toNat_le.mp hprev
  rw [UInt64.lt_iff_toNat_lt, UInt64.toNat_add, UInt32.toNat_toUInt64, Nat.mod_eq_of_lt (by omega)]

/-- **Step lemma**: a call in order keeps the bound exactly when the flush recorded last is
    accounted for. -/
theorem bounded_iff (hnth : 1 ≤ nth.toNat) (hF : InOrder nth s e) (hstep : s.step e = some s') :
    Bounded nth s e s' ↔ FlushKnown nth s e := by
  cases e with
  | batchWrite o os =>
    obtain ⟨lo, h, hoffset⟩ := hF
    obtain ⟨hlo, hwrap⟩ := hoffset o rfl
    -- the file holds some offset up to `o`, however old
    obtain ⟨p, hple, hread⟩ := h.disk.content
    have hpo := UInt64.le_iff_toNat_le.mp (UInt64.le_trans hple hlo)
    have hprev := UInt64.le_trans h.previous hlo
    rw [← h.interval] at hwrap hnth ⊢
    have hlt := lt_threshold_iff hprev hwrap
    obtain rfl := Option.some.inj hstep
    simp only [Bounded, FlushKnown, hread]
    unfold OffsetWriter.batchWrite
    split
    next hskip =>
      -- nothing is written, and the file is as far behind as it was
      have hskip' := hlt.mp hskip
      constructor
      · intro hbound
        obtain ⟨q, hq, hqo, hdist⟩ := hbound rfl
        obtain rfl : p = q := Except.ok.inj (hread.symm.trans hq)
        exact Or.inr (Or.inl (by omega))
      · intro hknown _
        refine ⟨p, hread, UInt64.le_iff_toNat_le.mpr hpo, ?_⟩
        rcases hknown with hknown | hknown | hknown
        · have hle := UInt64.le_iff_toNat_le.mp hknown
          omega
        · omega
        · omega
    -- what is written is the offset itself, so nothing is behind
    next hflush =>
      have hflush' := mt hlt.mpr hflush
      refine ⟨fun _ => Or.inr (Or.inr (by omega)), fun _ hnil => ⟨o, ?_, UInt64.le_refl o, ?_⟩⟩
      · exact writeLocked_nil (h.disk.mono fun _ hc => hc.mono hlo) hnil
      · omega
  | write o os => exact Iff.rfl
  | restart => exact Iff.rfl
  | crash kept data => exact Iff.rfl

/-- **The re-processing bound**: with non-decreasing offsets, each `BatchWrite` of a run that
    returns nil leaves a stored offset less than `nth` behind its own exactly when no call
    falls into the gap that a failed flush left in the writer's account. -/
theorem reprocessing_bound_iff (nth : UInt32) (hnth : 1 ≤ nth.toNat) (es : List Event)
    (hsorted : (offsets es).Pairwise (· ≤ ·))
    (hwrap : ∀ o ∈ offsets es, o.toNat + nth.toNat < 2 ^ 64)
    {s : Consumer} (hrun : run Consumer.step (Consumer.init nth) es = some s) :
    (∀ es₁ e s₁ s₂, es₁ ++ [e] <+: es → run Consumer.step (Consumer.init nth) es₁ = some s₁ →
      s₁.step e = some s₂ → Bounded nth s₁ e s₂) ↔
      Along Consumer.step (FlushKnown nth) (Consumer.init nth) es :=
  run_steps_iff (I := fun _ => True)
    (fun _ _ _ _ hF hP hstep => ⟨trivial, (bounded_iff hnth hF hstep).mpr hP⟩)
    (fun _ _ _ _ hF hnot hstep hR => hnot ((bounded_iff hnth hF hstep).mp hR)) trivial
    (along_inOrder (upto_init nth) hsorted (fun _ _ => UInt64.zero_le) hwrap) hrun

/-- All calls of a save return. -/
def allOk : List WriteOutcome := List.replicate 6 .ok

/-- A flush of offset 13 fails in its write and is made up for at 18; a crash follows. -/
def madeUp : List Event :=
  [.batchWrite 8 allOk, .batchWrite 13 [.ok, .failed 3], .batchWrite 18 allOk,
    .crash [] fun _ => [], .batchWrite 19 allOk]

theorem reprocessing_bound_madeUp :
    ∃ s, run Consumer.step (Consumer.init 5) madeUp = some s ∧
      ∀ es₁ e s₁ s₂, es₁ ++ [e] <+: madeUp →
        run Consumer.step (Consumer.init 5) es₁ = some s₁ → s₁.step e = some s₂ →
        Bounded 5 s₁ e s₂ := by
  have hwrap : ∀ o ∈ offsets madeUp, o.toNat + (5 : UInt32).toNat < 2 ^ 64 := by
    intro o ho
    -- all offsets of the run are small
    have ho' : o ∈ [(8 : UInt64), 13, 18, 19] := ho
    simp only [List.mem_cons, List.not_mem_nil, or_false] at ho'
    rcases ho' with rfl | rfl | rfl | rfl <;> decide
  exact ⟨_, rfl, (reprocessing_bound_iff 5 (by decide) madeUp (by decide) hwrap rfl).mpr
    (by decide)⟩

/-- A failed flush of offset 10 counts as the last one: `BatchWrite(12)` returns nil, and
    nothing is stored. -/
theorem reprocessing_bound_failedFlush :
    ∃ s₁ s₂, run Consumer.step (Consumer.init 5) [.batchWrite 10 [.failed 0]] = some s₁ ∧
      s₁.step (.batchWrite 12 allOk) = some s₂ ∧
      (s₁.writer.batchWrite s₁.disk 12 allOk).2.2 = .nil ∧
      OffsetReader.read s₂.disk.content = .ok 0 ∧ ¬ Bounded 5 s₁ (.batchWrite 12 allOk) s₂ := by
  refine ⟨_, _, rfl, rfl, by decide, rfl, fun h => ?_⟩
  obtain ⟨p, hp, _, hdist⟩ := h (by decide)
  obtain rfl : p = 0 := (Except.ok.inj hp).symm
  exact absurd hdist (by decide)

end EventLog.ConsumerOffset
