import EventLog.Network.Server
import EventLog.Segment.Contiguity

/-!
# Corruption and the end of a stream

A stream ends with `StatusStreamEnd` when a read fails with `io.EOF`, which is meant to
say that the consumer is caught up.  There are three other ways to `io.EOF`: an altered
length leads the reader past the end of the file, where the next header is not there or,
wrapped, the payload of the record that is read; and a segment that recovery has cut short
because of an altered length no longer owns an offset, while a later segment goes on
behind it.

The end of a stream below `NextOffset` is exactly one of these.  Nothing is assumed of the
log: its files may have been altered before or after it was opened.
-/

namespace EventLog.Network

open EventLog.Lib
open EventLog.Wal
open EventLog.Segments

variable {cs : Checksum} {m : Manager}

/-! ## When a read ends with `io.EOF` -/

/-- Offset `x` is answered otherwise than with `io.EOF` if it is below `NextOffset`: the
    segment that owns it leads to a record or to a reason to fail, or no segment owns it
    because it lies below the first one. -/
def Leads (cs : Checksum) (m : Manager) (x : Nat) : Prop :=
  x < m.nextOffset →
    (∃ s ∈ m.segmentFor x, Arrives cs s.log.writer.file s.log.writer.store (x - s.baseOffset)) ∨
      m.segmentFor x = none ∧ x < m.earliestOffset

instance (cs : Checksum) (m : Manager) (x : Nat) : Decidable (Leads cs m x) :=
  inferInstanceAs (Decidable (x < m.nextOffset → (∃ s ∈ m.segmentFor x, _) ∨ _))

/-- A read of the manager failed with `io.EOF`. -/
def EndsEOF (cs : Checksum) (m : Manager) (x : Nat) : Prop :=
  ∃ e, m.readAt cs x = .error e ∧ e.isEOF = true

/-- What a segment answers for an offset it owns. -/
theorem segment_endsEOF_iff {s : Segment} {x : Nat} (hcont : s.contains x = true) :
    (∃ e, s.readAt cs x = .error e ∧ e.isEOF = true) ↔
      ¬Arrives cs s.log.writer.file s.log.writer.store (x - s.baseOffset) := by
  rw [Segment.contains, Bool.and_eq_true, decide_eq_true_iff] at hcont
  rw [← readAt_endsEOF_iff, Segment.readAt, if_neg (Nat.not_lt.mpr hcont.1)]
  cases Wal.readAt cs s.log.writer.file s.log.writer.store (x - s.baseOffset) with
  | error e => simp [endsEOF, ReadAtError.isEOF]
  | ok data => simp [endsEOF]

/-- The three ways to `io.EOF`: the walk in the owner's file runs out, with the next header
    or with the payload missing, or there is no owner. -/
theorem endsEOF_iff (cs : Checksum) (m : Manager) (x : Nat) :
    EndsEOF cs m x ↔
      (∃ s ∈ m.segmentFor x,
        ¬Arrives cs s.log.writer.file s.log.writer.store (x - s.baseOffset)) ∨
        m.segmentFor x = none ∧ m.earliestOffset ≤ x := by
  rw [EndsEOF, Manager.readAt]
  cases hseg : m.segmentFor x with
  | none =>
    simp only [Option.mem_def, reduceCtorEq, false_and, exists_false, false_or, true_and]
    -- below the first segment the offset is reported as out of retention
    by_cases hlow : x < m.earliestOffset
    · simp [hlow, ReadAtError.isEOF]
    · simp [hlow, ReadAtError.isEOF, ReadError.isEOF, Nat.not_lt.mp hlow]
  | some s =>
    obtain ⟨-, hcont⟩ := of_segmentFor hseg
    simp only [segment_endsEOF_iff hcont, Option.mem_def, Option.some.injEq, exists_eq_left',
      reduceCtorEq, false_and, or_false]

/-- **When a read says "caught up" too early.** -/
theorem endsEOF_caughtUp_iff (cs : Checksum) (m : Manager) (x : Nat) :
    (EndsEOF cs m x → m.nextOffset ≤ x) ↔ Leads cs m x := by
  rw [endsEOF_iff, Leads]
  cases m.segmentFor x with
  | none =>
    simp only [Option.mem_def, reduceCtorEq, false_and, exists_false, false_or, true_and]
    omega
  | some s =>
    simp only [Option.mem_def, Option.some.injEq, exists_eq_left', reduceCtorEq, false_and,
      or_false]
    rw [← Nat.not_lt, not_imp_not]

/-- A log whose files nobody altered leads everywhere. -/
theorem leads_of_run {cfg : Config} {mtime : Int} {es : List Event} {sys₀ sys : System}
    (hinit : System.init cs cfg mtime = some sys₀) (hatomic : ∀ e ∈ es, e.Atomic)
    (hkeep : Along (System.step cs) KeepsSealed sys₀ es)
    (hrun : run (System.step cs) sys₀ es = some sys) (x : Nat) : Leads cs sys.manager x := by
  obtain ⟨hinv, hc⟩ := contiguous_of_run hinit hatomic hkeep hrun
  refine (endsEOF_caughtUp_iff cs sys.manager x).mp fun hend => ?_
  by_contra hlt
  rcases Nat.lt_or_ge x sys.manager.earliestOffset with hlow | hlow
  · -- no segment owns an offset below the first base
    rcases (endsEOF_iff cs sys.manager x).mp hend with ⟨s, hseg, -⟩ | ⟨-, hle⟩
    · obtain ⟨hs, hcont⟩ := of_segmentFor hseg
      rw [Segment.contains, Bool.and_eq_true, decide_eq_true_iff] at hcont
      have hfirst := hinv.earliestOffset_le hs
      omega
    · omega
  · -- from the first base on every offset below the end can be read
    obtain ⟨e, he, -⟩ := hend
    obtain ⟨d, hd⟩ := hinv.exists_readAt hc hlow (by omega)
    rw [hd] at he
    cases he

/-! ## How a stream ends -/

/-- A frame is the last one exactly if the read failed with `io.EOF`. -/
theorem frame_eq_streamEnd_iff (text : ReadAtError → String) (r : Except ReadAtError Bytes) :
    (match r with
      | .error e => some (if e.isEOF then ⟨StatusStreamEnd, []⟩ else errorResponse (text e))
      | .ok data => some ⟨StatusOK, data⟩) = some ⟨StatusStreamEnd, []⟩ ↔
      ∃ e, r = .error e ∧ e.isEOF = true := by
  cases r with
  | error e =>
    cases he : e.isEOF <;>
      simp [he, errorResponse, StatusError, StatusStreamEnd]
  | ok data => simp [StatusOK, StatusStreamEnd]

/-- **When the end of a stream means "caught up".**  The log is streamed, while it changes,
    from the requested offset up to offset `x`; whatever was done to its files, before or
    after it was opened.  That the stream ends there with `StatusStreamEnd` only if `x` is
    not below `NextOffset` holds exactly if a segment owns `x` and its length fields lead
    to the record; then every record below `NextOffset` that cannot be read ends the stream
    with a `StatusError` frame. -/
theorem streamEnd_caughtUp_iff (cs : Checksum) (text : ReadAtError → String)
    (ms : Nat → Manager) (conn : Nat → Bool) (fuel n : Nat) (payload : Bytes)
    (hlen : payload.length = 8) (hfuel : n < fuel) (hconn : ∀ i, i ≤ n → conn i = true)
    (hread : ∀ i, i < n → ∃ d, (ms i).readAt cs (beNat payload + i) = .ok d) :
    (((handleStreamRead cs text ms conn fuel payload)[n]? = some ⟨StatusStreamEnd, []⟩ →
        (ms n).nextOffset ≤ beNat payload + n) ↔ Leads cs (ms n) (beNat payload + n)) ∧
      ∀ e, (ms n).readAt cs (beNat payload + n) = .error e →
        beNat payload + n < (ms n).nextOffset → Leads cs (ms n) (beNat payload + n) →
        (handleStreamRead cs text ms conn fuel payload)[n]? = some (errorResponse (text e)) := by
  -- frame `n` is what the read at `n` makes of it
  have hframe := streamLoop_getElem? cs text ms conn fuel 0 (beNat payload) n hfuel
    (fun k hk => by rw [Nat.zero_add]; exact hconn k hk)
    (fun k hk => by rw [Nat.zero_add]; exact hread k hk)
  rw [Nat.zero_add] at hframe
  have hstream : handleStreamRead cs text ms conn fuel payload =
      streamLoop cs text ms conn fuel 0 (beNat payload) := by
    rw [handleStreamRead, if_neg (not_not.mpr hlen)]
  rw [hstream, hframe, ← endsEOF_caughtUp_iff]
  have hlast := frame_eq_streamEnd_iff text ((ms n).readAt cs (beNat payload + n))
  refine ⟨imp_congr hlast Iff.rfl, fun e he hlt hnot => ?_⟩
  -- below the end of the log the error is not the end of a walk, so the frame reports it
  have hne : e.isEOF ≠ true := fun heof => absurd (hnot ⟨e, he, heof⟩) (by omega)
  rw [he]
  simp only [if_neg hne]

/-! ## Altered logs -/

/-- Alter the bytes of the log files, given by base offset; everything in memory stays. -/
def alterSegment (g : Nat → Bytes → Bytes) (s : Segment) : Segment :=
  { s with
    log :=
      { s.log with
        writer := { s.log.writer with file := g s.baseOffset s.log.writer.file } } }

def alter (g : Nat → Bytes → Bytes) (m : Manager) : Manager :=
  { m with front := m.front.map (alterSegment g), active := alterSegment g m.active }

/-- A log written through `Append`: bytes inside its files are altered, and it is closed and
    opened again, at any time. -/
inductive AlteredLog (cs : Checksum) : Manager → Prop where
  | created {cfg mtime sys} : System.init cs cfg mtime = some sys → AlteredLog cs sys.manager
  | step {sys sys' e} : AlteredLog cs sys.manager → System.step cs sys e = some sys' →
      AlteredLog cs sys'.manager
  | altered {m g} : AlteredLog cs m → (∀ base file, (g base file).length = file.length) →
      AlteredLog cs (alter g m)
  | reopened {m m' cfg mtime} : AlteredLog cs m → m.restart cs cfg mtime = .ok m' →
      AlteredLog cs m'

theorem AlteredLog.run {sys sys' : System} {es : List Event} (h : AlteredLog cs sys.manager)
    (hrun : Lib.run (System.step cs) sys es = some sys') : AlteredLog cs sys'.manager :=
  run_invariant (I := fun t : System => AlteredLog cs t.manager)
    (fun _ _ _ hs _ hstep => .step hs hstep) h (along_of_forall fun _ _ => trivial) hrun

/-- Byte `p` of the segment at `base`. -/
def setByte (base p : Nat) (b : UInt8) : Nat → Bytes → Bytes :=
  fun base' file => if base' = base then file.set p b else file

theorem setByte_length (base p : Nat) (b : UInt8) (base' : Nat) (file : Bytes) :
    (setByte base p b base' file).length = file.length := by
  rw [setByte]
  split_ifs
  · exact List.length_set
  · rfl

/-- Three records, two in the first segment, with one byte of the first file altered. -/
def alteredThree (p : Nat) (b : UInt8) : Option Manager :=
  (System.init byteSum ⟨12, 0, 0⟩ 0).bind fun sys₀ =>
    (run (System.step byteSum) sys₀
      [.append [7] .ok 0 0, .append [8] .ok 0 0, .append [9] .ok 0 0]).map fun sys =>
        alter (setByte 0 p b) sys.manager

theorem alteredLog_alteredThree {p : Nat} {b : UInt8} (h : alteredThree p b = some m) :
    AlteredLog byteSum m := by
  obtain ⟨sys₀, hinit, h⟩ := Option.bind_eq_some_iff.mp h
  obtain ⟨sys, hrun, rfl⟩ := Option.map_eq_some_iff.mp h
  exact ((AlteredLog.created hinit).run hrun).altered (setByte_length 0 p b)

/-- An altered payload is reported. -/
theorem streamEnd_caughtUp_iff_payload : ∃ m e, alteredThree 5 9 = some m ∧
    m.readAt byteSum 0 = .error e ∧
    (handleStreamRead byteSum (fun _ => "corruption") (fun _ => m) (fun _ => true) 1
      (beBytes 8 0))[0]? = some (errorResponse "corruption") := by
  refine ⟨_, .wal (.corruption ⟨0, [8], [10], .checksumMismatch 0⟩), rfl, by decide, ?_⟩
  exact (streamEnd_caughtUp_iff byteSum (fun _ => "corruption") (fun _ => _) (fun _ => true) 1 0
    (beBytes 8 0) (by decide) (by decide) (fun _ _ => rfl)
    (fun i hi => absurd hi (Nat.not_lt_zero i))).2
    (.wal (.corruption ⟨0, [8], [10], .checksumMismatch 0⟩)) (by decide) (by decide) (by decide)

/-- The frames of a stream from offset 0. -/
def streamFromZero (m : Manager) : List Response :=
  handleStreamRead byteSum (fun _ => "corruption") (fun _ => m) (fun _ => true) 1 (beBytes 8 0)

/-- An altered length of the first record that points past the end of the file: the stream
    ends at offset 0 as if the consumer were caught up, with three records in the log.  So
    it does after a restart, when the first segment owns nothing any more and the second
    still goes on at offset 2. -/
theorem streamEnd_below_nextOffset : ∃ m m', alteredThree 3 200 = some m ∧
    m.restart byteSum ⟨12, 0, 0⟩ (fun _ => 0) = .ok m' ∧ AlteredLog byteSum m ∧
    AlteredLog byteSum m' ∧
    (streamFromZero m = [⟨StatusStreamEnd, []⟩] ∧ m.nextOffset = 3) ∧
    streamFromZero m' = [⟨StatusStreamEnd, []⟩] ∧ m'.segmentFor 0 = none ∧ m'.nextOffset = 3 := by
  have hlive : (alteredThree 3 200).map (fun m => (streamFromZero m, m.nextOffset)) =
      some ([⟨StatusStreamEnd, []⟩], 3) := by decide +kernel
  have hreopened : (alteredThree 3 200).map (fun m =>
      (m.restart byteSum ⟨12, 0, 0⟩ fun _ => 0).map fun m' =>
        (streamFromZero m', m'.segmentFor 0, m'.nextOffset)) =
      some (.ok ([⟨StatusStreamEnd, []⟩], none, 3)) := by decide +kernel
  obtain ⟨m, hm, hlive⟩ := Option.map_eq_some_iff.mp hlive
  rw [hm, Option.map_some, Option.some.injEq] at hreopened
  -- the flipped byte is the length field of the first record
  have halter := alteredLog_alteredThree hm
  cases hm' : m.restart byteSum ⟨12, 0, 0⟩ fun _ => 0 with
  | error e =>
    rw [hm'] at hreopened
    cases hreopened
  | ok m' =>
    rw [hm', Except.map, Except.ok.injEq] at hreopened
    simp only [Prod.mk.injEq] at hlive hreopened
    exact ⟨m, m', hm, hm', halter, .reopened halter hm', hlive, hreopened⟩

end EventLog.Network
