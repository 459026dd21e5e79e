import EventLog.ConsumerOffset.Offsets
import EventLog.Lib.Reach
import EventLog.Segment.Live
import Mathlib.Data.List.Chain

/-!
# A consumer of the log, end to end

`runConsumer` of `cmd/concurrent`: a consumer reads the offset it committed last, seeks its
cursor there, and then handles one record after the other, each followed by
`offsetWriter.Write` of the offset behind it.  The log goes on all the while; retention may
overtake the consumer, any call of a commit may fail, and process and machine may go down
at any moment, also between two calls of a commit.

* `consumer_skips_nothing`: records are handled from offset 0 on and without a jump, whatever
  is repeated in between, and a consumer that calls itself drained has handled everything.
* `consumer_repeats_last_only`: as long as no machine goes down on a rename that an earlier
  commit left pending, the one record that can be repeated is the last.
* `consumer_drains`: a consumer that retention has not overtaken can always get to the end.
-/

namespace EventLog.ConsumerOffset

open EventLog.Lib
open EventLog.Segments
open EventLog.Wal

/-! ## The system -/

/-- Why `runConsumer` returned, or that its process ended. -/
inductive Exit where
  | killed
  | offsetUnread (e : ReadError)
  | readFailed (e : ReadAtError)
  | notCommitted (r : SaveResult)
  /-- "truly drained" -/
  | drained
  deriving DecidableEq, Repr

inductive ConsumerPc where
  | stopped (why : Exit)
  /-- At the head of the loop, before `reader.Next`. -/
  | polling
  /-- `Next` returned `io.EOF`. -/
  | caughtUp
  /-- `Next` returned the record at `offset`. -/
  | handling (offset : Nat)
  deriving DecidableEq, Repr

def ConsumerPc.isStopped : ConsumerPc → Bool
  | .stopped _ => true
  | _ => false

/-- The log, a consumer with the disk of its offset file, and every record it handled. -/
structure Delivery where
  log : LiveLog
  disk : Disk
  reader : Reader
  live : Nat
  pc : ConsumerPc
  /-- `doneProducing` is closed. -/
  done : Bool
  handled : List (Nat × Bytes)
  deriving DecidableEq, Repr

inductive DeliveryEvent where
  | log (e : LiveEvent)
  | doneProducing
  /-- `runConsumer` starts, up to its loop. -/
  | start
  | next
  /-- Caught up: look whether the producers are done. -/
  | poll
  /-- `offsetWriter.Write`; the process ends where there are no more outcomes. -/
  | write (os : List WriteOutcome)
  | kill
  /-- The consumer's machine goes down; while a record is handled, after the calls `os` of
      its commit. -/
  | crash (os : List WriteOutcome) (kept : List DirOp) (data : Nat → Bytes)

/-- The process that has the log and the consumer ends, and another one opens the log. -/
def endsProcess : LiveEvent → Bool
  | .restart .. | .crash _ => true
  | _ => false

namespace Delivery

variable (cs : Checksum)

/-- A log and a consumer that has not started yet. -/
def init (m : Manager) : Delivery :=
  { log := ⟨m, []⟩, disk := Disk.empty, reader := newReader m, live := 0,
    pc := .stopped .killed, done := false, handled := [] }

/-- The beginning of `runConsumer`: `NewReader`, `Read` and `Seek`. -/
def begin (s : Delivery) : Delivery :=
  match OffsetReader.read s.disk.content with
  | .error e => { s with reader := newReader s.log.manager, pc := .stopped (.offsetUnread e) }
  | .ok resume =>
    { s with reader := ⟨resume.toNat⟩, live := resume.toNat, pc := .polling }

/-- `reader.Next` and the two tests of its error. -/
def afterNext (s : Delivery) : Delivery :=
  match s.reader.next cs s.log.manager with
  | (r, .ok (data, offset)) =>
    { s with reader := r, pc := .handling offset, handled := s.handled ++ [(offset, data)] }
  | (r, .error e) =>
    if e = .wal .eof then { s with reader := r, pc := .caughtUp }
    else { s with reader := r, pc := .stopped (.readFailed e) }

/-- Where `Write` leaves the loop. -/
def afterWrite : SaveResult → ConsumerPc
  | .nil => .polling
  | .cut => .stopped .killed
  | r => .stopped (.notCommitted r)

/-- The disk on which the machine goes down. -/
def diskAt (s : Delivery) (os : List WriteOutcome) : Disk :=
  match s.pc with
  | .handling offset => (OffsetWriter.writeLocked s.disk (UInt64.ofNat (offset + 1)) os).1
  | _ => s.disk

/-- What happens to the log, and with it to the process. -/
def withLog (s : Delivery) (e : LiveEvent) (log : LiveLog) : Delivery :=
  if endsProcess e then { s with log := log, done := false, pc := .stopped .killed }
  else { s with log := log }

/-- Producers that are done append nothing. -/
def admits (s : Delivery) : LiveEvent → Bool
  | .append .. => !s.done
  | _ => true

/-- One step; `none` when the event is not enabled. -/
def step (s : Delivery) : DeliveryEvent → Option Delivery
  | .log e => do
    guard (s.admits e)
    let log ← s.log.step cs e
    some (s.withLog e log)
  | .doneProducing => some { s with done := true }
  | .start => if s.pc.isStopped then some s.begin else none
  | .next => if s.pc = .polling then some (s.afterNext cs) else none
  | .poll =>
    if s.pc = .caughtUp then
      if s.done ∧ s.log.manager.nextOffset = s.live then some { s with pc := .stopped .drained }
      else some { s with pc := .polling }
    else none
  | .write os =>
    match s.pc with
    | .handling offset =>
      let (disk, r) := OffsetWriter.writeLocked s.disk (UInt64.ofNat (offset + 1)) os
      some { s with live := offset + 1, disk := disk, pc := afterWrite r }
    | _ => none
  | .kill => some { s with pc := .stopped .killed }
  | .crash os kept data =>
    if kept.Sublist (s.diskAt os).pending then
      some { s with disk := (s.diskAt os).crash kept data, pc := .stopped .killed }
    else none

/-- Where the consumer started, and the offset behind each record it handled. -/
def ends (s : Delivery) : List Nat := 0 :: s.handled.map (·.1 + 1)

end Delivery

/-- Everything an event can do. -/
inductive DeliveryTransition (cs : Checksum) (s : Delivery) : DeliveryEvent → Delivery → Prop where
  | logged (e log) : s.admits e → s.log.step cs e = some log →
      DeliveryTransition cs s (.log e) (s.withLog e log)
  | produced : DeliveryTransition cs s .doneProducing { s with done := true }
  | started : s.pc.isStopped → DeliveryTransition cs s .start s.begin
  | read (data) : s.pc = .polling → s.log.manager.readAt cs s.reader.offset = .ok data →
      DeliveryTransition cs s .next
        { s with
          reader := ⟨s.reader.offset + 1⟩
          pc := .handling s.reader.offset
          handled := s.handled ++ [(s.reader.offset, data)] }
  | atEnd : s.pc = .polling → s.log.manager.readAt cs s.reader.offset = .error (.wal .eof) →
      DeliveryTransition cs s .next { s with pc := .caughtUp }
  | readFailed (e) : s.pc = .polling → s.log.manager.readAt cs s.reader.offset = .error e →
      DeliveryTransition cs s .next { s with pc := .stopped (.readFailed e) }
  | drained : s.pc = .caughtUp → s.done → s.log.manager.nextOffset = s.live →
      DeliveryTransition cs s .poll { s with pc := .stopped .drained }
  | waited : s.pc = .caughtUp → DeliveryTransition cs s .poll { s with pc := .polling }
  | wrote (os offset disk r) : s.pc = .handling offset →
      OffsetWriter.writeLocked s.disk (UInt64.ofNat (offset + 1)) os = (disk, r) →
      DeliveryTransition cs s (.write os)
        { s with live := offset + 1, disk := disk, pc := Delivery.afterWrite r }
  | killed : DeliveryTransition cs s .kill { s with pc := .stopped .killed }
  | crashed (os kept data) : kept.Sublist (s.diskAt os).pending →
      DeliveryTransition cs s (.crash os kept data)
        { s with disk := (s.diskAt os).crash kept data, pc := .stopped .killed }

variable {cs : Checksum} {s s' : Delivery} {e : DeliveryEvent} {tight : Prop} {p q : UInt64}
  {d : Disk}

theorem afterNext_transition (hpc : s.pc = .polling) :
    DeliveryTransition cs s .next (s.afterNext cs) := by
  unfold Delivery.afterNext Reader.next
  cases hread : s.log.manager.readAt cs s.reader.offset with
  | ok data => exact .read data hpc hread
  | error e =>
    simp only
    split
    next heof => exact .atEnd hpc (heof ▸ hread)
    next => exact .readFailed e hpc hread

/-- **Inversion of `Delivery.step`.** -/
theorem step_deliveryTransition (h : s.step cs e = some s') : DeliveryTransition cs s e s' := by
  cases e with
  | log e =>
    simp only [Delivery.step, Option.bind_eq_bind, Option.bind_eq_some_iff,
      Option.guard_eq_some'] at h
    obtain ⟨-, hadmits, log, hlog, h⟩ := h
    obtain rfl := Option.some.inj h
    exact .logged e log hadmits hlog
  | doneProducing =>
    obtain rfl := Option.some.inj h
    exact .produced
  | start =>
    simp only [Delivery.step, Option.ite_none_right_eq_some] at h
    obtain ⟨hpc, h⟩ := h
    obtain rfl := Option.some.inj h
    exact .started hpc
  | next =>
    simp only [Delivery.step, Option.ite_none_right_eq_some] at h
    obtain ⟨hpc, h⟩ := h
    obtain rfl := Option.some.inj h
    exact afterNext_transition hpc
  | poll =>
    simp only [Delivery.step, Option.ite_none_right_eq_some] at h
    obtain ⟨hpc, h⟩ := h
    split at h
    next hdone =>
      obtain rfl := Option.some.inj h
      exact .drained hpc hdone.1 hdone.2
    next =>
      obtain rfl := Option.some.inj h
      exact .waited hpc
  | write os =>
    simp only [Delivery.step] at h
    split at h
    next offset hpc =>
      obtain rfl := Option.some.inj h
      exact .wrote os offset _ _ hpc rfl
    next => cases h
  | kill =>
    obtain rfl := Option.some.inj h
    exact .killed
  | crash os kept data =>
    simp only [Delivery.step, Option.ite_none_right_eq_some] at h
    obtain ⟨hkept, h⟩ := h
    obtain rfl := Option.some.inj h
    exact .crashed os kept data hkept

/-! ## The offset file -/

/-- The file reads as `p`, and no crash makes more of it. -/
structure StoredAt (p : UInt64) (d : Disk) : Prop where
  read : OffsetReader.read d.content = .ok p
  disk : d.Inv (StoredLe p)

theorem storedAt_empty : StoredAt 0 Disk.empty :=
  ⟨rfl, Disk.inv_empty ⟨0, UInt64.le_refl 0, rfl⟩⟩

/-- A commit of a later offset, wherever it stops: the file reads as before or as committed. -/
theorem StoredAt.writeLocked (h : StoredAt p d) (hle : p ≤ q) (os : List WriteOutcome) :
    StoredAt p (OffsetWriter.writeLocked d q os).1 ∨
      StoredAt q (OffsetWriter.writeLocked d q os).1 := by
  rcases (replace_visible d os ⟨h.disk, rfl⟩).1 with hold | ⟨hinv, hnew⟩
  · -- the rename did not happen: the file reads as before
    refine .inl ⟨?_, hold.inv⟩
    rw [OffsetWriter.writeLocked, hold.content_eq]
    exact h.read
  · -- it did, and what a crash can bring back is below `q` or `q` itself
    refine .inr ⟨?_, hinv.mono fun c hc => ?_⟩
    · rw [OffsetWriter.writeLocked, hnew]
      exact read_offsetBytes q
    · rcases hc with hc | rfl
      · exact hc.mono hle
      · exact storedLe_offsetBytes q

theorem StoredAt.writeLocked_nil (h : StoredAt p d) (hle : p ≤ q) (os : List WriteOutcome)
    (hnil : (OffsetWriter.writeLocked d q os).2 = .nil) :
    StoredAt q (OffsetWriter.writeLocked d q os).1 :=
  ⟨ConsumerOffset.writeLocked_nil (h.disk.mono fun _ hc => hc.mono hle) hnil,
    writeLocked_storedLe h.disk hle os⟩

/-- A crash at any call of a commit.  If no rename was pending before, the file does not fall
    behind what it read as. -/
theorem StoredAt.crash (h : StoredAt p d) (hle : p ≤ q) {os : List WriteOutcome}
    {kept : List DirOp} (hkept : kept.Sublist (OffsetWriter.writeLocked d q os).1.pending)
    (data : Nat → Bytes) :
    ∃ r ≤ q, StoredAt r ((OffsetWriter.writeLocked d q os).1.crash kept data) ∧
      (d.Settled → p ≤ r) := by
  have hinv := writeLocked_storedLe h.disk hle os
  obtain ⟨r, hr, hread⟩ := (hinv.crash hkept data).content
  refine ⟨r, hr, ⟨hread, (hinv.crash_settled hkept data).mono ?_⟩, fun hsettled => ?_⟩
  · -- what the crash left is settled, so it is all another crash can bring back
    rintro c rfl
    exact ⟨r, UInt64.le_refl r, hread⟩
  · -- the file reads as `p` or as `q` then
    have hstart : d.Inv fun c => ∃ r, OffsetReader.read c = .ok r ∧ p ≤ r := by
      refine (h.disk.settled hsettled).mono ?_
      rintro c rfl
      exact ⟨p, h.read, UInt64.le_refl p⟩
    have hafter := (replace_triple ⟨q, read_offsetBytes q, hle⟩ d os hstart).1
    obtain ⟨r', hread', hp⟩ := (hafter.crash hkept data).content
    obtain rfl := Except.ok.inj (hread.symm.trans hread')
    exact hp

/-! ## The invariant -/

/-- No write of the log leaves a part of what was to be written. -/
def DeliveryEvent.Atomic : DeliveryEvent → Prop
  | .log e => e.Atomic
  | _ => True

/-- A crash of the log keeps the records that have been handled, and offsets fit in 64
    bits. -/
def Orderly (cs : Checksum) (s : Delivery) : DeliveryEvent → Prop
  | .log (.crash cut) => ∀ log ∈ s.log.step cs (.crash cut), s.handled ⊆ log.appended
  | .next => s.log.manager.nextOffset < UInt64.size
  | _ => True

instance (cs : Checksum) (s : Delivery) (e : DeliveryEvent) : Decidable (Orderly cs s e) :=
  match e with
  | .log (.crash cut) => inferInstanceAs
      (Decidable (∀ log ∈ s.log.step cs (.crash cut), s.handled ⊆ log.appended))
  | .next => inferInstanceAs (Decidable (s.log.manager.nextOffset < UInt64.size))
  | .log (.append ..) | .log (.commit ..) | .log (.runRetention _) | .log (.restart ..)
  | .doneProducing | .start | .poll | .write _ | .kill | .crash .. => isTrue trivial

/-- The machine does not go down on a rename that an earlier commit left pending. -/
def Settled (s : Delivery) : DeliveryEvent → Prop
  | .crash .. => s.disk.Settled
  | _ => True

instance (s : Delivery) (e : DeliveryEvent) : Decidable (Settled s e) :=
  match e with
  | .crash .. => inferInstanceAs (Decidable s.disk.Settled)
  | .log _ | .doneProducing | .start | .next | .poll | .write _ | .kill => isTrue trivial

/-- Where the consumer stands when its file reads as `p`. -/
def CursorAt (s : Delivery) (p : UInt64) : Prop :=
  match s.pc with
  | .stopped _ => True
  | .polling | .caughtUp => s.reader.offset = p.toNat ∧ s.live = p.toNat
  | .handling offset => offset = p.toNat ∧ offset + 1 < UInt64.size ∧
      s.reader.offset = offset + 1 ∧ s.ends.getLast? = some (offset + 1)

/-- The offset file reads as `p`, and everything before `p` is handled.  A `tight` one is at
    most one record behind. -/
structure Delivering (cs : Checksum) (tight : Prop) (s : Delivery) (p : UInt64) : Prop where
  log : LiveInv cs s.log
  sound : s.handled ⊆ s.log.appended
  chain : s.ends.IsChain fun a b => b ≤ a + 1 ∧ (tight → a ≤ b)
  stored : StoredAt p s.disk
  ahead : ∀ n ∈ s.ends.getLast?, p.toNat ≤ n ∧ (tight → n ≤ p.toNat + 1)
  cursor : CursorAt s p
  drained : s.pc = .stopped .drained → s.done = true ∧ s.log.appended ⊆ s.handled

theorem delivering_init {cfg : Config} {mtime : Int} {m : Manager}
    (hcreate : Manager.create cs cfg mtime = .ok m) :
    Delivering cs tight (Delivery.init m) 0 where
  log := LiveInv.init hcreate
  sound := List.Subset.refl []
  chain := .singleton 0
  stored := storedAt_empty
  ahead := by simp [Delivery.ends, Delivery.init]
  cursor := trivial
  drained := by simp [Delivery.init]

/-- A walk that moves up by one at most passes every number on its way. -/
theorem mem_of_isChain {R : Nat → Nat → Prop} (hR : ∀ a b, R a b → b ≤ a + 1) {a n x : Nat}
    {l : List Nat} (h : (a :: l).IsChain R) (hx : x ∈ a :: l) (han : a ≤ n) (hnx : n ≤ x) :
    n ∈ a :: l := by
  induction l generalizing a with
  | nil =>
    -- the chain starts and ends at `n`
    obtain rfl := List.mem_singleton.mp hx
    exact List.mem_singleton.mpr (Nat.le_antisymm hnx han)
  | cons b l ih =>
    obtain ⟨hab, hrest⟩ := List.isChain_cons_cons.mp h
    -- if the chain is not at `n` yet, its next element is still not past `n`
    rcases Nat.eq_or_lt_of_le han with rfl | hlt
    · exact List.mem_cons_self
    · have hbn : b ≤ n := Nat.le_trans (hR a b hab) hlt
      rcases List.mem_cons.mp hx with rfl | hx
      · omega
      · exact List.mem_cons_of_mem a (ih hrest hx hbn)

/-- Everything before the committed offset is handled. -/
theorem Delivering.covers (h : Delivering cs tight s p) {o : Nat} (ho : o < p.toNat) :
    ∃ data, (o, data) ∈ s.handled := by
  obtain ⟨n, hn⟩ := Option.isSome_iff_exists.mp
    (show s.ends.getLast?.isSome by simp [Delivery.ends])
  have hmem : o + 1 ∈ s.ends :=
    mem_of_isChain (fun _ _ hR => hR.1) h.chain (List.mem_of_getLast? hn) (Nat.zero_le _)
      (Nat.le_trans ho (h.ahead n hn).1)
  simpa [Delivery.ends] using hmem

/-- When the log ends at the committed offset, everything is handled. -/
theorem Delivering.complete (h : Delivering cs tight s p)
    (hnext : s.log.manager.nextOffset = p.toNat) : s.log.appended ⊆ s.handled := by
  rintro ⟨o, data⟩ hmem
  obtain ⟨data', hdata⟩ := h.covers (hnext ▸ h.log.lt_nextOffset hmem)
  rwa [h.log.unique hmem (h.sound hdata)]

/-! ## Steps -/

/-- The consumer moves on, with the log and the records handled as they are. -/
theorem Delivering.moved (h : Delivering cs tight s p) {t : Delivery} (hlog : t.log = s.log)
    (hhandled : t.handled = s.handled) (hstored : StoredAt q t.disk)
    (hahead : ∀ n ∈ s.ends.getLast?, q.toNat ≤ n ∧ (tight → n ≤ q.toNat + 1))
    (hcursor : CursorAt t q) (hpc : t.pc ≠ .stopped .drained) : Delivering cs tight t q := by
  have hends : t.ends = s.ends := by rw [Delivery.ends, hhandled, Delivery.ends]
  refine ⟨?_, ?_, ?_, hstored, ?_, hcursor, fun h => absurd h hpc⟩
  · rw [hlog]
    exact h.log
  · rw [hlog, hhandled]
    exact h.sound
  · rw [hends]
    exact h.chain
  · rw [hends]
    exact hahead

/-- Producers and retention at work, or a new process. -/
theorem Delivering.logged (h : Delivering cs tight s p) {e : LiveEvent} {log : LiveLog}
    (hadmits : s.admits e) (hatomic : e.Atomic) (he : Orderly cs s (.log e))
    (hstep : s.log.step cs e = some log) : Delivering cs tight (s.withLog e log) p := by
  have ht := step_liveTransition hstep
  have hlog := h.log.step hatomic ht
  -- only an append and a crash touch what was appended, and a crash must keep what was handled
  cases ht with
  | appended data o now mtime m offset hres =>
    refine ⟨hlog, ?_, h.chain, h.stored, h.ahead, h.cursor, fun hpc => ?_⟩
    · exact List.Subset.trans h.sound (List.subset_append_left _ _)
    · -- a consumer that has returned as drained saw the producers done, so nothing is appended
      simp [Delivery.admits, (h.drained hpc).1] at hadmits
  | refused | committed | retained =>
    exact ⟨hlog, h.sound, h.chain, h.stored, h.ahead, h.cursor, h.drained⟩
  | restarted =>
    exact ⟨hlog, h.sound, h.chain, h.stored, h.ahead, trivial, fun hpc => by cases hpc⟩
  | crashed =>
    exact ⟨hlog, he _ hstep, h.chain, h.stored, h.ahead, trivial, fun hpc => by cases hpc⟩

/-- The next record is handled. -/
theorem Delivering.read (h : Delivering cs tight s p) {data : Bytes} (hpc : s.pc = .polling)
    (hbound : s.log.manager.nextOffset < UInt64.size)
    (hread : s.log.manager.readAt cs s.reader.offset = .ok data) :
    Delivering cs tight
      { s with
        reader := ⟨s.reader.offset + 1⟩
        pc := .handling s.reader.offset
        handled := s.handled ++ [(s.reader.offset, data)] } p := by
  have hcursor := h.cursor
  simp only [CursorAt, hpc] at hcursor
  -- what is read was appended, so it is below `nextOffset` and fits in 64 bits
  have hmem := h.log.of_readAt hread
  have hlt := h.log.lt_nextOffset hmem
  have hends : ∀ t : Delivery, t.handled = s.handled ++ [(s.reader.offset, data)] →
      t.ends = s.ends ++ [s.reader.offset + 1] := by
    intro t ht
    simp [Delivery.ends, ht]
  refine ⟨h.log, ?_, ?_, h.stored, ?_, ?_, fun hpc => by cases hpc⟩
  · exact List.append_subset.mpr ⟨h.sound, List.cons_subset.mpr ⟨hmem, List.nil_subset _⟩⟩
  · rw [hends _ rfl]
    -- the record follows the last one that was handled, or is that one again
    refine h.chain.append (.singleton _) ?_
    intro n hn m hm
    obtain rfl : s.reader.offset + 1 = m := by simpa using hm
    have hahead := h.ahead n hn
    rw [hcursor.1]
    exact ⟨Nat.succ_le_succ hahead.1, hahead.2⟩
  · rw [hends _ rfl]
    intro n hn
    obtain rfl : s.reader.offset + 1 = n := by simpa using hn
    rw [hcursor.1]
    exact ⟨Nat.le_succ _, fun _ => Nat.le_refl _⟩
  · refine ⟨hcursor.1, Nat.lt_of_le_of_lt hlt hbound, rfl, ?_⟩
    rw [hends _ rfl]
    simp

/-- While a record is handled, the commit is for the offset behind the stored one. -/
theorem Delivering.handling (h : Delivering cs tight s p) {offset : Nat}
    (hpc : s.pc = .handling offset) :
    p ≤ UInt64.ofNat (offset + 1) ∧ (UInt64.ofNat (offset + 1)).toNat = p.toNat + 1 ∧
      s.reader.offset = offset + 1 ∧ s.ends.getLast? = some (p.toNat + 1) := by
  have hcursor := h.cursor
  simp only [CursorAt, hpc] at hcursor
  obtain ⟨rfl, hbound, hreader, hlast⟩ := hcursor
  have hnat : (UInt64.ofNat (p.toNat + 1)).toNat = p.toNat + 1 :=
    UInt64.toNat_ofNat_of_lt' hbound
  refine ⟨UInt64.le_iff_toNat_le.mpr ?_, hnat, hreader, hlast⟩
  rw [hnat]
  exact Nat.le_succ _

/-- The machine goes down in a commit of some offset that has been handled. -/
theorem Delivering.diskAt (h : Delivering cs tight s p) (os : List WriteOutcome) :
    ∃ q os', s.diskAt os = (OffsetWriter.writeLocked s.disk q os').1 ∧ p ≤ q ∧
      ∀ n ∈ s.ends.getLast?, q.toNat ≤ n := by
  unfold Delivery.diskAt
  split
  -- while a record is handled, its commit may have been under way
  next offset hpc =>
    obtain ⟨hle, hnat, -, hlast⟩ := h.handling hpc
    refine ⟨_, os, rfl, hle, fun n hn => ?_⟩
    obtain rfl := Option.some.inj (hlast.symm.trans hn)
    exact Nat.le_of_eq hnat
  next => exact ⟨p, [], rfl, UInt64.le_refl p, fun n hn => (h.ahead n hn).1⟩

theorem Delivering.crashed (h : Delivering cs tight s p) {os : List WriteOutcome}
    {kept : List DirOp} (hkept : kept.Sublist (s.diskAt os).pending) (data : Nat → Bytes)
    (hsettled : tight → s.disk.Settled) :
    ∃ r, Delivering cs tight
      { s with disk := (s.diskAt os).crash kept data, pc := .stopped .killed } r := by
  obtain ⟨q, os', hdisk, hle, hq⟩ := h.diskAt os
  rw [hdisk] at hkept ⊢
  -- the file reads as something up to `q`; if it was settled, as `p` at least
  obtain ⟨r, hr, hstored, hp⟩ := h.stored.crash hle hkept data
  refine ⟨r, h.moved rfl rfl hstored (fun n hn => ?_) trivial fun hpc => by cases hpc⟩
  refine ⟨(UInt64.le_iff_toNat_le.mp hr).trans (hq n hn), fun ht => ?_⟩
  have hpr := UInt64.le_iff_toNat_le.mp (hp (hsettled ht))
  exact ((h.ahead n hn).2 ht).trans (Nat.succ_le_succ hpr)

/-- A commit that succeeds, fails or is cut off. -/
theorem Delivering.wrote (h : Delivering cs tight s p) {os : List WriteOutcome} {offset : Nat}
    {disk : Disk} {r : SaveResult} (hpc : s.pc = .handling offset)
    (hwrite : OffsetWriter.writeLocked s.disk (UInt64.ofNat (offset + 1)) os = (disk, r)) :
    ∃ q, Delivering cs tight
      { s with live := offset + 1, disk := disk, pc := Delivery.afterWrite r } q := by
  obtain ⟨hle, hnat, hreader, hlast⟩ := h.handling hpc
  -- the record was the last one handled, so a commit of it is not behind
  have hnew : ∀ n ∈ s.ends.getLast?, (UInt64.ofNat (offset + 1)).toNat ≤ n ∧
      (tight → n ≤ (UInt64.ofNat (offset + 1)).toNat + 1) := by
    intro n hn
    obtain rfl := Option.some.inj (hlast.symm.trans hn)
    rw [hnat]
    exact ⟨Nat.le_refl _, fun _ => Nat.le_succ _⟩
  have hstored := h.stored.writeLocked hle os
  rw [hwrite] at hstored
  -- after an error or a kill the file reads as before or as the new offset
  have hstopped : ∀ why : Exit, why ≠ .drained → ∃ q, Delivering cs tight
      { s with live := offset + 1, disk := disk, pc := .stopped why } q := by
    intro why hwhy
    have hpc : ConsumerPc.stopped why ≠ .stopped .drained := fun h =>
      hwhy (ConsumerPc.stopped.inj h)
    rcases hstored with hstored | hstored
    · exact ⟨p, h.moved rfl rfl hstored h.ahead trivial hpc⟩
    · exact ⟨_, h.moved rfl rfl hstored hnew trivial hpc⟩
  cases r with
  | nil =>
    have hstored := h.stored.writeLocked_nil hle os (by rw [hwrite])
    rw [hwrite] at hstored
    have hoffset : offset + 1 = (UInt64.ofNat (offset + 1)).toNat := by
      have hcursor := h.cursor
      simp only [CursorAt, hpc] at hcursor
      rw [hnat, hcursor.1]
    exact ⟨_, h.moved rfl rfl hstored hnew ⟨hreader.trans hoffset, hoffset⟩ fun hpc => by cases hpc⟩
  | cut => exact hstopped .killed (by decide)
  | failed c => exact hstopped (.notCommitted (.failed c)) (by simp)
  | unencoded => exact hstopped (.notCommitted .unencoded) (by decide)

/-- The consumer takes up where the file says. -/
theorem Delivering.started (h : Delivering cs tight s p) : Delivering cs tight s.begin p := by
  simp only [Delivery.begin, h.stored.read]
  exact h.moved rfl rfl h.stored h.ahead ⟨rfl, rfl⟩ fun hpc => by cases hpc

/-- **Step lemma.** -/
theorem Delivering.step (h : Delivering cs tight s p) (hatomic : e.Atomic)
    (horderly : Orderly cs s e) (hsettled : tight → Settled s e)
    (ht : DeliveryTransition cs s e s') :
    ∃ q, Delivering cs tight s' q := by
  have hcursor := h.cursor
  -- every case but the write and the crash leaves the file, and so `p`, as it is
  cases ht with
  | logged e log hadmits hlog => exact ⟨p, h.logged hadmits hatomic horderly hlog⟩
  | produced =>
    refine ⟨p, h.log, h.sound, h.chain, h.stored, h.ahead, h.cursor, fun hpc => ?_⟩
    exact ⟨rfl, (h.drained hpc).2⟩
  | started hpc => exact ⟨p, h.started⟩
  | read data hpc hread => exact ⟨p, h.read hpc horderly hread⟩
  | atEnd hpc _ =>
    simp only [CursorAt, hpc] at hcursor
    exact ⟨p, h.moved rfl rfl h.stored h.ahead hcursor fun hpc => by cases hpc⟩
  | readFailed e _ _ =>
    exact ⟨p, h.moved rfl rfl h.stored h.ahead trivial fun hpc => by cases hpc⟩
  | drained hpc hdone hnext =>
    simp only [CursorAt, hpc] at hcursor
    refine ⟨p, h.log, h.sound, h.chain, h.stored, h.ahead, trivial, fun _ => ⟨hdone, ?_⟩⟩
    -- the cursor is at the end of the log, so everything before it has been handled
    exact h.complete (hnext.trans hcursor.2)
  | waited hpc =>
    simp only [CursorAt, hpc] at hcursor
    exact ⟨p, h.moved rfl rfl h.stored h.ahead hcursor fun hpc => by cases hpc⟩
  | wrote os offset disk r hpc hwrite => exact h.wrote hpc hwrite
  | killed => exact ⟨p, h.moved rfl rfl h.stored h.ahead trivial fun hpc => by cases hpc⟩
  | crashed os kept data hkept => exact h.crashed hkept data hsettled

/-- **Run lemma.** -/
theorem delivering_of_run {cfg : Config} {mtime : Int} {m : Manager}
    (hcreate : Manager.create cs cfg mtime = .ok m) {es : List DeliveryEvent}
    (hatomic : ∀ e ∈ es, e.Atomic)
    (horderly : Along (Delivery.step cs) (Orderly cs) (Delivery.init m) es)
    (hsettled : Along (Delivery.step cs) (fun s e => tight → Settled s e) (Delivery.init m) es)
    (hrun : run (Delivery.step cs) (Delivery.init m) es = some s) :
    ∃ p, Delivering cs tight s p := by
  refine run_invariant (I := fun s => ∃ p, Delivering cs tight s p) ?_
    ⟨0, delivering_init hcreate⟩ ((along_of_forall hatomic).and (horderly.and hsettled)) hrun
  rintro s e s' ⟨q, h⟩ ⟨hatomic, horderly, hsettled⟩ hstep
  exact h.step hatomic horderly hsettled (step_deliveryTransition hstep)

/-- The same for runs in which machines go down at any moment. -/
theorem delivering_of_unsettled {cfg : Config} {mtime : Int} {m : Manager}
    (hcreate : Manager.create cs cfg mtime = .ok m) {es : List DeliveryEvent}
    (hatomic : ∀ e ∈ es, e.Atomic)
    (horderly : Along (Delivery.step cs) (Orderly cs) (Delivery.init m) es)
    (hrun : run (Delivery.step cs) (Delivery.init m) es = some s) :
    ∃ p, Delivering cs False s p :=
  delivering_of_run hcreate hatomic horderly (horderly.mono fun _ _ _ => False.elim) hrun

/-! ## Nothing is skipped -/

/-- **At least once, in order.**  Whatever fails and whenever process or machine go down: what
    the consumer handles was appended at that offset; it begins with offset 0 and never jumps
    ahead; its file always reads as an offset before which everything is handled; and when it
    returns because it is drained, it has handled every record of the log. -/
theorem consumer_skips_nothing (cs : Checksum) (cfg : Config) (mtime : Int) (m : Manager)
    (hcreate : Manager.create cs cfg mtime = .ok m) (es : List DeliveryEvent)
    (hatomic : ∀ e ∈ es, DeliveryEvent.Atomic e)
    (horderly : Along (Delivery.step cs) (Orderly cs) (Delivery.init m) es) {s : Delivery}
    (hrun : run (Delivery.step cs) (Delivery.init m) es = some s) :
    s.handled ⊆ s.log.appended ∧ (s.ends.IsChain fun a b => b ≤ a + 1) ∧
      (∃ p, OffsetReader.read s.disk.content = .ok p ∧
        ∀ o < p.toNat, ∃ data, (o, data) ∈ s.handled) ∧
      (s.pc = .stopped .drained → s.log.appended ⊆ s.handled) := by
  obtain ⟨p, h⟩ := delivering_of_unsettled hcreate hatomic horderly hrun
  refine ⟨h.sound, h.chain.imp fun _ _ hab => hab.1, ⟨p, h.stored.read, ?_⟩, ?_⟩
  · exact fun o ho => h.covers ho
  · exact fun hpc => (h.drained hpc).2

/-- The process ends between the rename of the first commit and the fsync of the directory.
    The next one goes on from offset 1, and its machine goes down on a pending rename. -/
def lostRename : List DeliveryEvent :=
  [.log (.append [7] .ok 0 0), .log (.append [8] .ok 0 0), .start, .next,
    .write [.ok, .ok, .ok, .ok, .ok], .start, .next, .crash [] [] fun _ => [],
    .start, .next, .write allOk, .next, .write allOk, .doneProducing, .next, .poll]

/-- Both records are handled, and then both again. -/
theorem consumer_skips_nothing_lostRename : ∃ m s,
    Manager.create byteSum ⟨9, 0, 0⟩ 0 = .ok m ∧
      run (Delivery.step byteSum) (Delivery.init m) lostRename = some s ∧
      s.handled = [(0, [7]), (1, [8]), (0, [7]), (1, [8])] ∧ s.pc = .stopped .drained ∧
      (s.ends.IsChain fun a b => b ≤ a + 1) ∧ s.log.appended ⊆ s.handled := by
  have hcreate : Manager.create byteSum ⟨9, 0, 0⟩ 0 =
      .ok ⟨Config.settings ⟨9, 0, 0⟩, [], Segment.fresh 0 0⟩ := rfl
  have hend : (run (Delivery.step byteSum)
      (Delivery.init ⟨Config.settings ⟨9, 0, 0⟩, [], Segment.fresh 0 0⟩) lostRename).map
        (fun s => (s.handled, s.pc)) =
      some ([(0, [7]), (1, [8]), (0, [7]), (1, [8])], .stopped .drained) := by
    decide +kernel
  obtain ⟨s, hrun, heq⟩ := Option.map_eq_some_iff.mp hend
  obtain ⟨hhandled, hpc⟩ := Prod.mk.inj heq
  have hatomic : ∀ e ∈ lostRename, DeliveryEvent.Atomic e := by
    simp [lostRename, DeliveryEvent.Atomic, LiveEvent.Atomic, WriteOutcome.Atomic]
  obtain ⟨-, hchain, -, hall⟩ := consumer_skips_nothing byteSum ⟨9, 0, 0⟩ 0 _ hcreate lostRename
    hatomic (by decide +kernel) hrun
  exact ⟨_, s, hcreate, hrun, hhandled, hpc, hchain, hall hpc⟩

/-! ## What is repeated -/

/-- **One record at most is repeated**, unless a machine goes down on a rename that an earlier
    commit left pending: each record handled is the one behind the record before it or that
    record again, and the file is at most one record behind. -/
theorem consumer_repeats_last_only (cs : Checksum) (cfg : Config) (mtime : Int) (m : Manager)
    (hcreate : Manager.create cs cfg mtime = .ok m) (es : List DeliveryEvent)
    (hatomic : ∀ e ∈ es, DeliveryEvent.Atomic e)
    (horderly : Along (Delivery.step cs) (Orderly cs) (Delivery.init m) es)
    (hsettled : Along (Delivery.step cs) Settled (Delivery.init m) es) {s : Delivery}
    (hrun : run (Delivery.step cs) (Delivery.init m) es = some s) :
    (s.ends.IsChain fun a b => b = a ∨ b = a + 1) ∧
      ∃ p, OffsetReader.read s.disk.content = .ok p ∧
        ∀ n ∈ s.ends.getLast?, n = p.toNat ∨ n = p.toNat + 1 := by
  have htight := hsettled.mono (Q := fun s e => True → Settled s e) fun _ _ h _ => h
  obtain ⟨p, h⟩ := delivering_of_run hcreate hatomic horderly htight hrun
  refine ⟨h.chain.imp fun a b hab => ?_, p, h.stored.read, fun n hn => ?_⟩
  · have hle := hab.2 trivial
    omega
  · have hle := (h.ahead n hn).2 trivial
    have hge := (h.ahead n hn).1
    omega

/-- The machine goes down between the rename of a commit and the fsync of the directory. -/
def crashInCommit : List DeliveryEvent :=
  [.log (.append [7] .ok 0 0), .log (.append [8] .ok 0 0), .start, .next, .write allOk, .next,
    .crash [.ok, .ok, .ok, .ok, .ok] [] fun _ => [], .start, .next]

theorem consumer_repeats_last_only_crashInCommit : ∃ m s,
    Manager.create byteSum ⟨9, 0, 0⟩ 0 = .ok m ∧
      run (Delivery.step byteSum) (Delivery.init m) crashInCommit = some s ∧
      s.handled = [(0, [7]), (1, [8]), (1, [8])] ∧
      s.ends.IsChain fun a b => b = a ∨ b = a + 1 := by
  have hcreate : Manager.create byteSum ⟨9, 0, 0⟩ 0 =
      .ok ⟨Config.settings ⟨9, 0, 0⟩, [], Segment.fresh 0 0⟩ := rfl
  have hend : (run (Delivery.step byteSum)
      (Delivery.init ⟨Config.settings ⟨9, 0, 0⟩, [], Segment.fresh 0 0⟩) crashInCommit).map
        Delivery.handled = some [(0, [7]), (1, [8]), (1, [8])] := by
    decide +kernel
  obtain ⟨s, hrun, hhandled⟩ := Option.map_eq_some_iff.mp hend
  have hatomic : ∀ e ∈ crashInCommit, DeliveryEvent.Atomic e := by
    simp [crashInCommit, DeliveryEvent.Atomic, LiveEvent.Atomic, WriteOutcome.Atomic]
  obtain ⟨hchain, -⟩ := consumer_repeats_last_only byteSum ⟨9, 0, 0⟩ 0 _ hcreate crashInCommit
    hatomic (by decide +kernel) (by decide +kernel) hrun
  exact ⟨_, s, hcreate, hrun, hhandled, hchain⟩

/-! ## Getting to the end -/

/-- The consumer at work, with nothing in its way, and producers that finish. -/
def DeliveryEvent.Unhindered : DeliveryEvent → Prop
  | .start | .next | .poll | .doneProducing => True
  | .write os => os = allOk
  | .log _ | .kill | .crash .. => False

/-- A consumer at the head of its loop, with its cursor at `o` in the log `L`. -/
structure ReadyAt (cs : Checksum) (L : LiveLog) (o : Nat) (s : Delivery) : Prop where
  delivering : ∃ p, Delivering cs False s p
  log : s.log = L
  pc : s.pc = .polling
  cursor : s.reader.offset = o

/-- The consumer can get there undisturbed. -/
abbrev CanGet (cs : Checksum) (s s' : Delivery) : Prop :=
  CanReach (Delivery.step cs) (fun _ e => e.Unhindered) s s'

theorem Delivering.unhindered (h : Delivering cs False s p) (he : e.Unhindered)
    (hbound : s.log.manager.nextOffset < UInt64.size) (hstep : s.step cs e = some s') :
    CanGet cs s s' ∧ ∃ q, Delivering cs False s' q := by
  refine ⟨.single he hstep, h.step ?_ ?_ False.elim (step_deliveryTransition hstep)⟩
  · cases e with
    | log => exact he.elim
    | doneProducing | start | next | poll | write | kill | crash => trivial
  · cases e with
    | log => exact he.elim
    | next => exact hbound
    | doneProducing | start | poll | write | kill | crash => trivial

/-- A record that is being handled is committed. -/
theorem Delivering.commit (h : Delivering cs False s p) {offset : Nat}
    (hpc : s.pc = .handling offset) (hbound : s.log.manager.nextOffset < UInt64.size) :
    ∃ s', CanGet cs s s' ∧ ReadyAt cs s.log (offset + 1) s' := by
  have hstep : s.step cs (.write allOk) = some { s with
      live := offset + 1
      disk := (OffsetWriter.writeLocked s.disk (UInt64.ofNat (offset + 1)) allOk).1
      pc := .polling } := by
    simp only [Delivery.step, hpc]
    rfl
  obtain ⟨hget, hafter⟩ := h.unhindered (e := .write allOk) rfl hbound hstep
  obtain ⟨-, -, hreader, -⟩ := h.handling hpc
  exact ⟨_, hget, hafter, rfl, rfl, hreader⟩

/-- One round of the loop. -/
theorem ReadyAt.round {L : LiveLog} {o : Nat} (h : ReadyAt cs L o s)
    (hbound : L.manager.nextOffset < UInt64.size) (hearliest : L.manager.earliestOffset ≤ o)
    (ho : o < L.manager.nextOffset) : ∃ s', CanGet cs s s' ∧ ReadyAt cs L (o + 1) s' := by
  obtain ⟨⟨p, hp⟩, rfl, hpc, rfl⟩ := h
  obtain ⟨data, hread⟩ := hp.log.readAt_ok hearliest ho
  have hstep : s.step cs .next = some { s with
      reader := ⟨s.reader.offset + 1⟩
      pc := .handling s.reader.offset
      handled := s.handled ++ [(s.reader.offset, data)] } := by
    simp [Delivery.step, hpc, Delivery.afterNext, Reader.next, hread]
  obtain ⟨hget, q, hq⟩ := hp.unhindered (e := .next) trivial hbound hstep
  obtain ⟨s', hget', hready⟩ := hq.commit rfl hbound
  exact ⟨s', hget.trans hget', hready⟩

/-- At the end of the log: the producers finish, and the consumer finds that it is done. -/
theorem ReadyAt.drain {L : LiveLog} (h : ReadyAt cs L L.manager.nextOffset s)
    (hbound : L.manager.nextOffset < UInt64.size) :
    ∃ s', CanGet cs s s' ∧ s'.pc = .stopped .drained ∧ s'.log = L ∧ L.appended ⊆ s'.handled := by
  obtain ⟨⟨p, hp⟩, rfl, hpc, hoffset⟩ := h
  have hread := hp.log.readAt_nextOffset
  have hlive : s.log.manager.nextOffset = s.live := by
    have hcursor := hp.cursor
    simp only [CursorAt, hpc] at hcursor
    rw [← hoffset, hcursor.1, hcursor.2]
  have hdone : s.step cs .doneProducing = some { s with done := true } := rfl
  have hnext : Delivery.step cs { s with done := true } .next =
      some { s with done := true, pc := .caughtUp } := by
    simp [Delivery.step, hpc, Delivery.afterNext, Reader.next, hoffset, hread]
  have hpoll : Delivery.step cs { s with done := true, pc := .caughtUp } .poll =
      some { s with done := true, pc := .stopped .drained } := by
    simp [Delivery.step, hlive]
  obtain ⟨hget₁, _, h₁⟩ := hp.unhindered (e := .doneProducing) trivial hbound hdone
  obtain ⟨hget₂, _, h₂⟩ := h₁.unhindered (e := .next) trivial hbound hnext
  obtain ⟨hget₃, _, h₃⟩ := h₂.unhindered (e := .poll) trivial hbound hpoll
  exact ⟨_, (hget₁.trans hget₂).trans hget₃, rfl, rfl, (h₃.drained rfl).2⟩

/-- A start at the offset of the file. -/
theorem Delivering.restart (h : Delivering cs False s p) (hstopped : s.pc.isStopped)
    (hbound : s.log.manager.nextOffset < UInt64.size) :
    ∃ s', CanGet cs s s' ∧ ReadyAt cs s.log p.toNat s' := by
  have hstep : s.step cs .start = some s.begin := by simp [Delivery.step, hstopped]
  obtain ⟨hget, hafter⟩ := h.unhindered (e := .start) trivial hbound hstep
  refine ⟨_, hget, hafter, ?_, ?_, ?_⟩
  all_goals simp only [Delivery.begin, h.stored.read]

/-- From wherever the consumer stands, it gets to the head of its loop. -/
theorem Delivering.ready (h : Delivering cs False s p)
    (hbound : s.log.manager.nextOffset < UInt64.size) :
    ∃ s' o, CanGet cs s s' ∧ ReadyAt cs s.log o s' ∧ p.toNat ≤ o := by
  have hcursor := h.cursor
  cases hpc : s.pc with
  | stopped why =>
    obtain ⟨s', hget, hready⟩ := h.restart (by rw [hpc]; rfl) hbound
    exact ⟨s', p.toNat, hget, hready, Nat.le_refl _⟩
  | polling =>
    simp only [CursorAt, hpc] at hcursor
    exact ⟨s, p.toNat, .refl s, ⟨⟨p, h⟩, rfl, hpc, hcursor.1⟩, Nat.le_refl _⟩
  | caughtUp =>
    simp only [CursorAt, hpc] at hcursor
    by_cases hdone : s.done = true ∧ s.log.manager.nextOffset = s.live
    · -- it ends here, and can be started again
      have hstep : s.step cs .poll = some { s with pc := .stopped .drained } := by
        simp [Delivery.step, hpc, hdone]
      obtain ⟨hget, q, hq⟩ := h.unhindered (e := .poll) trivial hbound hstep
      obtain rfl : q = p := Except.ok.inj (hq.stored.read.symm.trans h.stored.read)
      obtain ⟨s', hget', hready⟩ := hq.restart rfl hbound
      exact ⟨s', q.toNat, hget.trans hget', hready, Nat.le_refl _⟩
    · -- there is more to read, or more may be appended
      have hstep : s.step cs .poll = some { s with pc := .polling } := by
        simp [Delivery.step, hpc, hdone]
      obtain ⟨hget, hafter⟩ := h.unhindered (e := .poll) trivial hbound hstep
      exact ⟨_, p.toNat, hget, ⟨hafter, rfl, rfl, hcursor.1⟩, Nat.le_refl _⟩
  | handling offset =>
    -- the commit of the record under way succeeds
    obtain ⟨s', hget, hready⟩ := h.commit hpc hbound
    simp only [CursorAt, hpc] at hcursor
    exact ⟨s', offset + 1, hget, hready, hcursor.1 ▸ Nat.le_succ _⟩

/-- The cursor is never behind the end of the log. -/
theorem ReadyAt.le_nextOffset {L : LiveLog} {o : Nat} (h : ReadyAt cs L o s) :
    o ≤ L.manager.nextOffset := by
  obtain ⟨⟨p, hp⟩, rfl, hpc, rfl⟩ := h
  have hcursor := hp.cursor
  simp only [CursorAt, hpc] at hcursor
  rw [hcursor.1]
  by_contra hlt
  obtain ⟨data, hdata⟩ := hp.covers (Nat.lt_of_not_le hlt)
  exact Nat.lt_irrefl _ (hp.log.lt_nextOffset (hp.sound hdata))

/-- The rest of the log, one record after the other. -/
theorem ReadyAt.toEnd {L : LiveLog} {o : Nat} (h : ReadyAt cs L o s)
    (hbound : L.manager.nextOffset < UInt64.size) (hearliest : L.manager.earliestOffset ≤ o) :
    ∃ s', CanGet cs s s' ∧ ReadyAt cs L L.manager.nextOffset s' := by
  have hrounds := canReach_iterate (P := fun _ (e : DeliveryEvent) => e.Unhindered)
    (Q := fun k t => ReadyAt cs L (o + k) t) (L.manager.nextOffset - o)
    (fun k t hk ht => ht.round hbound (by omega) (by omega)) h
  rwa [Nat.add_sub_cancel' h.le_nextOffset] at hrounds

/-- **A consumer can always get to the end** of the log, from wherever a run has left it, as
    long as retention has not overtaken the offset in its file: it starts again if it has
    stopped, and once the producers finish it returns as drained, with every record handled. -/
theorem consumer_drains (cs : Checksum) (cfg : Config) (mtime : Int) (m : Manager)
    (hcreate : Manager.create cs cfg mtime = .ok m) (es : List DeliveryEvent)
    (hatomic : ∀ e ∈ es, DeliveryEvent.Atomic e)
    (horderly : Along (Delivery.step cs) (Orderly cs) (Delivery.init m) es) {s : Delivery}
    (hrun : run (Delivery.step cs) (Delivery.init m) es = some s)
    (hbound : s.log.manager.nextOffset < UInt64.size) {p : UInt64}
    (hread : OffsetReader.read s.disk.content = .ok p)
    (hretained : s.log.manager.earliestOffset ≤ p.toNat) :
    ∃ s', CanReach (Delivery.step cs) (fun _ e => e.Unhindered) s s' ∧
      s'.pc = .stopped .drained ∧ s'.log = s.log ∧ s.log.appended ⊆ s'.handled := by
  obtain ⟨p', h⟩ := delivering_of_unsettled hcreate hatomic horderly hrun
  obtain rfl : p' = p := Except.ok.inj (h.stored.read.symm.trans hread)
  -- it gets to its loop, runs through the rest of the log there, and finds the end
  obtain ⟨t, o, hget, hready, hpo⟩ := h.ready hbound
  obtain ⟨t', hget', hatEnd⟩ := hready.toEnd hbound (hretained.trans hpo)
  obtain ⟨s', hget'', hend⟩ := hatEnd.drain hbound
  exact ⟨s', (hget.trans hget').trans hget'', hend⟩

/-- The consumer is killed while it handles the second of three records. -/
def killedHandling : List DeliveryEvent :=
  [.log (.append [7] .ok 0 0), .log (.append [8] .ok 0 0), .log (.append [9] .ok 0 0), .start,
    .next, .write allOk, .next, .kill]

theorem consumer_drains_killedHandling : ∃ m s s',
    Manager.create byteSum ⟨9, 0, 0⟩ 0 = .ok m ∧
      run (Delivery.step byteSum) (Delivery.init m) killedHandling = some s ∧
      OffsetReader.read s.disk.content = .ok 1 ∧
      CanReach (Delivery.step byteSum) (fun _ e => e.Unhindered) s s' ∧
      s'.pc = .stopped .drained ∧ s.log.appended ⊆ s'.handled := by
  have hcreate : Manager.create byteSum ⟨9, 0, 0⟩ 0 =
      .ok ⟨Config.settings ⟨9, 0, 0⟩, [], Segment.fresh 0 0⟩ := rfl
  have hend : (run (Delivery.step byteSum)
      (Delivery.init ⟨Config.settings ⟨9, 0, 0⟩, [], Segment.fresh 0 0⟩) killedHandling).map
        (fun s => (s.log.manager.nextOffset, s.log.manager.earliestOffset, s.disk.content)) =
      some (3, 0, some (offsetBytes 1)) := by
    decide +kernel
  -- the consumer was killed while it handled the record at 1
  obtain ⟨s, hrun, heq⟩ := Option.map_eq_some_iff.mp hend
  obtain ⟨hnext, hearliest, hcontent⟩ : s.log.manager.nextOffset = 3 ∧
      s.log.manager.earliestOffset = 0 ∧ s.disk.content = some (offsetBytes 1) := by
    simpa only [Prod.mk.injEq] using heq
  have hatomic : ∀ e ∈ killedHandling, DeliveryEvent.Atomic e := by
    simp [killedHandling, DeliveryEvent.Atomic, LiveEvent.Atomic, WriteOutcome.Atomic]
  have hread : OffsetReader.read s.disk.content = .ok 1 := by
    rw [hcontent]
    exact read_offsetBytes 1
  obtain ⟨s', hreach, hpc, -, hall⟩ := consumer_drains byteSum ⟨9, 0, 0⟩ 0 _ hcreate killedHandling
    hatomic (by decide +kernel) hrun (by rw [hnext]; decide) hread
    (by rw [hearliest]; exact Nat.zero_le _)
  exact ⟨_, s, s', hcreate, hrun, hread, hreach, hpc, hall⟩

end EventLog.ConsumerOffset
