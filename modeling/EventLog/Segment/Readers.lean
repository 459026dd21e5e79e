import EventLog.Lib.References
import EventLog.Segment.Deletion

/-!
# Reads during retention

`ReadAt` takes a reference to a segment under the lock that routes to it, reads the file
without the lock, and gives the reference back.  `RunRetention` detaches its victims under
the write lock, waits for the references to each of them, and then closes and removes its
files.  Any number of reads and of passes run at once, between the two phases of appends.

The steps of all of them interleave freely here.  Segments are numbered in the order in
which the manager got them: appends add at the end and passes detach at the front, so the
number of a live segment is its place behind everything that was detached.
-/

namespace EventLog.Segments

open EventLog.Lib
open EventLog.Wal

/-! ## The system -/

/-- Where a `ReadAt` that found a segment stands. -/
inductive CallPc where
  | acquired
  | read (r : ReadResult)
  /-- `releaseRead` ran, and the call returned. -/
  | returned (r : ReadResult)
  deriving DecidableEq, Repr

def CallPc.holds : CallPc → Bool
  | .acquired | .read _ => true
  | .returned _ => false

/-- A `ReadAt` that routed to a segment. -/
structure Call where
  offset : Nat
  segment : Nat
  pc : CallPc
  deriving DecidableEq, Repr

/-- The call has acquired its segment and not released it. -/
def Call.holds (c : Call) : Bool := c.pc.holds

/-- How many of the calls hold a reference to segment number `k`. -/
def holdersOf (calls : List Call) (k : Nat) : Nat := holders Call.holds Call.segment calls k

/-- A segment a pass detached, with what happened to its files. -/
structure Detached where
  seg : Segment
  closed : Bool
  removed : Bool

/-- Where the loop of `RunRetention` over its victims stands. -/
inductive PassPc where
  /-- Before `waitReaders` on the victim. -/
  | waiting
  | drained
  | closed
  deriving DecidableEq, Repr

/-- A pass that works on the detached segments from `next` to before `stop`. -/
structure Pass where
  next : Nat
  stop : Nat
  pc : PassPc
  deriving DecidableEq, Repr

/-- On to the next victim. -/
def Pass.advance (p : Pass) : Pass := { p with next := p.next + 1, pc := .waiting }

/-- The manager while reads and passes are under way. -/
structure Shared where
  manager : Manager
  /-- All segments that were detached, oldest first. -/
  detached : List Detached
  /-- The counters of the segments' `readers`. -/
  readers : Nat → Nat
  calls : List Call
  passes : List Pass

inductive SharedEvent where
  /-- `ReadAt` up to `RUnlock`: `segmentFor` and `acquireRead`. -/
  | route (offset : Nat)
  /-- `seg.ReadAt` of call `i`. -/
  | read (i : Nat)
  | releaseRead (i : Nat)
  /-- Phase 1 of an `Append`. -/
  | append (data : Bytes) (o : WriteOutcome) (now mtime : Int)
  /-- A step of a goroutine in phase 2, in segment number `k`, detached or not. -/
  | commit (k : Nat) (e : LogEvent)
  /-- Phase A of `RunRetention`. -/
  | detach (now : Int)
  /-- `waitReaders` of pass `j` returns. -/
  | waitReaders (j : Nat)
  | close (j : Nat) (closeOk syncOk : Bool) (idx : Nat → WriteOutcome)
  | remove (j : Nat) (ok : Bool)

/-- No file write leaves a part of what was to be written. -/
def SharedEvent.Atomic : SharedEvent → Prop
  | .append _ o _ _ => o.Atomic
  | .commit _ e => e.Atomic
  | .close _ _ _ idx => ∀ x, (idx x).Atomic
  | _ => True

/-- `segmentFor`, by the place of the segment in the manager's list. -/
def Manager.route (m : Manager) (offset : Nat) : Option Nat :=
  let i := searchAbove (m.segments.map Segment.baseOffset) offset
  if i = 0 then none
  else
    match m.segments[i - 1]? with
    | none => none
    | some seg => if seg.contains offset then some (i - 1) else none

namespace Shared

/-- All segments by number. -/
def segments (S : Shared) : List Segment := S.detached.map Detached.seg ++ S.manager.segments

/-- Whether the files of segment number `k` are closed. -/
def closed (S : Shared) (k : Nat) : Bool := S.detached[k]?.any Detached.closed

def setSegment (S : Shared) (k : Nat) (s : Segment) : Shared :=
  match S.detached[k]? with
  | some v => { S with detached := S.detached.set k { v with seg := s } }
  | none => { S with manager := S.manager.setSegment (k - S.detached.length) s }

/-- One step; `none` when the event is not enabled. -/
def step (cs : Checksum) (S : Shared) : SharedEvent → Option Shared
  | .route offset =>
    match S.manager.route offset with
    -- the call returns `io.EOF` or that the offset is out of retention
    | none => some S
    | some i =>
      let k := S.detached.length + i
      some { S with
        readers := Function.update S.readers k (S.readers k + 1)
        calls := S.calls ++ [⟨offset, k, .acquired⟩] }
  | .read i => do
    let c ← S.calls[i]?
    guard (c.pc = .acquired)
    let seg ← S.segments[c.segment]?
    let r := if S.closed c.segment then .fileClosed else .answered (seg.readAt cs c.offset)
    some { S with calls := S.calls.set i { c with pc := .read r } }
  | .releaseRead i => do
    let c ← S.calls[i]?
    match c.pc with
    | .read r =>
      -- `Done` panics when the counter is zero
      guard (0 < S.readers c.segment)
      some { S with
        readers := Function.update S.readers c.segment (S.readers c.segment - 1)
        calls := S.calls.set i { c with pc := .returned r } }
    | _ => none
  | .append data o now mtime =>
    some { S with manager := (S.manager.appendStep cs data o now mtime).1 }
  | .commit k e => do
    let seg ← S.segments[k]?
    let seg' ← seg.commitStep cs e
    some (S.setSegment k seg')
  | .detach now =>
    let victims := S.manager.aged now
    some { S with
      manager := S.manager.runRetention now
      detached := S.detached ++ victims.map fun s => ⟨s, false, false⟩
      passes := S.passes ++ [⟨S.detached.length, S.detached.length + victims.length, .waiting⟩] }
  | .waitReaders j => do
    let p ← S.passes[j]?
    guard (p.next < p.stop ∧ p.pc = .waiting ∧ S.readers p.next = 0)
    some { S with passes := S.passes.set j { p with pc := .drained } }
  | .close j closeOk syncOk idx => do
    let p ← S.passes[j]?
    guard (p.pc = .drained)
    let v ← S.detached[p.next]?
    -- the reader is closed in any case; after an error the file is not removed
    let p' := if v.seg.closes closeOk syncOk then { p with pc := .closed } else p.advance
    some { S with
      detached := S.detached.set p.next { v with seg := v.seg.close syncOk idx, closed := true }
      passes := S.passes.set j p' }
  | .remove j ok => do
    let p ← S.passes[j]?
    guard (p.pc = .closed)
    let v ← S.detached[p.next]?
    some { S with
      detached := S.detached.set p.next { v with removed := ok }
      passes := S.passes.set j p.advance }

/-- No read and no pass is under way. -/
def opened (m : Manager) : Shared := ⟨m, [], fun _ => 0, [], []⟩

end Shared

variable {cs : Checksum} {m : Manager} {S S' : Shared} {e : SharedEvent}

/-! ## Inversion -/

/-- Everything an event can do to the system. -/
inductive SharedTransition (cs : Checksum) (S : Shared) : SharedEvent → Shared → Prop where
  | unrouted (offset) : S.manager.route offset = none →
      SharedTransition cs S (.route offset) S
  | routed (offset i) : S.manager.route offset = some i →
      SharedTransition cs S (.route offset)
        { S with
          readers := Function.update S.readers (S.detached.length + i)
            (S.readers (S.detached.length + i) + 1)
          calls := S.calls ++ [⟨offset, S.detached.length + i, .acquired⟩] }
  | read (i c seg) : S.calls[i]? = some c → c.pc = .acquired →
      S.segments[c.segment]? = some seg →
      SharedTransition cs S (.read i)
        { S with
          calls := S.calls.set i { c with
            pc := .read (if S.closed c.segment then .fileClosed
              else .answered (seg.readAt cs c.offset)) } }
  | released (i c r) : S.calls[i]? = some c → c.pc = .read r → 0 < S.readers c.segment →
      SharedTransition cs S (.releaseRead i)
        { S with
          readers := Function.update S.readers c.segment (S.readers c.segment - 1)
          calls := S.calls.set i { c with pc := .returned r } }
  | appended (data o now mtime m₁ log t) : Rolled S.manager mtime m₁ →
      LogTransition cs m₁.active.log (.reserve data o) log →
      SharedTransition cs S (.append data o now mtime)
        { S with manager := { m₁ with active := { m₁.active with log := log, lastAppend := t } } }
  | committed (k e seg log) : S.segments[k]? = some seg → e.isCommit →
      LogTransition cs seg.log e log →
      SharedTransition cs S (.commit k e) (S.setSegment k { seg with log := log })
  | detached (now) :
      SharedTransition cs S (.detach now)
        { S with
          manager := S.manager.runRetention now
          detached := S.detached ++ (S.manager.aged now).map fun s => ⟨s, false, false⟩
          passes := S.passes ++ [⟨S.detached.length,
            S.detached.length + (S.manager.aged now).length, .waiting⟩] }
  | drained (j p) : S.passes[j]? = some p → p.next < p.stop → S.readers p.next = 0 →
      SharedTransition cs S (.waitReaders j)
        { S with passes := S.passes.set j { p with pc := .drained } }
  | closed (j closeOk syncOk idx p v p') : S.passes[j]? = some p → p.pc = .drained →
      S.detached[p.next]? = some v → (p' = { p with pc := .closed } ∨ p' = p.advance) →
      SharedTransition cs S (.close j closeOk syncOk idx)
        { S with
          detached := S.detached.set p.next
            { v with seg := v.seg.close syncOk idx, closed := true }
          passes := S.passes.set j p' }
  | removed (j ok p v) : S.passes[j]? = some p → p.pc = .closed →
      S.detached[p.next]? = some v →
      SharedTransition cs S (.remove j ok)
        { S with
          detached := S.detached.set p.next { v with removed := ok }
          passes := S.passes.set j p.advance }

/-- **Inversion of `Shared.step`.** -/
theorem step_sharedTransition (h : S.step cs e = some S') : SharedTransition cs S e S' := by
  -- one constructor for each event, with the guards of the source as premises
  cases e with
  | route offset =>
    simp only [Shared.step] at h
    split at h
    · obtain rfl := Option.some.inj h
      exact .unrouted offset ‹_›
    · obtain rfl := Option.some.inj h
      exact .routed offset _ ‹_›
  | append data o now mtime =>
    obtain ⟨m₁, log, t, hrolled, ht, happend⟩ :=
      appendStep_logTransition cs S.manager data o now mtime
    rw [Shared.step, happend] at h
    obtain rfl := Option.some.inj h
    exact .appended data o now mtime m₁ log t hrolled ht
  | detach now =>
    obtain rfl := Option.some.inj h
    exact .detached now
  | read i =>
    simp only [Shared.step, Option.bind_eq_bind, Option.bind_eq_some_iff,
      Option.guard_eq_some'] at h
    obtain ⟨c, hc, -, hpc, seg, hseg, h⟩ := h
    obtain rfl := Option.some.inj h
    exact .read i c seg hc hpc hseg
  | releaseRead i =>
    simp only [Shared.step, Option.bind_eq_bind, Option.bind_eq_some_iff] at h
    obtain ⟨c, hc, h⟩ := h
    split at h
    · simp only [Option.bind_eq_some_iff, Option.guard_eq_some'] at h
      obtain ⟨-, hpos, h⟩ := h
      obtain rfl := Option.some.inj h
      exact .released i c _ hc ‹_› hpos
    · cases h
  | commit k e =>
    simp only [Shared.step, Option.bind_eq_bind, Option.bind_eq_some_iff] at h
    obtain ⟨seg, hseg, seg', hstep, h⟩ := h
    obtain ⟨hcommit, log, hlog, rfl⟩ := of_segment_commitStep hstep
    obtain rfl := Option.some.inj h
    exact .committed k e seg log hseg hcommit hlog
  | waitReaders j =>
    simp only [Shared.step, Option.bind_eq_bind, Option.bind_eq_some_iff,
      Option.guard_eq_some'] at h
    obtain ⟨p, hp, -, ⟨hnext, -, hzero⟩, h⟩ := h
    obtain rfl := Option.some.inj h
    exact .drained j p hp hnext hzero
  | close j closeOk syncOk idx =>
    simp only [Shared.step, Option.bind_eq_bind, Option.bind_eq_some_iff,
      Option.guard_eq_some'] at h
    obtain ⟨p, hp, -, hpc, v, hv, h⟩ := h
    obtain rfl := Option.some.inj h
    refine .closed j closeOk syncOk idx p v _ hp hpc hv ?_
    -- a close that fails moves on to the next victim without removing the file
    split_ifs
    · exact .inl rfl
    · exact .inr rfl
  | remove j ok =>
    simp only [Shared.step, Option.bind_eq_bind, Option.bind_eq_some_iff,
      Option.guard_eq_some'] at h
    obtain ⟨p, hp, -, hpc, v, hv, h⟩ := h
    obtain rfl := Option.some.inj h
    exact .removed j ok p v hp hpc hv

/-! ## References -/

/-- The segment was closed or removed by a pass. -/
def Shared.touched (S : Shared) (k : Nat) : Bool :=
  S.detached[k]?.any fun v => v.closed || v.removed

/-- A pass is inside its part of the detached segments, and past `waitReaders` nobody holds
    its victim. -/
structure Pass.Ok (S : Shared) (p : Pass) : Prop where
  next_le : p.next ≤ p.stop
  stop_le : p.stop ≤ S.detached.length
  drained : p.pc ≠ .waiting → p.next < p.stop ∧ S.readers p.next = 0

/-- The counters count the calls that hold a segment, and no such call holds one that a pass
    has touched. -/
structure RefInv (S : Shared) : Prop where
  counters : Counted Call.holds Call.segment S.readers S.calls
  held : ∀ c ∈ S.calls, c.segment < S.segments.length
  passes : ∀ p ∈ S.passes, p.Ok S
  touched : ∀ k, S.touched k = true → S.readers k = 0

theorem Call.holds_of_acquired {c : Call} (h : c.pc = .acquired) : c.holds = true := by
  rw [Call.holds, h]
  rfl

theorem Call.holds_of_read {c : Call} {r : ReadResult} (h : c.pc = .read r) : c.holds = true := by
  rw [Call.holds, h]
  rfl

theorem lt_of_touched {k : Nat} (h : S.touched k = true) : k < S.detached.length := by
  obtain ⟨v, hv, -⟩ := (Option.any_eq_true _ _).mp h
  exact (List.getElem?_eq_some_iff.mp hv).1

theorem exists_of_route {offset i : Nat} (h : m.route offset = some i) :
    ∃ s, m.segments[i]? = some s ∧ s.contains offset = true := by
  rw [Manager.route] at h
  split_ifs at h with hzero
  split at h
  · cases h
  · rename_i seg hseg
    split_ifs at h with hcont
    obtain rfl := Option.some.inj h
    exact ⟨seg, hseg, hcont⟩

/-- A step that leaves the calls and the counters alone. -/
theorem RefInv.frame (h : RefInv S) (hreaders : S'.readers = S.readers)
    (hcalls : S'.calls = S.calls) (hlen : S.segments.length ≤ S'.segments.length)
    (hpasses : ∀ p ∈ S'.passes, p.Ok S')
    (htouched : ∀ k, S'.touched k = true → S.touched k = true ∨ S.readers k = 0) : RefInv S' where
  counters := by rw [hreaders, hcalls]; exact h.counters
  held := fun c hc => Nat.lt_of_lt_of_le (h.held c (hcalls ▸ hc)) hlen
  passes := hpasses
  touched := fun k hk => by
    rw [hreaders]
    exact (htouched k hk).elim (h.touched k) id

theorem Pass.Ok.mono {p : Pass} (h : p.Ok S) (hreaders : S'.readers = S.readers)
    (hlen : S.detached.length ≤ S'.detached.length) : p.Ok S' :=
  ⟨h.next_le, h.stop_le.trans hlen, fun hpc => hreaders ▸ h.drained hpc⟩

theorem Pass.Ok.advance {p : Pass} (h : p.Ok S) (hpc : p.pc ≠ .waiting) : p.advance.Ok S :=
  ⟨(h.drained hpc).1, h.stop_le, fun hne => absurd rfl hne⟩

/-- `ReadAt` acquires a live segment. -/
theorem RefInv.routed (h : RefInv S) {offset i : Nat} (hroute : S.manager.route offset = some i) :
    RefInv { S with
      readers := Function.update S.readers (S.detached.length + i)
        (S.readers (S.detached.length + i) + 1)
      calls := S.calls ++ [⟨offset, S.detached.length + i, .acquired⟩] } := by
  set k := S.detached.length + i with hk
  -- a live segment is behind all that were detached
  have hother : ∀ j, j < S.detached.length →
      Function.update S.readers k (S.readers k + 1) j = S.readers j := fun j hj =>
    Function.update_of_ne (by omega) _ _
  refine ⟨?_, fun c hc => ?_, fun p hp => ⟨?_, ?_, fun hpc => ?_⟩, fun j hj => ?_⟩
  · exact h.counters.acquire (c := ⟨offset, k, .acquired⟩) rfl
  · rcases List.mem_append.mp hc with hc | hc
    · exact h.held c hc
    · -- the call holds a segment that exists
      obtain rfl := List.mem_singleton.mp hc
      obtain ⟨s, hs, -⟩ := exists_of_route hroute
      have hi := (List.getElem?_eq_some_iff.mp hs).1
      simp only [Shared.segments, List.length_append, List.length_map]
      omega
  · exact (h.passes p hp).next_le
  · exact (h.passes p hp).stop_le
  · -- a drained victim stays drained, since only live segments are acquired
    obtain ⟨hlt, hzero⟩ := (h.passes p hp).drained hpc
    have hnext := (h.passes p hp).stop_le
    exact ⟨hlt, (hother p.next (by omega)).trans hzero⟩
  · exact (hother j (lt_of_touched hj)).trans (h.touched j hj)

/-- `seg.ReadAt` keeps the reference. -/
theorem RefInv.read (h : RefInv S) {i : Nat} {c : Call} (hc : S.calls[i]? = some c)
    (hpc : c.pc = .acquired) (r : ReadResult) :
    RefInv { S with calls := S.calls.set i { c with pc := .read r } } := by
  refine ⟨?_, fun c' hc' => ?_, fun p hp => ?_, h.touched⟩
  · exact h.counters.keep hc (Call.holds_of_acquired hpc).symm rfl
  · rcases List.mem_or_eq_of_mem_set hc' with hc' | rfl
    · exact h.held c' hc'
    · exact h.held c (List.mem_of_getElem? hc)
  · exact (h.passes p hp).mono rfl le_rfl

/-- `releaseRead` gives the reference back. -/
theorem RefInv.released (h : RefInv S) {i : Nat} {c : Call} {r : ReadResult}
    (hc : S.calls[i]? = some c) (hpc : c.pc = .read r) (hpos : 0 < S.readers c.segment) :
    RefInv { S with
      readers := Function.update S.readers c.segment (S.readers c.segment - 1)
      calls := S.calls.set i { c with pc := .returned r } } := by
  -- a counter at zero is another one
  have hother : ∀ k, S.readers k = 0 →
      Function.update S.readers c.segment (S.readers c.segment - 1) k = 0 := fun k hk => by
    rw [Function.update_of_ne (by rintro rfl; omega)]
    exact hk
  refine ⟨?_, fun c' hc' => ?_, fun p hp => ⟨?_, ?_, fun hpc => ?_⟩, fun k hk => ?_⟩
  · exact h.counters.release hc (Call.holds_of_read hpc) rfl
  · rcases List.mem_or_eq_of_mem_set hc' with hc' | rfl
    · exact h.held c' hc'
    · exact h.held c (List.mem_of_getElem? hc)
  · exact (h.passes p hp).next_le
  · exact (h.passes p hp).stop_le
  · -- a victim without readers is not the one that is released
    obtain ⟨hlt, hzero⟩ := (h.passes p hp).drained hpc
    exact ⟨hlt, hother _ hzero⟩
  · exact hother k (h.touched k hk)

theorem any_getElem?_set {α : Type*} {p : α → Bool} {l : List α} {i k : Nat} {a : α}
    (h : (l.set i a)[k]?.any p = true) : k = i ∨ l[k]?.any p = true := by
  by_cases hk : i = k
  · exact .inl hk.symm
  · rw [List.getElem?_set_ne hk] at h
    exact .inr h

theorem setSegment_frame (S : Shared) (k : Nat) (s : Segment) :
    (S.setSegment k s).readers = S.readers ∧ (S.setSegment k s).calls = S.calls ∧
      (S.setSegment k s).passes = S.passes ∧
      (S.setSegment k s).detached.length = S.detached.length ∧
      ∀ j, (S.setSegment k s).touched j = S.touched j := by
  unfold Shared.setSegment
  split
  · rename_i v hv
    refine ⟨rfl, rfl, rfl, List.length_set, fun j => ?_⟩
    -- the marks are those of `v`
    simp only [Shared.touched, List.getElem?_set]
    split_ifs with hj hlt
    · rw [← hj, hv]
      rfl
    · exact absurd (List.getElem?_eq_some_iff.mp hv).1 hlt
    · rfl
  · exact ⟨rfl, rfl, rfl, rfl, fun _ => rfl⟩

theorem segments_setSegment_shared {k : Nat} {s s' : Segment} (h : S.segments[k]? = some s) :
    (S.setSegment k s').segments = S.segments.set k s' := by
  unfold Shared.setSegment
  split
  · rename_i v hv
    have hlt := (List.getElem?_eq_some_iff.mp hv).1
    rw [Shared.segments, Shared.segments, List.set_append_left _ _ (by simpa using hlt),
      List.map_set]
  · -- the segment is a live one
    rename_i hnone
    have hle : (S.detached.map Detached.seg).length ≤ k := by
      simpa using List.getElem?_eq_none_iff.mp hnone
    rw [Shared.segments, List.getElem?_append_right hle, List.length_map] at h
    rw [Shared.segments, Shared.segments, List.set_append_right _ _ hle, List.length_map,
      segments_setSegment h]

/-- What a pass does to the files of a victim shows in the list of segments only there. -/
theorem segments_set_detached {k : Nat} {v : Detached} (hv : S.detached[k]? = some v)
    (v' : Detached) (passes : List Pass) :
    Shared.segments { S with detached := S.detached.set k v', passes := passes } =
      S.segments.set k v'.seg := by
  have hlt : k < (S.detached.map Detached.seg).length := by
    simpa using (List.getElem?_eq_some_iff.mp hv).1
  rw [Shared.segments, Shared.segments, List.set_append_left _ _ hlt, List.map_set]

theorem getElem?_segments_of_detached {k : Nat} {v : Detached} (hv : S.detached[k]? = some v) :
    S.segments[k]? = some v.seg := by
  have hseg : (S.detached.map Detached.seg)[k]? = some v.seg := by
    rw [List.getElem?_map, hv]
    rfl
  rw [Shared.segments, List.getElem?_append_left (List.getElem?_eq_some_iff.mp hseg).1, hseg]

theorem segments_length_le_of_rolled {mtime : Int} {m₁ : Manager} (hr : Rolled m mtime m₁)
    (s : Segment) : m.segments.length ≤ (Manager.segments { m₁ with active := s }).length := by
  cases hr with
  | kept => simp [Manager.segments]
  | rolled => simp [Manager.segments]

/-- A pass detaches and gives numbers to what it detached: the numbers stay. -/
theorem segments_detach (S : Shared) (now : Int) (passes : List Pass) :
    Shared.segments { S with
      manager := S.manager.runRetention now
      detached := S.detached ++ (S.manager.aged now).map fun s => ⟨s, false, false⟩
      passes := passes } = S.segments := by
  simp only [Shared.segments, List.map_append, List.map_map, List.append_assoc]
  congr 1
  rw [segments_eq_aged_append S.manager now]
  exact congrArg (· ++ _) (List.map_id _)

/-- A pass past `waitReaders` may do anything to the files of its victim. -/
theorem RefInv.worked (h : RefInv S) {j : Nat} {p p' : Pass} (hp : S.passes[j]? = some p)
    (hbusy : p.pc ≠ .waiting) {v : Detached} (hv : S.detached[p.next]? = some v) (v' : Detached)
    (hp' : p'.Ok S) :
    RefInv { S with detached := S.detached.set p.next v', passes := S.passes.set j p' } := by
  refine h.frame rfl rfl ?_ (fun q hq => ?_) fun k hk => ?_
  · rw [segments_set_detached hv, List.length_set]
  · refine Pass.Ok.mono (S := S) ?_ rfl (by simp)
    rcases List.mem_or_eq_of_mem_set hq with hq | rfl
    · exact h.passes q hq
    · exact hp'
  · -- a segment is touched only after its readers are gone
    rcases any_getElem?_set hk with rfl | hk
    · exact .inr ((h.passes p (List.mem_of_getElem? hp)).drained hbusy).2
    · exact .inl hk

/-- **Step lemma of the references.** -/
theorem RefInv.step (h : RefInv S) (ht : SharedTransition cs S e S') : RefInv S' := by
  cases ht with
  | unrouted offset => exact h
  | routed offset i hroute => exact h.routed hroute
  | read i c seg hc hpc => exact h.read hc hpc _
  | released i c r hc hpc hpos => exact h.released hc hpc hpos
  -- appending may roll, which adds a live segment and touches none
  | appended data o now mtime m₁ log t hrolled =>
    refine h.frame rfl rfl ?_ (fun p hp => (h.passes p hp).mono rfl le_rfl) fun k hk => .inl hk
    simp only [Shared.segments, List.length_append, List.length_map]
    exact Nat.add_le_add_left (segments_length_le_of_rolled hrolled _) _
  | committed k e seg log hseg =>
    obtain ⟨hreaders, hcalls, hpasses, hlen, htouched⟩ :=
      setSegment_frame S k { seg with log := log }
    refine h.frame hreaders hcalls ?_ (fun p hp => ?_) fun j hj => .inl (htouched j ▸ hj)
    · rw [segments_setSegment_shared hseg, List.length_set]
    · exact (h.passes p (hpasses ▸ hp)).mono hreaders hlen.ge
  -- the pass starts with all its victims before it
  | detached now =>
    refine h.frame rfl rfl ?_ (fun p hp => ?_) fun k hk => ?_
    · rw [segments_detach]
    · rcases List.mem_append.mp hp with hp | hp
      · exact (h.passes p hp).mono rfl (by simp)
      · obtain rfl := List.mem_singleton.mp hp
        exact ⟨Nat.le_add_right _ _, by simp, fun hne => absurd rfl hne⟩
    · -- new victims are untouched
      left
      obtain ⟨v, hv, hmark⟩ := (Option.any_eq_true _ _).mp hk
      refine (Option.any_eq_true _ _).mpr ⟨v, ?_, hmark⟩
      simp only [List.getElem?_append] at hv
      split_ifs at hv with hlt
      · exact hv
      · obtain ⟨s, -, rfl⟩ := List.mem_map.mp (List.mem_of_getElem? hv)
        cases hmark
  -- the readers of the next victim are gone
  | drained j p hp hnext hzero =>
    refine h.frame rfl rfl le_rfl (fun p' hp' => ?_) fun k hk => .inl hk
    have hok := h.passes p (List.mem_of_getElem? hp)
    rcases List.mem_or_eq_of_mem_set hp' with hp' | rfl
    · exact (h.passes p' hp').mono rfl le_rfl
    · exact ⟨hok.next_le, hok.stop_le, fun _ => ⟨hnext, hzero⟩⟩
  -- closing needs a drained victim
  | closed j closeOk syncOk idx p v p' hp hpc hv hp' =>
    have hbusy : p.pc ≠ .waiting := by simp [hpc]
    have hok := h.passes p (List.mem_of_getElem? hp)
    refine h.worked hp hbusy hv _ ?_
    rcases hp' with rfl | rfl
    · exact ⟨hok.next_le, hok.stop_le, fun _ => hok.drained hbusy⟩
    · exact hok.advance hbusy
  | removed j ok p v hp hpc hv =>
    have hbusy : p.pc ≠ .waiting := by simp [hpc]
    exact h.worked hp hbusy hv _ ((h.passes p (List.mem_of_getElem? hp)).advance hbusy)

/-- The files of a segment that some call holds are open. -/
theorem RefInv.not_closed (h : RefInv S) {c : Call} (hc : c ∈ S.calls)
    (hholds : c.holds = true) : S.closed c.segment = false := by
  by_contra hne
  obtain ⟨v, hv, hclosed⟩ := (Option.any_eq_true _ _).mp (Bool.eq_true_of_not_eq_false hne)
  have hpos := h.counters.pos hc hholds
  have htouched : S.touched c.segment = true :=
    (Option.any_eq_true _ _).mpr ⟨v, hv, by simp [hclosed]⟩
  exact absurd (h.touched _ htouched) (by omega)

theorem holdersOf_set_le {calls : List Call} {i : Nat} {c : Call} (hc : calls[i]? = some c)
    (hholds : c.holds = true) (pc : CallPc) (k : Nat) :
    holdersOf (calls.set i { c with pc := pc }) k ≤ holdersOf calls k :=
  holders_set_le Call.holds Call.segment hc { c with pc := pc } (fun _ => hholds) rfl k

/-- Only routing adds a reference, to a segment that is not detached. -/
theorem SharedTransition.acquires_live (ht : SharedTransition cs S e S') {k : Nat}
    (hk : holdersOf S.calls k < holdersOf S'.calls k) :
    S.detached.length ≤ k ∧ k < S.segments.length := by
  cases ht with
  -- only `route` acquires, and it finds its segment among the live ones
  | routed offset i hroute =>
    obtain ⟨s, hs, -⟩ := exists_of_route hroute
    have hi := (List.getElem?_eq_some_iff.mp hs).1
    have hkey : S.detached.length + i = k := by
      by_contra hne
      rw [holdersOf, holdersOf, holders_append, if_neg (by simp [hne])] at hk
      omega
    rw [Shared.segments, List.length_append, List.length_map]
    omega
  | read i c seg hc hpc =>
    exact absurd hk (Nat.not_lt.mpr (holdersOf_set_le hc (Call.holds_of_acquired hpc) _ k))
  | released i c r hc hpc =>
    exact absurd hk (Nat.not_lt.mpr (holdersOf_set_le hc (Call.holds_of_read hpc) _ k))
  | committed j e seg log =>
    rw [(setSegment_frame S j _).2.1] at hk
    exact absurd hk (Nat.lt_irrefl _)
  | unrouted | appended | detached | drained | closed | removed =>
    exact absurd hk (Nat.lt_irrefl _)

/-! ## What the calls return -/

/-- Segments by number, later: each has the records it had, and perhaps more. -/
def Grown (cs : Checksum) (l l' : List Segment) : Prop :=
  ∀ (k : Nat) s, l[k]? = some s → ∃ s', l'[k]? = some s' ∧ s'.baseOffset = s.baseOffset ∧
    s.records cs <+: s'.records cs

/-- Segment number `k` holds the record at the global offset. -/
def Shared.Stores (cs : Checksum) (S : Shared) (k o : Nat) (d : Bytes) : Prop :=
  ∃ s, S.segments[k]? = some s ∧ ∃ i, o = s.baseOffset + i ∧ (s.records cs)[i]? = some d

theorem Shared.Stores.grown {k o : Nat} {d : Bytes} (h : S.Stores cs k o d)
    (hg : Grown cs S.segments S'.segments) : S'.Stores cs k o d := by
  obtain ⟨s, hs, i, ho, hd⟩ := h
  obtain ⟨s', hs', hbase, hrecs⟩ := hg k s hs
  obtain ⟨more, hmore⟩ := hrecs
  refine ⟨s', hs', i, by rw [hbase, ho], ?_⟩
  rw [← hmore, List.getElem?_append_left (List.getElem?_eq_some_iff.mp hd).1]
  exact hd

theorem Grown.of_eq {l l' : List Segment} (h : l' = l) : Grown cs l l' := fun _ s hs =>
  ⟨s, h ▸ hs, rfl, List.prefix_rfl⟩

theorem Grown.set {l : List Segment} {k : Nat} {s s' : Segment} (hs : l[k]? = some s)
    (hbase : s'.baseOffset = s.baseOffset) (hrecs : s.records cs <+: s'.records cs) :
    Grown cs l (l.set k s') := by
  intro j t ht
  by_cases hj : k = j
  · subst hj
    obtain rfl := Option.some.inj (hs.symm.trans ht)
    have hlt := (List.getElem?_eq_some_iff.mp hs).1
    exact ⟨s', List.getElem?_set_self hlt, hbase, hrecs⟩
  · exact ⟨t, (List.getElem?_set_ne hj).trans ht, rfl, List.prefix_rfl⟩

theorem Grown.append_left {l l' : List Segment} (h : Grown cs l l') (vs : List Segment) :
    Grown cs (vs ++ l) (vs ++ l') := by
  intro k s hs
  rw [List.getElem?_append] at hs ⊢
  split_ifs at hs ⊢
  · exact ⟨s, hs, rfl, List.prefix_rfl⟩
  · exact h _ s hs

/-- `Append` adds to the active segment, or to a new one behind it. -/
theorem grown_of_rolled {mtime : Int} {m₁ : Manager} (hr : Rolled m mtime m₁) (s : Segment)
    (hbase : s.baseOffset = m₁.active.baseOffset)
    (hrecs : m₁.active.records cs <+: s.records cs) :
    Grown cs m.segments (Manager.segments { m₁ with active := s }) := by
  cases hr with
  -- the active segment grows, or a new one is added behind it
  | kept =>
    have hactive : m.segments[m.front.length]? = some m.active := by simp [Manager.segments]
    have hset : Manager.segments { m with active := s } = m.segments.set m.front.length s := by
      simp [Manager.segments]
    rw [hset]
    exact Grown.set hactive hbase hrecs
  | rolled =>
    intro k t ht
    have hlt := (List.getElem?_eq_some_iff.mp ht).1
    exact ⟨t, (List.getElem?_append_left hlt).trans ht, rfl, List.prefix_rfl⟩

/-- Every call has its reference and its answer right: what a call has read is the record of
    its segment at its offset. -/
structure ReadInv (cs : Checksum) (S : Shared) : Prop where
  refs : RefInv S
  logs : ∀ s ∈ S.segments, SegInv cs s
  calls : ∀ c ∈ S.calls, ∃ d, S.Stores cs c.segment c.offset d ∧
    (c.pc = .acquired ∨ c.pc = .read (.answered (.ok d)) ∨ c.pc = .returned (.answered (.ok d)))

/-- A step that leaves the calls alone. -/
theorem ReadInv.grown (h : ReadInv cs S) (hrefs : RefInv S') (hcalls : S'.calls = S.calls)
    (hlogs : ∀ s ∈ S'.segments, SegInv cs s) (hg : Grown cs S.segments S'.segments) :
    ReadInv cs S' := by
  refine ⟨hrefs, hlogs, fun c hc => ?_⟩
  obtain ⟨d, hd, hpc⟩ := h.calls c (hcalls ▸ hc)
  exact ⟨d, hd.grown hg, hpc⟩

/-- A segment is replaced by one with the same records. -/
theorem ReadInv.set (h : ReadInv cs S) (hrefs : RefInv S') (hcalls : S'.calls = S.calls) {k : Nat}
    {s s' : Segment} (hs : S.segments[k]? = some s) (hsame : SameRecords cs s s')
    (hsegs : S'.segments = S.segments.set k s') : ReadInv cs S' := by
  refine h.grown hrefs hcalls (fun t ht => ?_) ?_
  · rcases List.mem_or_eq_of_mem_set (hsegs ▸ ht) with ht | rfl
    · exact h.logs t ht
    · exact hsame.inv (h.logs s (List.mem_of_getElem? hs))
  · rw [hsegs]
    exact Grown.set hs hsame.base (hsame.records ▸ List.prefix_rfl)

/-- A call moves on. -/
theorem ReadInv.setCall (h : ReadInv cs S) {S' : Shared} {i : Nat} {c : Call} {pc : CallPc}
    (hrefs : RefInv S') (hsegs : S'.segments = S.segments)
    (hcalls : S'.calls = S.calls.set i { c with pc := pc }) {d : Bytes}
    (hd : S.Stores cs c.segment c.offset d)
    (hpc : pc = .acquired ∨ pc = .read (.answered (.ok d)) ∨ pc = .returned (.answered (.ok d))) :
    ReadInv cs S' := by
  have hg : Grown cs S.segments S'.segments := Grown.of_eq hsegs
  refine ⟨hrefs, fun s hs => h.logs s (hsegs ▸ hs), fun c' hc' => ?_⟩
  rcases List.mem_or_eq_of_mem_set (hcalls ▸ hc') with hc' | rfl
  · obtain ⟨d', hd', hpc'⟩ := h.calls c' hc'
    exact ⟨d', hd'.grown hg, hpc'⟩
  · exact ⟨d, hd.grown hg, hpc⟩

/-- A call that holds its segment reads the record at its offset. -/
theorem ReadInv.readAt (h : ReadInv cs S) {c : Call} {seg : Segment} (hc : c ∈ S.calls)
    (hpc : c.pc = .acquired) (hseg : S.segments[c.segment]? = some seg) :
    ∃ d, S.Stores cs c.segment c.offset d ∧ S.closed c.segment = false ∧
      seg.readAt cs c.offset = .ok d := by
  obtain ⟨d, hd, -⟩ := h.calls c hc
  refine ⟨d, hd, h.refs.not_closed hc (Call.holds_of_acquired hpc), ?_⟩
  obtain ⟨s, hs, k, ho, hk⟩ := hd
  obtain rfl := Option.some.inj (hs.symm.trans hseg)
  rw [ho]
  exact (h.logs s (List.mem_of_getElem? hs)).readAt hk

/-- A call routes to a segment that holds its offset. -/
theorem ReadInv.stores_of_route (h : ReadInv cs S) {offset i : Nat}
    (hroute : S.manager.route offset = some i) :
    ∃ d, S.Stores cs (S.detached.length + i) offset d := by
  obtain ⟨s, hs, hcont⟩ := exists_of_route hroute
  have hnumber : S.segments[S.detached.length + i]? = some s := by
    rw [Shared.segments, List.getElem?_append_right (by simp), List.length_map,
      Nat.add_sub_cancel_left]
    exact hs
  obtain ⟨k, d, ho, hd⟩ := (h.logs s (List.mem_of_getElem? hnumber)).contains_iff.mp hcont
  exact ⟨d, s, hnumber, k, ho, hd⟩

/-- Phase 1 of an `Append` leaves every record where it was. -/
theorem ReadInv.appended (h : ReadInv cs S) {data : Bytes} {o : WriteOutcome} (ho : o.Atomic)
    {mtime : Int} {m₁ : Manager} {log : OpenLog} (t : Int) (hrolled : Rolled S.manager mtime m₁)
    (hlog : LogTransition cs m₁.active.log (.reserve data o) log)
    (hrefs : RefInv { S with
      manager := { m₁ with active := { m₁.active with log := log, lastAppend := t } } }) :
    ReadInv cs { S with
      manager := { m₁ with active := { m₁.active with log := log, lastAppend := t } } } := by
  -- a rolled segment is new and empty
  have hactive : SegInv cs m₁.active := by
    cases hrolled with
    | kept => exact h.logs _ (List.mem_append_right _ (Manager.active_mem _))
    | rolled => exact .fresh cs _ mtime
  obtain ⟨hinv, hrecs⟩ := hactive.step t hlog ho
  have hprefix : m₁.active.records cs <+:
      Segment.records cs { m₁.active with log := log, lastAppend := t } := by
    rcases hrecs with hrecs | ⟨data', o', -, hrecs⟩
    · exact hrecs ▸ List.prefix_rfl
    · exact hrecs ▸ List.prefix_append _ _
  have hg := grown_of_rolled hrolled { m₁.active with log := log, lastAppend := t } rfl hprefix
  refine h.grown hrefs rfl (fun s hs => ?_) (hg.append_left (S.detached.map Detached.seg))
  -- detached, sealed or active
  rcases List.mem_append.mp hs with hs | hs
  · exact h.logs s (List.mem_append_left _ hs)
  · rcases List.mem_append.mp hs with hs | hs
    · refine h.logs s (List.mem_append_right _ ?_)
      cases hrolled with
      | kept => exact List.mem_append_left _ hs
      | rolled => exact hs
    · rw [List.mem_singleton.mp hs]
      exact hinv

/-- **Step lemma of the reads.** -/
theorem ReadInv.step (h : ReadInv cs S) (he : e.Atomic) (ht : SharedTransition cs S e S') :
    ReadInv cs S' := by
  have hrefs := h.refs.step ht
  cases ht with
  | unrouted offset => exact h
  -- the routed segment holds the record at this moment
  | routed offset i hroute =>
    refine ⟨hrefs, h.logs, fun c hc => ?_⟩
    rcases List.mem_append.mp hc with hc | hc
    · exact h.calls c hc
    · obtain rfl := List.mem_singleton.mp hc
      obtain ⟨d, hd⟩ := h.stores_of_route hroute
      exact ⟨d, hd, .inl rfl⟩
  -- the file is still open, as the reference keeps it from being closed
  | read i c seg hc hpc hseg =>
    obtain ⟨d, hd, hopen, hread⟩ := h.readAt (List.mem_of_getElem? hc) hpc hseg
    refine h.setCall hrefs rfl rfl hd (.inr (.inl ?_))
    rw [hopen, hread]
    rfl
  | released i c r hc hpc =>
    obtain ⟨d, hd, hpc'⟩ := h.calls c (List.mem_of_getElem? hc)
    refine h.setCall hrefs rfl rfl hd (.inr (.inr ?_))
    rw [hpc] at hpc'
    -- it returns what it had read
    rcases hpc' with hpc' | hpc' | hpc'
    · cases hpc'
    · rw [CallPc.read.inj hpc']
    · cases hpc'
  | appended data o now mtime m₁ log t hrolled hlog => exact h.appended he t hrolled hlog hrefs
  | committed k e seg log hseg hcommit hlog =>
    have hsame := (h.logs seg (List.mem_of_getElem? hseg)).sameRecords_commit hcommit hlog he
    exact h.set hrefs (setSegment_frame S k _).2.1 hseg hsame (segments_setSegment_shared hseg)
  | detached now =>
    have hsegs := segments_detach S now (S.passes ++ [⟨S.detached.length,
      S.detached.length + (S.manager.aged now).length, .waiting⟩])
    exact h.grown hrefs rfl (fun s hs => h.logs s (hsegs ▸ hs)) (.of_eq hsegs)
  | drained j p hp => exact ⟨hrefs, h.logs, h.calls⟩
  | closed j closeOk syncOk idx p v p' hp hpc hv =>
    have hseg := getElem?_segments_of_detached hv
    have hsame := (h.logs v.seg (List.mem_of_getElem? hseg)).close syncOk he
    exact h.set hrefs rfl hseg hsame (segments_set_detached hv _ _)
  | removed j ok p v hp hpc hv =>
    exact h.set hrefs rfl (getElem?_segments_of_detached hv) (.refl v.seg)
      (segments_set_detached hv _ _)

/-- A call can go on at any time: `Done` never finds a counter at zero. -/
theorem RefInv.exists_release (h : RefInv S) (cs : Checksum) {i : Nat} {c : Call} {r : ReadResult}
    (hc : S.calls[i]? = some c) (hpc : c.pc = .read r) :
    ∃ S', S.step cs (.releaseRead i) = some S' ∧
      S'.calls[i]? = some { c with pc := .returned r } := by
  have hpos : 0 < S.readers c.segment :=
    h.counters.pos (List.mem_of_getElem? hc) (Call.holds_of_read hpc)
  have hlt := (List.getElem?_eq_some_iff.mp hc).1
  refine ⟨{ S with
    readers := Function.update S.readers c.segment (S.readers c.segment - 1)
    calls := S.calls.set i { c with pc := .returned r } }, ?_, List.getElem?_set_self hlt⟩
  simp [Shared.step, hc, hpc, hpos]

theorem ReadInv.exists_read (h : ReadInv cs S) {i : Nat} {c : Call}
    (hc : S.calls[i]? = some c) (hpc : c.pc = .acquired) :
    ∃ d S', S.Stores cs c.segment c.offset d ∧ S.step cs (.read i) = some S' ∧
      S'.calls[i]? = some { c with pc := .read (.answered (.ok d)) } := by
  have hmem := List.mem_of_getElem? hc
  have hlt := (List.getElem?_eq_some_iff.mp hc).1
  have hseg := List.getElem?_eq_getElem (h.refs.held c hmem)
  obtain ⟨d, hd, hopen, hread⟩ := h.readAt hmem hpc hseg
  refine ⟨d, { S with calls := S.calls.set i { c with pc := .read (.answered (.ok d)) } }, hd, ?_,
    List.getElem?_set_self hlt⟩
  simp [Shared.step, hc, hpc, hseg, hopen, hread]

/-- The call returned the payload, or its next steps return it. -/
def Shared.Completes (cs : Checksum) (S : Shared) (i : Nat) (c : Call) (d : Bytes) : Prop :=
  match c.pc with
  | .acquired => ∃ S', run (Shared.step cs) S [.read i, .releaseRead i] = some S' ∧
      S'.calls[i]? = some { c with pc := .returned (.answered (.ok d)) }
  | .read r => r = .answered (.ok d) ∧ ∃ S', S.step cs (.releaseRead i) = some S' ∧
      S'.calls[i]? = some { c with pc := .returned r }
  | .returned r => r = .answered (.ok d)

theorem ReadInv.completes (h : ReadInv cs S) {i : Nat} {c : Call} (hc : S.calls[i]? = some c) :
    ∃ d, S.Stores cs c.segment c.offset d ∧ S.Completes cs i c d := by
  -- acquired, read or returned: the steps that are left can be taken
  obtain ⟨d, hd, hpc | hpc | hpc⟩ := h.calls c (List.mem_of_getElem? hc)
  · obtain ⟨d', S₁, hd', hread, hc₁⟩ := h.exists_read hc hpc
    have h₁ := h.refs.step (step_sharedTransition hread)
    obtain ⟨S', hrelease, hc'⟩ := h₁.exists_release cs hc₁ rfl
    refine ⟨d', hd', ?_⟩
    rw [Shared.Completes, hpc]
    exact ⟨S', by rw [run_cons, hread, Option.bind_some, run_cons, hrelease]; rfl, hc'⟩
  · refine ⟨d, hd, ?_⟩
    rw [Shared.Completes, hpc]
    exact ⟨rfl, h.refs.exists_release cs hc hpc⟩
  · refine ⟨d, hd, ?_⟩
    rw [Shared.Completes, hpc]

/-- **No read is cut off by retention.**  In every state that reads, appends and passes reach
    in any order from a manager with no read and no pass under way: no segment that a call
    holds was closed or removed; a step that adds a reference adds it to a live segment; and,
    if the segments were in order and writes are all-or-nothing, every call that routed to a
    segment returned the record that segment holds at the offset, or is about to. -/
theorem reads_survive_retention (cs : Checksum) (m : Manager) (es : List SharedEvent) {S : Shared}
    (hrun : run (Shared.step cs) (Shared.opened m) es = some S) :
    (∀ k, S.touched k = true → holdersOf S.calls k = 0) ∧
      (∀ e S', S.step cs e = some S' → ∀ k, holdersOf S.calls k < holdersOf S'.calls k →
        S.detached.length ≤ k ∧ k < S.segments.length) ∧
      ((∀ s ∈ m.segments, SegInv cs s) → (∀ e ∈ es, SharedEvent.Atomic e) →
        ∀ i c, S.calls[i]? = some c →
          ∃ d, S.Stores cs c.segment c.offset d ∧ S.Completes cs i c d) := by
  have hinit : RefInv (Shared.opened m) := ⟨fun _ => rfl, by simp [Shared.opened],
    by simp [Shared.opened], by simp [Shared.touched, Shared.opened]⟩
  refine ⟨fun k hk => ?_, fun e S' hstep k hk => ?_, fun hlogs hatomic i c hc => ?_⟩
  · -- the counters are exact, so a touched segment has no holder
    have hinv : RefInv S := run_invariant
      (fun t e t' h _ hstep => h.step (step_sharedTransition hstep)) hinit
      (along_of_forall (P := fun _ => True) fun _ _ => trivial) hrun
    exact (hinv.counters k).symm.trans (hinv.touched k hk)
  · exact (step_sharedTransition hstep).acquires_live hk
  · have hread : ReadInv cs S := run_invariant
      (fun t e t' h he hstep => h.step he (step_sharedTransition hstep))
      ⟨hinit, hlogs, by simp [Shared.opened]⟩ (along_of_forall hatomic) hrun
    exact hread.completes hc

/-- Two records in two segments; a read of the first is under way when a pass detaches its
    segment. -/
def readThenDetach : List SharedEvent :=
  [.append [7] .ok 0 0, .append [8] .ok 0 0, .route 0, .detach 100]

/-- The pass waits, and the read returns the record. -/
theorem reads_survive_retention_readThenDetach : ∃ S,
    run (Shared.step byteSum)
        (Shared.opened ⟨Config.settings ⟨1, 10, 0⟩, [], Segment.fresh 0 0⟩) readThenDetach =
      some S ∧
      S.detached.map (·.seg.baseOffset) = [0] ∧ (S.step byteSum (.waitReaders 0)).isNone ∧
      ∃ d, S.Stores byteSum 0 0 d ∧ S.Completes byteSum 0 ⟨0, 0, .acquired⟩ d := by
  refine ⟨_, rfl, by decide, by decide, ?_⟩
  refine (reads_survive_retention byteSum ⟨Config.settings ⟨1, 10, 0⟩, [], Segment.fresh 0 0⟩
    readThenDetach rfl).2.2 (ManagerInv.init byteSum _ 0).logs ?_ 0 ⟨0, 0, .acquired⟩ rfl
  simp [readThenDetach, SharedEvent.Atomic, WriteOutcome.Atomic]

end EventLog.Segments
