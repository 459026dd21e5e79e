import EventLog.ConsumerOffset.Offsets
import EventLog.Raft.Types

/-!
# The state file of a node

`FileStorage` of `internal/raft/storage.go`: `Save` encodes the persistent state with `gob`
and replaces the state file, `Load` decodes it.  The recipe of the replacement is the one of
the consumer's offset file, call by call, so one result covers the two.
-/

namespace EventLog.Raft

open EventLog.Lib
open EventLog.ConsumerOffset

/-- `encoding/gob` for the persistent state: what it encodes, it decodes. -/
structure Gob where
  encode : PersistentState → Option Bytes
  decode : Bytes → Option PersistentState
  decode_encode : ∀ state bs, encode state = some bs → decode bs = some state

namespace FileStorage

variable (gob : Gob)

/-- `Save`: nothing is touched when the state cannot be encoded. -/
def save (d : Disk) (state : PersistentState) (os : List WriteOutcome) : Disk × SaveResult :=
  match gob.encode state with
  | none => (d, .unencoded)
  | some bs => d.perform (replaceCalls bs) os

/-- Why `Load` fails. -/
inductive LoadError where
  | decodeState
  deriving DecidableEq, Repr

/-- `Load` on the bytes under the path; a missing file is "nothing saved yet". -/
def load : Option Bytes → Except LoadError (Option PersistentState)
  | none => .ok none
  | some data =>
    match gob.decode data with
    | none => .error .decodeState
    | some state => .ok (some state)

theorem save_atomically : SavesAtomically gob.decode (save gob) := by
  intro A d state os hinv hA
  unfold save
  cases hbs : gob.encode state with
  | none => exact ⟨hinv, fun h => nomatch h⟩
  | some bs => exact replace_saves (gob.decode_encode state bs hbs) hinv hA os

/-- `Load` of a file that decodes to `r`. -/
theorem load_of_map_decode {c : Option Bytes} {r : Option PersistentState}
    (h : c.map gob.decode = r.map some) : load gob c = .ok r := by
  rcases map_decode_cases h with ⟨rfl, rfl⟩ | ⟨data, state, rfl, rfl, hdecode⟩
  · rfl
  · simp only [load, hdecode]

end FileStorage

/-! ## Saves and crashes -/

/-- **Atomic replace**: after any series of saves, each of them complete, failed in any call
    or cut off between two of them, and of crashes that keep any part of what was not synced,
    `OffsetReader.Read` and `FileStorage.Load` succeed, and return what the last save that
    returned nil has saved (the result for "never saved" if there was none) or what a save
    started after it was to save. -/
theorem replace_atomic (gob : Gob) :
    (∀ (es : List (SavesEvent UInt64)) (s : Saves UInt64),
      run (Saves.step OffsetWriter.writeLocked) Saves.init es = some s →
      ∃ p, OffsetReader.read s.disk.content = .ok p ∧ (p = s.saved.getD 0 ∨ p ∈ s.since)) ∧
    (∀ (es : List (SavesEvent PersistentState)) (s : Saves PersistentState),
      run (Saves.step (FileStorage.save gob)) Saves.init es = some s →
      ∃ r, FileStorage.load gob s.disk.content = .ok r ∧
        (r = s.saved ∨ ∃ state ∈ s.since, r = some state)) := by
  constructor
  · intro es s hrun
    obtain ⟨r, hr, hallowed⟩ := saves_run writeLocked_atomically hrun
    -- a file that does not exist reads as offset 0
    refine ⟨r.getD 0, read_of_map_decode hr, ?_⟩
    rcases hallowed with rfl | ⟨v, hv, rfl⟩
    · exact Or.inl rfl
    · exact Or.inr hv
  · intro es s hrun
    obtain ⟨r, hr, hallowed⟩ := saves_run (FileStorage.save_atomically gob) hrun
    exact ⟨r, FileStorage.load_of_map_decode gob hr, hallowed⟩

/-- A codec for states of one term without a vote and without a log. -/
def termGob : Gob where
  encode state :=
    if state.currentTerm < 256 ∧ state.votedFor = None ∧ state.log = [] then
      some [UInt8.ofNat state.currentTerm]
    else none
  decode
    | [b] => some ⟨b.toNat, None, []⟩
    | _ => none
  decode_encode := by
    rintro ⟨term, vote, log⟩ bs h
    simp only [Option.ite_none_right_eq_some, Option.some.injEq] at h
    obtain ⟨⟨hlt, rfl, rfl⟩, rfl⟩ := h
    simp [Nat.mod_eq_of_lt hlt]

/-- The second save is cut off before its fsync, and the crash that follows keeps the new
    name of the temporary file over garbage; the third save fails in its directory fsync. -/
def tornTmp : List (SavesEvent PersistentState) :=
  [.save ⟨1, None, []⟩ allOk, .save ⟨2, None, []⟩ [.ok, .ok], .crash [.create 1] fun _ => [7, 7],
    .save ⟨3, None, []⟩ [.ok, .ok, .ok, .ok, .ok, .failed 0]]

theorem replace_atomic_tornTmp :
    ∃ s, run (Saves.step (FileStorage.save termGob)) Saves.init tornTmp = some s ∧
      ∃ r, FileStorage.load termGob s.disk.content = .ok r ∧
        (r = s.saved ∨ ∃ state ∈ s.since, r = some state) :=
  ⟨_, rfl, (replace_atomic termGob).2 tornTmp _ rfl⟩

end EventLog.Raft
