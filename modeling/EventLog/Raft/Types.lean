import Mathlib.Data.List.Basic

/-!
# Raft data model

The types of `internal/raft`: terms, node identities, log entries, the two RPCs
with their replies, and the persistent state behind the `Storage` interface.

Terms (the source's `Term`) and log indices are `uint64` counters that only ever move
by one; they are `Nat` here.  Timers and deadlines only decide *when* an election
starts, so they are not part of the model.
-/

namespace EventLog.Raft

/-- Identity of a node in the cluster. -/
abbrev NodeID := Int

/-- Marks "no vote cast this term" and "no leader known". -/
def None : NodeID := -1

/-- The bytes of a replicated command. -/
abbrev Command := List UInt8

/-- One replicated command tagged with the term it was created in. -/
structure LogEntry where
  term : Nat
  command : Command
  deriving DecidableEq, Repr, Inhabited

/-- The sentinel at index 0 of every log; real entries start at index 1. -/
def sentinel : LogEntry := { term := 0, command := [] }

/-- A committed entry handed to the state machine. -/
structure ApplyMsg where
  commandValid : Bool
  command : Command
  commandIndex : Nat
  deriving DecidableEq, Repr

/-- A node's role. -/
inductive State where
  | follower
  | candidate
  | leader
  deriving DecidableEq, Repr

/-- A candidate asking a peer for its vote. -/
structure RequestVoteArgs where
  term : Nat
  candidateID : NodeID
  lastLogIndex : Nat
  lastLogTerm : Nat
  deriving DecidableEq, Repr

structure RequestVoteReply where
  term : Nat
  voteGranted : Bool
  deriving DecidableEq, Repr

/-- The leader replicating entries, or a bare heartbeat when `entries` is empty. -/
structure AppendEntriesArgs where
  term : Nat
  leaderID : NodeID
  prevLogIndex : Nat
  prevLogTerm : Nat
  entries : List LogEntry
  leaderCommit : Nat
  deriving DecidableEq, Repr

structure AppendEntriesReply where
  term : Nat
  success : Bool
  conflictIndex : Nat
  deriving DecidableEq, Repr

/-! ## Persistent state -/

/-- What a node must have on stable storage before it replies to an RPC. -/
structure PersistentState where
  currentTerm : Nat
  votedFor : NodeID
  log : List LogEntry
  deriving DecidableEq, Repr

/-- The `Storage` interface: `Save` returns the new contents and whether it
    returned a nil error; `Load` returns an error, "nothing saved yet", or a state. -/
class Storage (σ : Type) where
  save : σ → PersistentState → σ × Bool
  load : σ → Except Unit (Option PersistentState)

/-- A storage whose `Save` always succeeds and whose `Load` returns the state
    saved last. -/
class ReliableStorage (σ : Type) extends Storage σ where
  save_succeeds : ∀ (st : σ) (p : PersistentState), (save st p).2 = true
  load_save : ∀ (st : σ) (p : PersistentState), load (save st p).1 = .ok (some p)

/-- `MemoryStorage` keeps the last saved state in RAM. -/
structure MemoryStorage where
  saved : Option PersistentState
  deriving DecidableEq, Repr

instance : ReliableStorage MemoryStorage where
  save _ p := (⟨some p⟩, true)
  load st := .ok st.saved
  save_succeeds _ _ := rfl
  load_save _ _ := rfl

/-- `NewMemoryStorage`. -/
def newMemoryStorage : MemoryStorage := ⟨none⟩

end EventLog.Raft
