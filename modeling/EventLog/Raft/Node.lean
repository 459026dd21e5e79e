import EventLog.Raft.Types
import Mathlib.Logic.Function.Basic

/-!
# One Raft node

The critical sections of `raft.go` and `rpc.go` as functions on the node record.
Everything between `r.mu.Lock()` and the matching `Unlock` is one function, so an
RPC that the source sends with the lock released appears here as two functions:
the part that builds the arguments and the part that handles the reply.

`r.storage` is the stored contents; `persistLocked` replaces it.  A map that the
source leaves nil reads as 0 at every key, as a Go map does.
-/

namespace EventLog

open Raft in
/-- A single node in the cluster. -/
structure Raft (σ : Type) where
  id : NodeID
  peers : List NodeID
  currentTerm : Nat
  votedFor : NodeID
  log : List LogEntry
  state : State
  leaderID : NodeID
  commitIndex : Nat
  lastApplied : Nat
  nextIndex : NodeID → Nat
  matchIndex : NodeID → Nat
  storage : σ

namespace Raft

variable {σ : Type}

/-- The term of the entry at index `i`. -/
def termAt (log : List LogEntry) (i : Nat) : Nat := (log.getD i sentinel).term

/-! ## Construction and persistence -/

/-- Restore term, vote and log from storage.  A load error is logged and the node
    starts fresh; an empty saved log keeps the sentinel. -/
def loadPersistedState [Storage σ] (r : Raft σ) : Raft σ :=
  match Storage.load r.storage with
  | .error _ => r
  | .ok none => r
  | .ok (some state) =>
    { r with
      currentTerm := state.currentTerm
      votedFor := state.votedFor
      log := if state.log.length > 0 then state.log else r.log }

/-- `New`: a node in the follower state, restored from its storage. -/
def new [Storage σ] (id : NodeID) (peers : List NodeID) (storage : σ) : Raft σ :=
  loadPersistedState
    { id := id
      peers := peers
      currentTerm := 0
      votedFor := None
      log := [sentinel]
      state := .follower
      leaderID := None
      commitIndex := 0
      lastApplied := 0
      nextIndex := fun _ => 0
      matchIndex := fun _ => 0
      storage := storage }

/-- Write term, vote and log to stable storage.  A `Save` error is only logged. -/
def persistLocked [Storage σ] (r : Raft σ) : Raft σ :=
  { r with
    storage := (Storage.save r.storage
      { currentTerm := r.currentTerm, votedFor := r.votedFor, log := r.log }).1 }

/-- The `if changed { r.persistLocked() }` that closes the RPC handlers. -/
def persistIf [Storage σ] (changed : Bool) (r : Raft σ) : Raft σ :=
  if changed then r.persistLocked else r

/-! ## Small helpers -/

/-- Index of the last log entry. -/
def lastIndexLocked (r : Raft σ) : Nat := r.log.length - 1

/-- Term and index of the last log entry. -/
def lastLogTermIndexLocked (r : Raft σ) : Nat × Nat :=
  (termAt r.log r.lastIndexLocked, r.lastIndexLocked)

def clusterSize (r : Raft σ) : Nat := r.peers.length + 1

def majority (r : Raft σ) : Nat := r.clusterSize / 2 + 1

/-- Step down to follower at the given term. -/
def becomeFollowerLocked (r : Raft σ) (term : Nat) : Raft σ :=
  { r with
    state := .follower
    currentTerm := term
    votedFor := None
    leaderID := None }

/-- Both RPC handlers first adopt a higher term; the flag says whether they did. -/
def observeTerm (r : Raft σ) (term : Nat) : Raft σ × Bool :=
  if term > r.currentTerm then (r.becomeFollowerLocked term, true) else (r, false)

/-! ## Elections -/

/-- `startElection` up to the point where the lock is released, with the arguments
    every peer is sent. -/
def startElection [Storage σ] (r : Raft σ) : Raft σ × RequestVoteArgs :=
  let r :=
    { r with
      state := .candidate
      currentTerm := r.currentTerm + 1
      votedFor := r.id
      leaderID := None }
  let r := r.persistLocked
  let (lastLogTerm, lastLogIndex) := r.lastLogTermIndexLocked
  (r, { term := r.currentTerm
        candidateID := r.id
        lastLogIndex := lastLogIndex
        lastLogTerm := lastLogTerm })

/-- Win the election and initialise the per-follower replication state. -/
def becomeLeaderLocked (r : Raft σ) : Raft σ :=
  if r.state ≠ .candidate then r
  else
    { r with
      state := .leader
      leaderID := r.id
      nextIndex := fun p => if p ∈ r.peers then r.lastIndexLocked + 1 else 0
      matchIndex := fun _ => 0 }

/-- The goroutine of `startElection` handling one reply: `term` and `votes` are the
    captured variables, and the new value of `votes` is returned. -/
def startElectionReply [Storage σ] (r : Raft σ) (term : Nat) (votes : Nat)
    (reply : RequestVoteReply) : Raft σ × Nat :=
  -- the reply belongs to an election this node has left
  if r.state ≠ .candidate ∨ r.currentTerm ≠ term then (r, votes)
  else if reply.term > r.currentTerm then
    ((r.becomeFollowerLocked reply.term).persistLocked, votes)
  else if !reply.voteGranted then (r, votes)
  else
    let votes := votes + 1
    -- later replies of the same election may still arrive, and find a leader
    if votes ≥ r.majority then (r.becomeLeaderLocked, votes) else (r, votes)

/-- The election restriction: is the candidate's log at least as up to date as ours? -/
def candidateUpToDateLocked (r : Raft σ) (args : RequestVoteArgs) : Bool :=
  let (myLastTerm, myLastIndex) := r.lastLogTermIndexLocked
  if args.lastLogTerm ≠ myLastTerm then args.lastLogTerm > myLastTerm
  else args.lastLogIndex ≥ myLastIndex

/-- `RequestVote`. -/
def requestVote [Storage σ] (r : Raft σ) (args : RequestVoteArgs) : Raft σ × RequestVoteReply :=
  let (r, changed) := r.observeTerm args.term
  let reply : RequestVoteReply := { term := r.currentTerm, voteGranted := false }
  if args.term < r.currentTerm then (r, reply)
  else
    let alreadyVoted : Bool := r.votedFor ≠ None && r.votedFor ≠ args.candidateID
    if !alreadyVoted && r.candidateUpToDateLocked args then
      -- the vote is on stable storage before the reply leaves the node
      ({ r with votedFor := args.candidateID }.persistLocked,
        { reply with voteGranted := true })
    else (r.persistIf changed, reply)

/-! ## Replication -/

/-- `Start` proposes a command: index, term and whether this node is the leader. -/
def start [Storage σ] (r : Raft σ) (command : Command) : Raft σ × (Nat × Nat × Bool) :=
  if r.state ≠ .leader then (r, (0, r.currentTerm, false))
  else
    let r := { r with log := r.log ++ [LogEntry.mk r.currentTerm command] }
    let index := r.log.length - 1
    (r.persistLocked, (index, r.currentTerm, true))

/-- `replicateTo` up to the RPC: the arguments sent to `peer`, if this node leads. -/
def replicateTo (r : Raft σ) (peer : NodeID) : Option AppendEntriesArgs :=
  if r.state ≠ .leader then none
  else
    let ni := if r.nextIndex peer < 1 then 1 else r.nextIndex peer
    let prevIndex := ni - 1
    some
      { term := r.currentTerm
        leaderID := r.id
        prevLogIndex := prevIndex
        prevLogTerm := termAt r.log prevIndex
        entries := r.log.drop ni
        leaderCommit := r.commitIndex }

/-- Peers (self included) known to hold index `n`. -/
def replicaCount (r : Raft σ) (n : Nat) : Nat :=
  1 + (r.peers.filter fun p => r.matchIndex p ≥ n).length

/-- The loop of `advanceCommitLocked`, counting `n` down to `commitIndex`. -/
def advanceCommitLoop (r : Raft σ) : Nat → Nat
  | 0 => r.commitIndex
  | n + 1 =>
    if n + 1 > r.commitIndex then
      -- entries of earlier terms are committed only together with one of this term
      if termAt r.log (n + 1) ≠ r.currentTerm then r.advanceCommitLoop n
      else if r.replicaCount (n + 1) ≥ r.majority then n + 1
      else r.advanceCommitLoop n
    else r.commitIndex

/-- Move `commitIndex` to the highest current-term index held by a majority. -/
def advanceCommitLocked (r : Raft σ) : Raft σ :=
  { r with commitIndex := r.advanceCommitLoop r.lastIndexLocked }

/-- `replicateTo` after the RPC returned: `args` holds the captured variables. -/
def replicateToReply (r : Raft σ) (peer : NodeID) (args : AppendEntriesArgs)
    (reply : AppendEntriesReply) : Raft σ :=
  -- the reply belongs to an earlier term or arrives after stepping down
  if r.state ≠ .leader ∨ r.currentTerm ≠ args.term then r
  -- the new term is not saved here, unlike in the handlers
  else if reply.term > r.currentTerm then r.becomeFollowerLocked reply.term
  else if reply.success then
    -- computed from the arguments, as the log may have grown since the call
    let matched := args.prevLogIndex + args.entries.length
    { r with
      matchIndex := Function.update r.matchIndex peer matched
      nextIndex := Function.update r.nextIndex peer (matched + 1) }.advanceCommitLocked
  else if reply.conflictIndex > 0 then
    { r with nextIndex := Function.update r.nextIndex peer reply.conflictIndex }
  -- the follower gave no hint: step back one entry
  else if r.nextIndex peer > 1 then
    { r with nextIndex := Function.update r.nextIndex peer (r.nextIndex peer - 1) }
  else r

/-- The loop that skips the whole conflicting term. -/
def conflictStart (log : List LogEntry) (conflictTerm : Nat) : Nat → Nat
  | 0 => 0
  | ci + 1 =>
    if ci + 1 > 1 ∧ termAt log ci = conflictTerm then conflictStart log conflictTerm ci
    else ci + 1

/-- The loop over `args.Entries`: skip entries already present, and on the first
    mismatch replace the rest of the log.  The flag says whether the log changed. -/
def mergeEntries (log : List LogEntry) (idx : Nat) : List LogEntry → List LogEntry × Bool
  | [] => (log, false)
  | e :: es =>
    -- a delayed call must not truncate entries a later one has added
    if idx ≤ log.length - 1 ∧ termAt log idx = e.term then mergeEntries log (idx + 1) es
    else (log.take idx ++ e :: es, true)

/-- `AppendEntries` from the consistency check on; `changed` says whether adopting the
    leader's term changed the persistent state. -/
def appendChecked [Storage σ] (r : Raft σ) (changed : Bool) (args : AppendEntriesArgs) :
    Raft σ × AppendEntriesReply :=
  let reply : AppendEntriesReply :=
    { term := r.currentTerm, success := false, conflictIndex := 0 }
  -- our log is too short: the leader should continue behind its end
  if args.prevLogIndex > r.lastIndexLocked then
    (r.persistIf changed, { reply with conflictIndex := r.lastIndexLocked + 1 })
  else if termAt r.log args.prevLogIndex ≠ args.prevLogTerm then
    -- the leader may skip everything we hold of the conflicting term
    let conflictTerm := termAt r.log args.prevLogIndex
    (r.persistIf changed,
      { reply with conflictIndex := conflictStart r.log conflictTerm args.prevLogIndex })
  else
    let (log, truncated) := mergeEntries r.log (args.prevLogIndex + 1) args.entries
    let lastNew := args.prevLogIndex + args.entries.length
    let r :=
      { r with
        log := log
        commitIndex :=
          if args.leaderCommit > r.commitIndex then min args.leaderCommit lastNew
          else r.commitIndex }
    (r.persistIf (changed || truncated), { reply with success := true })

/-- `AppendEntries`: reject a stale leader, else adopt its term, become its follower
    and run the consistency check. -/
def appendEntries [Storage σ] (r : Raft σ) (args : AppendEntriesArgs) :
    Raft σ × AppendEntriesReply :=
  if args.term < r.currentTerm then
    (r, { term := r.currentTerm, success := false, conflictIndex := 0 })
  else
    let (r, changed) := r.observeTerm args.term
    -- a candidate of the same term gives way to the leader
    { r with state := .follower, leaderID := args.leaderID }.appendChecked changed args

/-! ## Applying -/

/-- One round of `applyLoop`: the next committed entry, or `none` while it waits. -/
def applyLoop (r : Raft σ) : Option (Raft σ × ApplyMsg) :=
  if r.lastApplied ≥ r.commitIndex then none
  else
    let r := { r with lastApplied := r.lastApplied + 1 }
    some (r,
      { commandValid := true
        command := (r.log.getD r.lastApplied sentinel).command
        commandIndex := r.lastApplied })

end Raft

end EventLog
