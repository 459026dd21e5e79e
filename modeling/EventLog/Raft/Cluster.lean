import EventLog.Lib.Run
import EventLog.Raft.Node

/-!
# A cluster of Raft nodes

The nodes, the RPCs between them and the outputs of their apply channels, with one
transition for each critical section of the source.

## Network

A call is recorded when its request is sent and is never forgotten, so a request may
be delivered late, several times or not at all, also after its caller crashed.  Each
delivery runs the handler at the callee and records the reply it produced.  A reply
is handled at most once per call, and only while the calling goroutine still waits:
`voteOpen` and `appendOpen` are cleared by the reply and by a restart of the caller.

## Elections

`votes` is a variable captured by the goroutines of one `startElection`, so every
election has a counter of its own, and each vote call carries the index of the
election it belongs to.
-/

namespace EventLog.Raft

open EventLog.Lib

/-! ## Configuration -/

/-- A cluster: distinct identities, none of them the reserved `None`, and for every
    node the list of all the other nodes. -/
structure Cluster where
  ids : List NodeID
  peers : NodeID → List NodeID
  ids_nodup : ids.Nodup
  none_notMem : None ∉ ids
  peers_nodup : ∀ i ∈ ids, (peers i).Nodup
  mem_peers : ∀ i ∈ ids, ∀ j, j ∈ peers i ↔ j ∈ ids ∧ j ≠ i

/-- The cluster of the given nodes. -/
def Cluster.ofIds (ids : List NodeID) (hnodup : ids.Nodup) (hnone : None ∉ ids) : Cluster where
  ids := ids
  peers i := ids.filter (· ≠ i)
  ids_nodup := hnodup
  none_notMem := hnone
  peers_nodup _ _ := hnodup.filter _
  mem_peers i _ j := by simp

/-! ## State -/

/-- One `startElection`: who ran it, in which term, and its captured vote counter. -/
structure Election where
  candidate : NodeID
  term : Nat
  votes : Nat
  deriving DecidableEq, Repr

/-- A `RequestVote` call; `election` is the index of the election it belongs to. -/
structure VoteCall where
  caller : NodeID
  callee : NodeID
  args : RequestVoteArgs
  election : Nat
  deriving DecidableEq, Repr

/-- An `AppendEntries` call. -/
structure AppendCall where
  caller : NodeID
  callee : NodeID
  args : AppendEntriesArgs
  deriving DecidableEq, Repr

/-- The global state: nodes, elections, calls with the replies produced for them (by
    call index), and every message handed to an apply channel so far. -/
structure System (σ : Type) where
  nodes : NodeID → Raft σ
  elections : List Election
  voteCalls : List VoteCall
  voteOpen : Nat → Bool
  voteReplies : List (Nat × RequestVoteReply)
  appendCalls : List AppendCall
  appendOpen : Nat → Bool
  appendReplies : List (Nat × AppendEntriesReply)
  applied : List (NodeID × ApplyMsg)

variable {σ : Type} [Storage σ]

/-- Every node freshly built on its own storage. -/
def System.init (C : Cluster) (storages : NodeID → σ) : System σ where
  nodes i := Raft.new i (C.peers i) (storages i)
  elections := []
  voteCalls := []
  voteOpen _ := true
  voteReplies := []
  appendCalls := []
  appendOpen _ := true
  appendReplies := []
  applied := []

/-! ## Transitions -/

/-- The events of a run.  Replies and calls are named by their index. -/
inductive Event where
  | startElection (i : NodeID)
  | start (i : NodeID) (command : Command)
  | replicateTo (i peer : NodeID)
  | deliverVote (k : Nat)
  | deliverAppend (k : Nat)
  | voteReply (m : Nat)
  | appendReply (m : Nat)
  | apply (i : NodeID)
  | restart (i : NodeID)
  deriving DecidableEq, Repr

/-- Replace the node `i`. -/
def System.setNode (s : System σ) (i : NodeID) (r : Raft σ) : System σ :=
  { s with nodes := Function.update s.nodes i r }

/-- One transition; `none` when the event is not enabled. -/
def step (C : Cluster) (s : System σ) : Event → Option (System σ)
  | .startElection i => do
    guard (i ∈ C.ids)
    let (r, args) := (s.nodes i).startElection
    some { s.setNode i r with
      -- the counter starts with the candidate's own vote
      elections := s.elections ++ [⟨i, args.term, 1⟩]
      voteCalls := s.voteCalls ++ r.peers.map fun p => ⟨i, p, args, s.elections.length⟩ }
  | .start i command => do
    guard (i ∈ C.ids)
    some (s.setNode i ((s.nodes i).start command).1)
  | .replicateTo i peer => do
    guard (i ∈ C.ids ∧ peer ∈ (s.nodes i).peers)
    let args ← (s.nodes i).replicateTo peer
    some { s with appendCalls := s.appendCalls ++ [⟨i, peer, args⟩] }
  | .deliverVote k => do
    let c ← s.voteCalls[k]?
    -- a call may be delivered any number of times, at any later moment
    let (r, reply) := (s.nodes c.callee).requestVote c.args
    some { s.setNode c.callee r with voteReplies := s.voteReplies ++ [(k, reply)] }
  | .deliverAppend k => do
    let c ← s.appendCalls[k]?
    let (r, reply) := (s.nodes c.callee).appendEntries c.args
    some { s.setNode c.callee r with appendReplies := s.appendReplies ++ [(k, reply)] }
  | .voteReply m => do
    let (k, reply) ← s.voteReplies[m]?
    let c ← s.voteCalls[k]?
    let e ← s.elections[c.election]?
    -- the goroutine that made the call handles one reply and ends
    guard (s.voteOpen k)
    let (r, votes) := (s.nodes c.caller).startElectionReply c.args.term e.votes reply
    some { s.setNode c.caller r with
      elections := s.elections.set c.election { e with votes := votes }
      voteOpen := Function.update s.voteOpen k false }
  | .appendReply m => do
    let (k, reply) ← s.appendReplies[m]?
    let c ← s.appendCalls[k]?
    guard (s.appendOpen k)
    some { s.setNode c.caller ((s.nodes c.caller).replicateToReply c.callee c.args reply) with
      appendOpen := Function.update s.appendOpen k false }
  | .apply i => do
    guard (i ∈ C.ids)
    let (r, msg) ← (s.nodes i).applyLoop
    some { s.setNode i r with applied := s.applied ++ [(i, msg)] }
  | .restart i => do
    guard (i ∈ C.ids)
    -- The new object starts from the old one's storage; goroutines of the old
    -- object are gone, so its open calls can no longer be answered.
    some { s.setNode i (Raft.new i (C.peers i) (s.nodes i).storage) with
      voteOpen := fun k => s.voteOpen k && !(s.voteCalls[k]?).any (·.caller = i)
      appendOpen := fun k => s.appendOpen k && !(s.appendCalls[k]?).any (·.caller = i) }

/-- `s` is reached from fresh storages by the events `es`. -/
def Reaches (C : Cluster) (storages : NodeID → σ) (es : List Event) (s : System σ) : Prop :=
  run (step C) (System.init C storages) es = some s

end EventLog.Raft
