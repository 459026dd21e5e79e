import EventLog.Raft.Outcomes
import Mathlib.Tactic.Simps.Basic

/-!
# The storage under the cluster

The handlers of a node know its storage only through `Save`, and a restart only through
`Load`.  So a function between two storages that respects `Save` and `Load` carries every
step of a cluster on the one to a step of the same cluster on the other.

* **Handlers**: one equation for each of them, and `step_mapStorage` for the cluster.
* **Journals**: a storage that notes what was saved over a storage of any kind.  Whatever a
  critical section does to a storage is a replay of its journal, and a journal has one entry
  at most: no critical section saves twice.
-/

namespace EventLog

variable {σ τ : Type}

/-- The node with its storage seen through `φ`. -/
@[simps]
def Raft.mapStorage (φ : σ → τ) (r : Raft σ) : Raft τ :=
  { r with storage := φ r.storage }

namespace Raft

open EventLog.Lib

/-- The cluster with its storages seen through `φ`. -/
@[simps]
def System.mapStorage (φ : σ → τ) (s : System σ) : System τ :=
  { s with nodes := fun i => (s.nodes i).mapStorage φ }

variable [Storage σ] [Storage τ] {φ : σ → τ}

/-- `φ` respects `Save`. -/
def RespectsSave (φ : σ → τ) : Prop :=
  ∀ st p, (Storage.save (φ st) p).1 = φ (Storage.save st p).1

/-- `φ` respects `Load`. -/
def RespectsLoad (φ : σ → τ) : Prop := ∀ st, Storage.load (φ st) = Storage.load st

/-! ## Handlers -/

theorem persistLocked_mapStorage (hφ : RespectsSave φ) (r : Raft σ) :
    (r.mapStorage φ).persistLocked = r.persistLocked.mapStorage φ := by
  simp [persistLocked, mapStorage, hφ _ _]

theorem persistIf_mapStorage (hφ : RespectsSave φ) (r : Raft σ) (changed : Bool) :
    (r.mapStorage φ).persistIf changed = (r.persistIf changed).mapStorage φ := by
  cases changed with
  | true => exact persistLocked_mapStorage hφ r
  | false => rfl

omit [Storage σ] [Storage τ] in
theorem observeTerm_mapStorage (r : Raft σ) (term : Nat) :
    (r.mapStorage φ).observeTerm term =
      ((r.observeTerm term).1.mapStorage φ, (r.observeTerm term).2) := by
  unfold observeTerm
  rw [mapStorage_currentTerm]
  split_ifs <;> rfl

theorem startElection_mapStorage (hφ : RespectsSave φ) (r : Raft σ) :
    (r.mapStorage φ).startElection =
      (r.startElection.1.mapStorage φ, r.startElection.2) :=
  Prod.ext (persistLocked_mapStorage hφ
    { r with
      state := .candidate
      currentTerm := r.currentTerm + 1
      votedFor := r.id
      leaderID := None }) rfl

theorem startElectionReply_mapStorage (hφ : RespectsSave φ) (r : Raft σ) (term votes : Nat)
    (reply : RequestVoteReply) :
    (r.mapStorage φ).startElectionReply term votes reply =
      ((r.startElectionReply term votes reply).1.mapStorage φ,
        (r.startElectionReply term votes reply).2) := by
  -- becoming leader and stepping down do not look at the storage
  have hlead : (r.mapStorage φ).becomeLeaderLocked = r.becomeLeaderLocked.mapStorage φ := by
    unfold becomeLeaderLocked
    rw [mapStorage_state]
    split_ifs <;> rfl
  have hstep : (r.mapStorage φ).becomeFollowerLocked reply.term =
      (r.becomeFollowerLocked reply.term).mapStorage φ := rfl
  have hmaj : (r.mapStorage φ).majority = r.majority := rfl
  simp only [startElectionReply, mapStorage_state, mapStorage_currentTerm, hstep, hlead, hmaj,
    persistLocked_mapStorage hφ]
  split_ifs <;> rfl

theorem requestVote_mapStorage (hφ : RespectsSave φ) (r : Raft σ) (args : RequestVoteArgs) :
    (r.mapStorage φ).requestVote args =
      ((r.requestVote args).1.mapStorage φ, (r.requestVote args).2) := by
  unfold requestVote
  rw [observeTerm_mapStorage]
  generalize r.observeTerm args.term = p
  obtain ⟨r, changed⟩ := p
  have hup : (r.mapStorage φ).candidateUpToDateLocked args = r.candidateUpToDateLocked args := rfl
  simp only [mapStorage_currentTerm, mapStorage_votedFor, hup, persistIf_mapStorage hφ]
  split_ifs
  · rfl
  · exact Prod.ext (persistLocked_mapStorage hφ { r with votedFor := args.candidateID }) rfl
  · rfl

theorem start_mapStorage (hφ : RespectsSave φ) (r : Raft σ) (command : Command) :
    (r.mapStorage φ).start command =
      ((r.start command).1.mapStorage φ, (r.start command).2) := by
  unfold Raft.start
  rw [mapStorage_state]
  split_ifs
  · rfl
  · exact Prod.ext (persistLocked_mapStorage hφ
      { r with log := r.log ++ [LogEntry.mk r.currentTerm command] }) rfl

omit [Storage σ] [Storage τ] in
theorem replicateTo_mapStorage (r : Raft σ) (peer : NodeID) :
    (r.mapStorage φ).replicateTo peer = r.replicateTo peer := rfl

omit [Storage σ] [Storage τ] in
theorem advanceCommitLocked_mapStorage (r : Raft σ) :
    (r.mapStorage φ).advanceCommitLocked = r.advanceCommitLocked.mapStorage φ := by
  have hloop : ∀ n, (r.mapStorage φ).advanceCommitLoop n = r.advanceCommitLoop n := by
    intro n
    induction n with
    | zero => rfl
    | succ n ih =>
      unfold advanceCommitLoop
      rw [ih]
      rfl
  simp [advanceCommitLocked, lastIndexLocked, mapStorage, ← hloop]

omit [Storage σ] [Storage τ] in
theorem replicateToReply_mapStorage (r : Raft σ) (peer : NodeID) (args : AppendEntriesArgs)
    (reply : AppendEntriesReply) :
    (r.mapStorage φ).replicateToReply peer args reply =
      (r.replicateToReply peer args reply).mapStorage φ := by
  simp only [replicateToReply, mapStorage_state, mapStorage_currentTerm, mapStorage_nextIndex]
  split_ifs
  · rfl
  · rfl
  · exact advanceCommitLocked_mapStorage
      (r.recordMatch peer (args.prevLogIndex + args.entries.length))
  · rfl
  · rfl
  · rfl

theorem appendChecked_mapStorage (hφ : RespectsSave φ) (r : Raft σ) (changed : Bool)
    (args : AppendEntriesArgs) :
    (r.mapStorage φ).appendChecked changed args =
      ((r.appendChecked changed args).1.mapStorage φ, (r.appendChecked changed args).2) := by
  have hlast : (r.mapStorage φ).lastIndexLocked = r.lastIndexLocked := rfl
  unfold appendChecked
  rw [hlast, mapStorage_log]
  -- a rejection saves the term at most, an acceptance the merged log
  split
  · exact Prod.ext (persistIf_mapStorage hφ r changed) rfl
  · split
    · exact Prod.ext (persistIf_mapStorage hφ r changed) rfl
    · exact Prod.ext (persistIf_mapStorage hφ
        { r with
          log := (mergeEntries r.log (args.prevLogIndex + 1) args.entries).1
          commitIndex :=
            if args.leaderCommit > r.commitIndex then
              min args.leaderCommit (args.prevLogIndex + args.entries.length)
            else r.commitIndex } _) rfl

theorem appendEntries_mapStorage (hφ : RespectsSave φ) (r : Raft σ) (args : AppendEntriesArgs) :
    (r.mapStorage φ).appendEntries args =
      ((r.appendEntries args).1.mapStorage φ, (r.appendEntries args).2) := by
  unfold appendEntries
  rw [mapStorage_currentTerm, observeTerm_mapStorage]
  split_ifs
  · rfl
  · exact appendChecked_mapStorage hφ
      { (r.observeTerm args.term).1 with state := .follower, leaderID := args.leaderID } _ args

omit [Storage σ] [Storage τ] in
theorem applyLoop_mapStorage (r : Raft σ) :
    (r.mapStorage φ).applyLoop = r.applyLoop.map fun p => (p.1.mapStorage φ, p.2) := by
  unfold applyLoop
  rw [mapStorage_lastApplied, mapStorage_commitIndex]
  split_ifs <;> rfl

theorem new_mapStorage (hφ : RespectsLoad φ) (id : NodeID) (peers : List NodeID) (st : σ) :
    Raft.new id peers (φ st) = (Raft.new id peers st).mapStorage φ := by
  unfold Raft.new loadPersistedState
  simp only [hφ st]
  cases Storage.load st with
  | error => rfl
  | ok saved =>
    cases saved with
    | none => rfl
    | some state => rfl

/-! ## The cluster -/

omit [Storage σ] [Storage τ] in
theorem setNode_mapStorage (s : System σ) (i : NodeID) (r : Raft σ) :
    (s.mapStorage φ).setNode i (r.mapStorage φ) = (s.setNode i r).mapStorage φ := by
  simp only [System.setNode, System.mapStorage, System.mk.injEq, and_true]
  funext j
  by_cases hj : j = i
  · rw [hj, Function.update_self, Function.update_self]
  · rw [Function.update_of_ne hj, Function.update_of_ne hj]

/-- **A storage map carries the steps of the cluster**; only a restart loads. -/
theorem step_mapStorage (hsave : RespectsSave φ) {C : Cluster} {s : System σ} {e : Event}
    (hload : ∀ i, e = .restart i → RespectsLoad φ) :
    step C (s.mapStorage φ) e = (step C s e).map (System.mapStorage φ) := by
  -- no test of an event looks at a storage, so both systems take the same branch
  cases e with
  -- the guards look at the members and at the lists, which the map leaves alone
  | startElection i =>
    by_cases hi : i ∈ C.ids
    · simp [step, hi, startElection_mapStorage hsave, setNode_mapStorage]
      rfl
    · simp [step, hi]
  | start i command =>
    by_cases hi : i ∈ C.ids
    · simp [step, hi, start_mapStorage hsave, setNode_mapStorage]
    · simp [step, hi]
  | replicateTo i peer =>
    by_cases hi : i ∈ C.ids ∧ peer ∈ (s.nodes i).peers
    · cases hargs : (s.nodes i).replicateTo peer with
      | none => simp [step, hi, replicateTo_mapStorage, hargs]
      | some args =>
        simp [step, hi, replicateTo_mapStorage, hargs]
        rfl
    · simp [step, hi]
  | deliverVote k =>
    cases hc : s.voteCalls[k]? with
    | none => simp [step, hc]
    | some c =>
      simp [step, hc, requestVote_mapStorage hsave, setNode_mapStorage]
      rfl
  | deliverAppend k =>
    cases hc : s.appendCalls[k]? with
    | none => simp [step, hc]
    | some c =>
      simp [step, hc, appendEntries_mapStorage hsave, setNode_mapStorage]
      rfl
  -- a reply, its call and its election are looked up one after the other
  | voteReply m =>
    cases hm : s.voteReplies[m]? with
    | none => simp [step, hm]
    | some p =>
      obtain ⟨k, reply⟩ := p
      cases hc : s.voteCalls[k]? with
      | none => simp [step, hm, hc]
      | some c =>
        cases he : s.elections[c.election]? with
        | none => simp [step, hm, hc, he]
        | some e =>
          by_cases hopen : s.voteOpen k = true
          · simp [step, hm, hc, he, hopen, startElectionReply_mapStorage hsave, setNode_mapStorage]
            rfl
          · simp [step, hm, hc, hopen]
  | appendReply m =>
    cases hm : s.appendReplies[m]? with
    | none => simp [step, hm]
    | some p =>
      obtain ⟨k, reply⟩ := p
      cases hc : s.appendCalls[k]? with
      | none => simp [step, hm, hc]
      | some c =>
        by_cases hopen : s.appendOpen k = true
        · simp [step, hm, hc, hopen, replicateToReply_mapStorage, setNode_mapStorage]
          rfl
        · simp [step, hm, hc, hopen]
  | apply i =>
    by_cases hi : i ∈ C.ids
    · cases hr : (s.nodes i).applyLoop with
      | none => simp [step, hi, applyLoop_mapStorage, hr]
      | some p =>
        simp [step, hi, applyLoop_mapStorage, hr, setNode_mapStorage]
        rfl
    · simp [step, hi]
  -- the one event that loads
  | restart i =>
    by_cases hi : i ∈ C.ids
    · simp [step, hi, new_mapStorage (hload i rfl), setNode_mapStorage]
      rfl
    · simp [step, hi]

/-! ## Journals -/

/-- A storage as it was, and what has been saved since. -/
structure Journal (σ : Type) where
  start : σ
  saves : List PersistentState

instance : Storage (Journal σ) where
  save j p := ({ j with saves := j.saves ++ [p] }, true)
  load j := Storage.load j.start

/-- The storage with nothing noted yet. -/
def Journal.of (st : σ) : Journal σ := ⟨st, []⟩

/-- A storage that is saved to in a way of its own. -/
structure Via (save : σ → PersistentState → σ) where
  st : σ

instance (save : σ → PersistentState → σ) : Storage (Via save) where
  save v p := (⟨save v.st p⟩, true)
  load v := Storage.load v.st

/-- What the saves of a journal make of the storage. -/
def Journal.replay (save : σ → PersistentState → σ) (j : Journal σ) : σ :=
  j.saves.foldl save j.start

theorem replay_save (save : σ → PersistentState → σ) (j : Journal σ) (p : PersistentState) :
    (Storage.save j p).1.replay save = save (j.replay save) p :=
  List.foldl_concat save j.start p j.saves

theorem replay_respectsSave : RespectsSave (Journal.replay fun (st : σ) p =>
    (Storage.save st p).1) :=
  fun j p => (replay_save (fun (st : σ) p => (Storage.save st p).1) j p).symm

theorem replay_via_respectsSave (save : σ → PersistentState → σ) :
    RespectsSave fun j : Journal σ => (⟨j.replay save⟩ : Via save) :=
  fun j p => congrArg Via.mk (replay_save save j p).symm

/-- The storage of `r'` is that of `r`, or that of `r` after one save. -/
def SavesOnce (r r' : Raft σ) : Prop :=
  r'.storage = r.storage ∨ ∃ p, r'.storage = (Storage.save r.storage p).1

theorem persistIf_savesOnce {r r' : Raft σ} (h : r'.storage = r.storage) (changed : Bool) :
    SavesOnce r (r'.persistIf changed) := by
  cases changed with
  | true => exact .inr ⟨_, by rw [persistIf, if_pos rfl, persistLocked, h]⟩
  | false => exact .inl h

/-- **A critical section saves once at most.** -/
theorem NodeStep.savesOnce {C : Cluster} {s s' : System σ} {i : NodeID} {r : Raft σ}
    (h : NodeStep C s s' i r) : SavesOnce (s.nodes i) r := by
  -- each outcome saves at the end of its critical section or not at all
  cases h with
  | same => exact .inl rfl
  | startElection => exact .inr ⟨_, rfl⟩
  | start command => exact .inr ⟨_, rfl⟩
  | requestVote call r reply _ _ hr =>
    cases hr with
    | refused => exact .inl rfl
    | adopted | granted | adoptedGranted => exact .inr ⟨_, rfl⟩
  | appendEntries call r reply _ _ hr =>
    cases hr with
    | stale => exact .inl rfl
    | rejected => exact persistIf_savesOnce rfl _
    | accepted => exact persistIf_savesOnce rfl _
  | voteReply call r reply votes votes' _ _ hr =>
    cases hr with
    | ignored | counted | elected => exact .inl rfl
    | steppedDown => exact .inr ⟨_, rfl⟩
  | appendReply k call r reply _ _ _ hr =>
    cases hr with
    | ignored | steppedDown | matched | backedUp => exact .inl rfl
  | apply r msg _ hr =>
    obtain ⟨_, rfl, _⟩ := applyLoop_eq_some hr
    exact .inl rfl
  | restart => exact .inl (storage_new ..)

/-- **One critical section over two storages**: if it runs over a storage with another way to
    save, it runs over the storage itself, and at each node either neither was saved to or
    both were, once and with the same state. -/
theorem step_via {save : σ → PersistentState → σ} {C : Cluster} {s : System σ} {e : Event}
    (he : ∀ i, e ≠ .restart i) {t : System (Via save)}
    (h : step C (s.mapStorage Via.mk) e = some t) :
    ∃ t₀, step C s e = some t₀ ∧ ∀ i, (t.nodes i).storage.st = (s.nodes i).storage ∨
      ∃ p, (t.nodes i).storage.st = save (s.nodes i).storage p ∧
        (t₀.nodes i).storage = (Storage.save (s.nodes i).storage p).1 := by
  -- both are replays of one step over journals
  have hvia : (s.mapStorage Journal.of).mapStorage
      (fun j : Journal σ => (⟨j.replay save⟩ : Via save)) = s.mapStorage Via.mk := rfl
  have hself : (s.mapStorage Journal.of).mapStorage
      (Journal.replay fun (st : σ) p => (Storage.save st p).1) = s := rfl
  rw [← hvia, step_mapStorage (replay_via_respectsSave save) fun i hi => absurd hi (he i)] at h
  obtain ⟨tj, htj, rfl⟩ := Option.map_eq_some_iff.mp h
  refine ⟨tj.mapStorage (Journal.replay fun (st : σ) p => (Storage.save st p).1), ?_, fun i => ?_⟩
  · rw [← hself, step_mapStorage replay_respectsSave fun i hi => absurd hi (he i), htj]
    rfl
  · -- with one save at most, the journal has one entry at most
    obtain ⟨o, ht⟩ := step_transition htj
    rcases (ht.node i).savesOnce with hsame | ⟨p, hp⟩
    · left
      simp only [System.mapStorage_nodes, mapStorage_storage, hsame]
      rfl
    · right
      refine ⟨p, ?_, ?_⟩
      · simp only [System.mapStorage_nodes, mapStorage_storage, hp, replay_save]
        rfl
      · simp only [System.mapStorage_nodes, mapStorage_storage, hp, replay_save]
        rfl

end Raft

end EventLog
