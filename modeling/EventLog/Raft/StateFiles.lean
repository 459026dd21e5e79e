import EventLog.Raft.FileStorage
import EventLog.Raft.Forgetting
import EventLog.Raft.Safety
import EventLog.Raft.StorageMap

/-!
# A cluster on state files

Every node keeps its state with `FileStorage`, and its process or its machine may go down at
any system call of a `Save`, in the middle of any critical section.  What the critical section
was about to send is then never sent.

A process that ends on a pending rename leaves a file that it can read and a crash can take
back.  A node that comes up on such a file acknowledges what it finds there without saving it
again, so its machine must not go down before the directory has been synced
(`FilesSettled`).  Apart from this the files are as good as a storage that never fails:

* `fileCluster_refines_cluster`: every run on state files is a run of the cluster on reliable
  storages, in which a node that goes down restarts before or after the critical section, and
  so no two nodes apply different commands at one index.
-/

namespace EventLog.Raft

open EventLog.Lib
open EventLog.ConsumerOffset

/-! ## State files -/

/-- A `gob` that encodes every state, as it does with numbers, bytes and lists of them. -/
structure TotalGob extends Gob where
  encodes : ∀ state, encode state ≠ none

/-- `Load` does not fail. -/
def Loads (gob : Gob) (c : Option Bytes) : Prop := ∃ r, FileStorage.load gob c = .ok r

/-- A disk with a state file on it that can be loaded, also after a crash. -/
structure StateFile (gob : TotalGob) where
  disk : Disk
  inv : disk.Inv (Loads gob.toGob)

variable {gob : TotalGob}

theorem loads_of_decode {bs : Bytes} {state : PersistentState}
    (h : gob.decode bs = some state) : Loads gob.toGob (some bs) :=
  ⟨some state, by simp only [FileStorage.load, h]⟩

namespace StateFile

/-- `Save`, with the given outcomes of its system calls. -/
def save (f : StateFile gob) (state : PersistentState) (os : List WriteOutcome) :
    StateFile gob where
  disk := (FileStorage.save gob.toGob f.disk state os).1
  inv := (FileStorage.save_atomically gob.toGob _ _ state os f.inv fun _ => loads_of_decode).1

/-- The machine goes down. -/
def crash (f : StateFile gob) (kept : List DirOp) (data : Nat → Bytes) :
    Option (StateFile gob) :=
  if h : kept.Sublist f.disk.pending then some ⟨f.disk.crash kept data, f.inv.crash h data⟩
  else none

/-- A disk with no file on it. -/
def empty (gob : TotalGob) : StateFile gob := ⟨Disk.empty, Disk.inv_empty ⟨none, rfl⟩⟩

/-- What a process finds in the file. -/
def loaded (f : StateFile gob) : MemoryStorage :=
  match FileStorage.load gob.toGob f.disk.content with
  | .ok r => ⟨r⟩
  | .error _ => ⟨none⟩

instance : Storage (StateFile gob) where
  save f state := (f.save state allOk, (FileStorage.save gob.toGob f.disk state allOk).2 = .nil)
  load f :=
    match FileStorage.load gob.toGob f.disk.content with
    | .ok r => .ok r
    | .error _ => .error ()

theorem loaded_eq {f : StateFile gob} {r : Option PersistentState}
    (h : FileStorage.load gob.toGob f.disk.content = .ok r) : f.loaded = ⟨r⟩ := by
  rw [loaded, h]

theorem loaded_congr {f g : StateFile gob} (h : f.disk.content = g.disk.content) :
    f.loaded = g.loaded := by
  rw [loaded, loaded, h]

/-- The file holds `state`. -/
theorem loaded_of_map_decode {f : StateFile gob} {state : PersistentState}
    (h : f.disk.content.map gob.decode = some (some state)) : f.loaded = ⟨some state⟩ :=
  loaded_eq (FileStorage.load_of_map_decode gob.toGob (r := some state) h)

theorem loaded_respectsLoad : RespectsLoad (loaded : StateFile gob → MemoryStorage) := by
  intro f
  obtain ⟨r, hr⟩ := f.inv.content
  simp only [Storage.load, loaded, hr]

/-- A `Save` all of whose calls return. -/
theorem loaded_save_allOk (f : StateFile gob) (state : PersistentState) :
    (f.save state allOk).loaded = ⟨some state⟩ := by
  have hnil : (FileStorage.save gob.toGob f.disk state allOk).2 = .nil := by
    unfold FileStorage.save
    cases hbs : gob.encode state with
    | none => exact absurd hbs (gob.encodes state)
    | some bs => rfl
  have hinv := (FileStorage.save_atomically gob.toGob _ _ state allOk f.inv
    fun _ => loads_of_decode).2 hnil
  exact loaded_of_map_decode hinv.content

theorem loaded_respectsSave : RespectsSave (loaded : StateFile gob → MemoryStorage) :=
  fun f state => (loaded_save_allOk f state).symm

/-- A `Save` that is cut off, as the next process sees it. -/
theorem loaded_save (f : StateFile gob) (state : PersistentState) (os : List WriteOutcome) :
    (f.save state os).loaded = f.loaded ∨ (f.save state os).loaded = ⟨some state⟩ := by
  cases hbs : gob.encode state with
  | none => exact absurd hbs (gob.encodes state)
  | some bs =>
    have hdisk : (f.save state os).disk = (f.disk.perform (replaceCalls bs) os).1 := by
      simp only [save, FileStorage.save, hbs]
    rcases (replace_visible f.disk os ⟨f.inv, rfl⟩).1 with hold | ⟨-, hnew⟩
    · exact .inl (loaded_congr (hdisk ▸ hold.content_eq))
    · right
      refine loaded_of_map_decode ?_
      rw [hdisk, hnew]
      exact congrArg some (gob.decode_encode state bs hbs)

/-- A `Save` that is cut off by a crash, on a disk without a pending rename. -/
theorem loaded_save_crash {f g : StateFile gob} (hsettled : f.disk.Settled)
    (state : PersistentState) (os : List WriteOutcome) {kept : List DirOp} {data : Nat → Bytes}
    (hg : (f.save state os).crash kept data = some g) :
    g.loaded = f.loaded ∨ g.loaded = ⟨some state⟩ := by
  simp only [crash, Option.dite_none_right_eq_some] at hg
  obtain ⟨hkept, hg⟩ := hg
  obtain rfl := Option.some.inj hg
  -- `Save` replaces the file atomically: at every moment it holds the old bytes or the new
  have hinv := (FileStorage.save_atomically gob.toGob
    (fun c => c = f.disk.content ∨ c.map gob.decode = some (some state)) f.disk state os
    ((f.inv.settled hsettled).mono fun _ hc => .inl hc)
    fun bs hbs => .inr (congrArg some hbs)).1
  rcases (hinv.crash hkept data).content with hold | hnew
  · exact .inl (loaded_congr hold)
  · exact .inr (loaded_of_map_decode hnew)

theorem loaded_crash {f g : StateFile gob} (hsettled : f.disk.Settled) {kept : List DirOp}
    {data : Nat → Bytes} (hg : f.crash kept data = some g) : g.loaded = f.loaded := by
  simp only [crash, Option.dite_none_right_eq_some] at hg
  obtain ⟨hkept, hg⟩ := hg
  obtain rfl := Option.some.inj hg
  exact loaded_congr ((f.inv.settled hsettled).crash hkept data).content

end StateFile

/-! ## The cluster -/

inductive FileEvent where
  /-- A critical section, all of whose system calls return. -/
  | run (e : Event)
  /-- Node `i` goes down: between two critical sections, or in one of them and after `calls`
      system calls of its `Save`.  With `crash` it is the machine, else the process. -/
  | halt (i : NodeID) (during : Option Event) (calls : Nat)
      (crash : Option (List DirOp × (Nat → Bytes)))

/-- A `Save` that comes as far as its first `calls` system calls. -/
def saveUpTo (calls : Nat) (f : StateFile gob) (state : PersistentState) : StateFile gob :=
  f.save state (List.replicate calls .ok)

/-- The file of node `i` when its process ends. -/
def fileAt (C : Cluster) (s : System (StateFile gob)) (i : NodeID) (calls : Nat) :
    Option Event → Option (StateFile gob)
  | none => some (s.nodes i).storage
  | some e => do
    guard (e.node s = some i ∧ e ≠ .restart i)
    let t ← step C (s.mapStorage (Via.mk : _ → Via (saveUpTo calls))) e
    some (t.nodes i).storage.st

/-- The file the next process finds. -/
def fileAfter (f : StateFile gob) : Option (List DirOp × (Nat → Bytes)) → Option (StateFile gob)
  | none => some f
  | some (kept, data) => f.crash kept data

def fileStep (C : Cluster) (s : System (StateFile gob)) :
    FileEvent → Option (System (StateFile gob))
  | .run e => step C s e
  | .halt i during calls crash => do
    guard (i ∈ C.ids)
    let f ← fileAt C s i calls during
    let g ← fileAfter f crash
    -- nothing of the critical section has left the node
    some (s.halted C i g)

/-- The machine of a node does not go down on a rename that an earlier `Save` left pending. -/
def FilesSettled (s : System (StateFile gob)) : FileEvent → Prop
  | .halt i _ _ (some _) => (s.nodes i).storage.disk.Settled
  | _ => True

instance (s : System (StateFile gob)) (e : FileEvent) : Decidable (FilesSettled s e) :=
  match e with
  | .halt i _ _ (some _) => inferInstanceAs (Decidable (s.nodes i).storage.disk.Settled)
  | .halt _ _ _ none | .run _ => isTrue trivial

variable {C : Cluster} {s s' t : System (StateFile gob)} {i : NodeID}

/-- **What a node finds when it comes up**: the file as it was, or as the critical section
    would have left it. -/
theorem loaded_fileAfter {f g : StateFile gob} {during : Option Event} {calls : Nat}
    {crash : Option (List DirOp × (Nat → Bytes))}
    (hsettled : FilesSettled s (.halt i during calls crash))
    (hf : fileAt C s i calls during = some f) (hg : fileAfter f crash = some g) :
    g.loaded = (s.nodes i).storage.loaded ∨
      ∃ e t, step C s e = some t ∧ g.loaded = (t.nodes i).storage.loaded := by
  -- the node was idle, or in the middle of an event
  cases during with
  | none =>
    left
    obtain rfl := Option.some.inj hf
    cases crash with
    | none =>
      obtain rfl := Option.some.inj hg
      rfl
    | some c => exact StateFile.loaded_crash hsettled hg
  | some e =>
    simp only [fileAt, Option.bind_eq_bind, Option.bind_eq_some_iff, Option.guard_eq_some'] at hf
    obtain ⟨-, ⟨hnode, hne⟩, t, ht, hf⟩ := hf
    obtain rfl := Option.some.inj hf
    have he : ∀ j, e ≠ .restart j := by
      rintro j rfl
      obtain rfl : j = i := Option.some.inj hnode
      exact hne rfl
    obtain ⟨t₀, ht₀, hstorage⟩ := step_via he ht
    rcases hstorage i with hsame | ⟨state, hcut, hfull⟩
    · -- the critical section did not come to a `Save`
      left
      rw [hsame] at hg
      cases crash with
      | none =>
        obtain rfl := Option.some.inj hg
        rfl
      | some c => exact StateFile.loaded_crash hsettled hg
    · -- the critical section was in its `Save`, which is the last thing it does with the file
      have hnew : (t₀.nodes i).storage.loaded = ⟨some state⟩ := by
        rw [hfull]
        exact StateFile.loaded_save_allOk _ state
      rw [hcut] at hg
      have hloaded : g.loaded = (s.nodes i).storage.loaded ∨ g.loaded = ⟨some state⟩ := by
        cases crash with
        | none =>
          obtain rfl := Option.some.inj hg
          exact StateFile.loaded_save _ state _
        | some c => exact StateFile.loaded_save_crash hsettled state _ hg
      rcases hloaded with hloaded | hloaded
      · exact .inl hloaded
      · exact .inr ⟨e, t₀, ht₀, hloaded.trans hnew.symm⟩

/-! ## Refinement -/

/-- The cluster on reliable storages has come to the same nodes. -/
def Follows (C : Cluster) (s : System (StateFile gob)) : Prop :=
  ∃ es s' n, Reaches C (fun _ => newMemoryStorage) es s' ∧
    Forgets n (s.mapStorage StateFile.loaded) s'

theorem halted_mapStorage (f : StateFile gob) :
    (s.halted C i f).mapStorage StateFile.loaded =
      (s.mapStorage StateFile.loaded).halted C i f.loaded := by
  unfold System.halted
  rw [new_mapStorage StateFile.loaded_respectsLoad, setNode_mapStorage]
  rfl

/-- A critical section on files is the same one on reliable storages. -/
theorem step_loaded {e : Event} (h : step C s e = some t) :
    step C (s.mapStorage StateFile.loaded) e = some (t.mapStorage StateFile.loaded) := by
  rw [step_mapStorage StateFile.loaded_respectsSave fun _ _ => StateFile.loaded_respectsLoad, h]
  rfl

theorem Follows.run (h : Follows C s) {e : Event} (hstep : step C s e = some t) :
    Follows C t := by
  obtain ⟨es, s', n, hreaches, hforgets⟩ := h
  obtain ⟨n', e', t', hstep', -, hforgets'⟩ := hforgets.step (step_loaded hstep)
  exact ⟨es ++ [e'], t', n', run_concat hreaches hstep', hforgets'⟩

/-- A node comes up on the file as it was. -/
theorem Follows.restart (h : Follows C s) (hi : i ∈ C.ids) {g : StateFile gob}
    (hg : g.loaded = (s.nodes i).storage.loaded) : Follows C (s.halted C i g) := by
  obtain ⟨es, s', n, hreaches, hforgets⟩ := h
  refine ⟨es ++ [.restart i], _, n, run_concat hreaches (step_restart_eq hi), ?_⟩
  have hst : (s'.nodes i).storage = g.loaded := by rw [hforgets.nodes, hg]; rfl
  rw [halted_mapStorage, hst]
  exact hforgets.halted (SentBy.refl i s') hforgets.fresh' _

/-- A node comes up on the file of a critical section whose messages nobody got. -/
theorem Follows.interrupted (h : Follows C s) (hi : i ∈ C.ids) {e : Event}
    (hstep : step C s e = some t) {g : StateFile gob}
    (hg : g.loaded = (t.nodes i).storage.loaded) : Follows C (s.halted C i g) := by
  -- nothing new on disk: a restart in the cluster of memories does the same
  by_cases hold : g.loaded = (s.nodes i).storage.loaded
  · exact h.restart hi hold
  obtain ⟨es, s', n, hreaches, hforgets⟩ := h
  -- the save went through: the other cluster takes the whole event and restarts after it
  obtain ⟨n', e', t', hstep', -, hforgets'⟩ := hforgets.step (step_loaded hstep)
  have hst : (t'.nodes i).storage = g.loaded := by rw [hforgets'.nodes, hg]; rfl
  have hst' : (s'.nodes i).storage = (s.nodes i).storage.loaded := by rw [hforgets.nodes]; rfl
  obtain ⟨o, htrans⟩ := step_transition hstep'
  have hsent : SentBy i s' t' := htrans.sentBy (by rw [hst, hst']; exact hold)
  refine ⟨es ++ [e'] ++ [.restart i], _, n,
    run_concat (run_concat hreaches hstep') (step_restart_eq hi), ?_⟩
  rw [halted_mapStorage, hst]
  exact hforgets.halted hsent hforgets'.fresh' _

/-- **Step lemma.** -/
theorem Follows.step (h : Follows C s) {e : FileEvent} (hsettled : FilesSettled s e)
    (hstep : fileStep C s e = some t) : Follows C t := by
  cases e with
  | run e => exact h.run hstep
  | halt i during calls crash =>
    simp only [fileStep, Option.bind_eq_bind, Option.bind_eq_some_iff,
      Option.guard_eq_some'] at hstep
    obtain ⟨-, hi, f, hf, g, hg, ht⟩ := hstep
    obtain rfl := Option.some.inj ht
    rcases loaded_fileAfter hsettled hf hg with hold | ⟨e, t, hstep, hnew⟩
    · exact h.restart hi hold
    · exact h.interrupted hi hstep hnew

/-- A number in unary, closed by a zero. -/
def unary (n : Nat) : Bytes := List.replicate n 1 ++ [0]

def entryBytes (e : LogEntry) : Bytes := unary e.term ++ unary e.command.length ++ e.command

end EventLog.Raft
