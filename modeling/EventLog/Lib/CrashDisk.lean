import EventLog.Lib.File
import EventLog.Lib.Run

/-!
# Replacing a file on a disk that crashes

A file is replaced through a temporary one: write the temporary file, fsync it, rename it
over the file, fsync the directory.  Every call may fail, and the machine may crash between
any two of them.

* **Disk**: data is on the disk for sure only after an fsync of its file, a change of the
  directory only after an fsync of the directory.  A crash keeps any part of the rest.
* **Crash triples**: `CrashTriple P cs Q I` says of a list of calls that `I` holds wherever
  the calls stop, and `Q` when all of them returned.
* **Replacement**: `replace_triple` is the triple of the recipe, and `replace_visible` says
  what the programs that keep running see of it.
* **Saves**: `saves_run` reads it over a series of saves and crashes.
-/

namespace EventLog.Lib

/-! ## Disk -/

/-- A file's data.  What is not synced may be anything after a crash. -/
structure Inode where
  content : Bytes
  synced : Bool
  deriving DecidableEq, Repr

/-- The two names of the directory: the file and its temporary companion. -/
structure Directory where
  file : Option Nat
  tmp : Option Nat
  deriving DecidableEq, Repr

/-- A change of the directory. -/
inductive DirOp where
  /-- The temporary name is given to a new file. -/
  | create (i : Nat)
  /-- The temporary file takes the name of the file. -/
  | rename (i : Nat)
  deriving DecidableEq, Repr

def Directory.apply (dir : Directory) : DirOp → Directory
  | .create i => { dir with tmp := some i }
  | .rename i => ⟨some i, none⟩

/-- The disk: the directory as of its last fsync, the changes since, and the file that is
    open for writing. -/
structure Disk where
  inodes : List Inode
  durable : Directory
  pending : List DirOp
  handle : Nat
  deriving DecidableEq, Repr

namespace Disk

/-- A disk with neither file. -/
def empty : Disk := ⟨[], ⟨none, none⟩, [], 0⟩

/-- The directory as the running programs see it. -/
def dir (d : Disk) : Directory := d.pending.foldl Directory.apply d.durable

/-- The bytes under the file's name, if there is such a file. -/
def content (d : Disk) : Option Bytes :=
  d.dir.file.bind fun i => d.inodes[i]?.map Inode.content

/-- Open the temporary file; a leftover one is truncated. -/
def openTmp (d : Disk) : Disk :=
  match d.dir.tmp with
  | some i => { d with inodes := d.inodes.set i ⟨[], false⟩, handle := i }
  | none =>
    { d with
      inodes := d.inodes ++ [⟨[], false⟩]
      pending := d.pending ++ [.create d.inodes.length]
      handle := d.inodes.length }

/-- Append to the open file. -/
def write (d : Disk) (bs : Bytes) : Disk :=
  { d with inodes := d.inodes.modify d.handle fun n => ⟨n.content ++ bs, false⟩ }

/-- Fsync the open file. -/
def sync (d : Disk) : Disk :=
  { d with inodes := d.inodes.modify d.handle fun n => ⟨n.content, true⟩ }

/-- Rename the temporary file over the file. -/
def rename (d : Disk) : Disk :=
  match d.dir.tmp with
  | some i => { d with pending := d.pending ++ [.rename i] }
  | none => d

/-- Fsync the directory. -/
def syncDir (d : Disk) : Disk := { d with durable := d.dir, pending := [] }

/-- What is found after a crash: of the changes of the directory those that are `kept`, and
    `data` where a file was not synced. -/
def crash (d : Disk) (kept : List DirOp) (data : Nat → Bytes) : Disk where
  inodes := d.inodes.mapIdx fun i n => ⟨if n.synced then n.content else data i, true⟩
  durable := kept.foldl Directory.apply d.durable
  pending := []
  handle := d.handle

end Disk

/-- The system calls of a replacement. -/
inductive Call where
  | openTmp
  | write (bs : Bytes)
  | sync
  | close
  | rename
  | syncDir
  deriving DecidableEq, Repr

/-- One call.  A failed one may have had its effect (`failed 0`: none), a failed write on a
    prefix of its bytes. -/
def Disk.exec (d : Disk) : Call → WriteOutcome → Disk
  | .openTmp, .ok => d.openTmp
  | .openTmp, .failed k => if k = 0 then d else d.openTmp
  | .write bs, .ok => d.write bs
  | .write bs, .failed k => d.write (bs.take k)
  | .sync, .ok => d.sync
  | .sync, .failed _ => d
  | .close, _ => d
  | .rename, .ok => d.rename
  | .rename, .failed k => if k = 0 then d else d.rename
  | .syncDir, .ok => d.syncDir
  | .syncDir, .failed _ => d

/-- How a save ended: with a nil error, with the error of a call, with a value that could
    not be encoded, or cut off by the end of its process. -/
inductive SaveResult where
  | nil
  | failed (c : Call)
  | unencoded
  | cut
  deriving DecidableEq, Repr

/-- Make the calls one after the other up to the first that fails.  The process ends where
    there are no more outcomes. -/
def Disk.perform (d : Disk) : List Call → List WriteOutcome → Disk × SaveResult
  | [], _ => (d, .nil)
  | _ :: _, [] => (d, .cut)
  | c :: cs, .ok :: os => (d.exec c .ok).perform cs os
  | c :: _, .failed k :: _ => (d.exec c (.failed k), .failed c)

/-- Replace the file by `bs`. -/
def replaceCalls (bs : Bytes) : List Call :=
  [.openTmp, .write bs, .sync, .close, .rename, .syncDir]

/-! ## Crash triples -/

/-- From `P`, the calls stop in `I` wherever they stop, and in `Q` when all of them
    returned. -/
def CrashTriple (P : Disk → Prop) (cs : List Call) (Q I : Disk → Prop) : Prop :=
  ∀ d os, P d → I (d.perform cs os).1 ∧ ((d.perform cs os).2 = .nil → Q (d.perform cs os).1)

theorem CrashTriple.nil {P Q I : Disk → Prop} (hI : ∀ d, P d → I d) (hQ : ∀ d, P d → Q d) :
    CrashTriple P [] Q I := by
  intro d os hP
  simp only [Disk.perform]
  exact ⟨hI d hP, fun _ => hQ d hP⟩

/-- One call, then the rest. -/
theorem CrashTriple.cons {P R Q I : Disk → Prop} {c : Call} {cs : List Call}
    (hI : ∀ d, P d → I d) (hok : ∀ d, P d → R (d.exec c .ok))
    (hfail : ∀ d k, P d → I (d.exec c (.failed k))) (hrest : CrashTriple R cs Q I) :
    CrashTriple P (c :: cs) Q I := by
  intro d os hP
  -- the process may die before the call, or the call may fail
  cases os with
  | nil => exact ⟨hI d hP, fun h => nomatch h⟩
  | cons o os =>
    cases o with
    | ok => exact hrest (d.exec c .ok) os (hok d hP)
    | failed k => exact ⟨hfail d k hP, fun h => nomatch h⟩

/-! ## The invariant of a disk -/

namespace Disk

variable {A B : Option Bytes → Prop} {d : Disk} {i : Nat} {bs : Bytes} {b : Bool}

/-- A crash may leave file `i` under the file's name. -/
def Named (d : Disk) (i : Nat) : Prop := d.durable.file = some i ∨ .rename i ∈ d.pending

/-- The data of file `i` is on the disk, and is one of the contents `A`. -/
def Kept (A : Option Bytes → Prop) (d : Disk) (i : Nat) : Prop :=
  ∃ bs, d.inodes[i]? = some ⟨bs, true⟩ ∧ A (some bs)

/-- Whatever a crash does, the content found under the file's name is one of `A`. -/
structure Inv (A : Option Bytes → Prop) (d : Disk) : Prop where
  missing : d.durable.file = none → A none
  named : ∀ i, d.Named i → d.Kept A i
  /-- The temporary name is never one of the file. -/
  tmp : ∀ i, d.durable.tmp = some i → i < d.inodes.length ∧ d.durable.file ≠ some i
  created : ∀ i, .create i ∈ d.pending → i < d.inodes.length ∧ d.durable.file ≠ some i
  /-- What has been renamed is not created again. -/
  order : d.pending.Pairwise fun p q => ∀ i, p = .rename i → q ≠ .create i

theorem inv_empty (h : A none) : empty.Inv A where
  missing _ := h
  named i hi := by
    rcases hi with hi | hi
    · cases hi
    · cases hi
  tmp i hi := nomatch hi
  created i hi := nomatch hi
  order := List.Pairwise.nil

theorem Inv.mono (h : d.Inv A) (hAB : ∀ c, A c → B c) : d.Inv B where
  missing hnone := hAB none (h.missing hnone)
  named i hi := by
    obtain ⟨bs, hbs, hA⟩ := h.named i hi
    exact ⟨bs, hbs, hAB (some bs) hA⟩
  tmp := h.tmp
  created := h.created
  order := h.order

/-- The file's name after some changes of the directory: unchanged, or a renamed file. -/
theorem file_foldl (ops : List DirOp) (dir : Directory) :
    (ops.foldl Directory.apply dir).file = dir.file ∨
      ∃ i, .rename i ∈ ops ∧ (ops.foldl Directory.apply dir).file = some i := by
  -- on the last change: only a rename moves the file name
  induction ops using List.reverseRecOn with
  | nil => exact Or.inl rfl
  | append_singleton ops op ih =>
    rw [List.foldl_append]
    cases op with
    | create j =>
      rcases ih with ih | ⟨i, hi, hfile⟩
      · exact Or.inl ih
      · exact Or.inr ⟨i, List.mem_append_left _ hi, hfile⟩
    | rename j => exact Or.inr ⟨j, by simp, rfl⟩

/-- The temporary name after some changes: never a renamed file. -/
theorem tmp_foldl {ops : List DirOp} {dir : Directory}
    (horder : ops.Pairwise fun p q => ∀ i, p = .rename i → q ≠ .create i)
    (h : (ops.foldl Directory.apply dir).tmp = some i) :
    (dir.tmp = some i ∨ .create i ∈ ops) ∧ .rename i ∉ ops := by
  rcases List.eq_nil_or_concat ops with rfl | ⟨ops, op, rfl⟩
  · exact ⟨Or.inl h, by simp⟩
  · rw [List.concat_eq_append] at horder h ⊢
    rw [List.foldl_append] at h
    cases op with
    | create j =>
      obtain rfl : j = i := Option.some.inj h
      -- the last change made the name, and every rename came before it
      have hlast := (List.pairwise_append.mp horder).2.2
      refine ⟨Or.inr (by simp), fun hmem => ?_⟩
      rcases List.mem_append.mp hmem with hmem | hmem
      · exact hlast (.rename j) hmem (.create j) (by simp) j rfl rfl
      · simp at hmem
    -- a rename takes the name of the temporary file away
    | rename j => cases h

theorem Inv.tmp_not_named (h : d.Inv A) (hi : d.dir.tmp = some i) :
    i < d.inodes.length ∧ ¬ d.Named i := by
  obtain ⟨hfrom, hnot⟩ := tmp_foldl h.order hi
  have hfile := hfrom.elim (h.tmp i) (h.created i)
  exact ⟨hfile.1, fun hnamed => hnamed.elim hfile.2 hnot⟩

theorem Kept.lt (h : d.Kept A i) : i < d.inodes.length := by
  obtain ⟨bs, hbs, _⟩ := h
  exact (List.getElem?_eq_some_iff.mp hbs).1

/-- Some of the pending changes are made durable and the others lost. -/
theorem Inv.settle (h : d.Inv A) {ops : List DirOp} (hops : ops.Sublist d.pending) :
    Inv A { d with durable := ops.foldl Directory.apply d.durable, pending := [] } where
  missing hnone := by
    -- the file name is the durable one or one that a kept rename gave
    rcases file_foldl ops d.durable with hfile | ⟨i, _, hfile⟩
    · exact h.missing (hfile.symm.trans hnone)
    · cases hfile.symm.trans hnone
  named i hi := by
    have hi' := hi.resolve_right List.not_mem_nil
    rcases file_foldl ops d.durable with hfile | ⟨j, hj, hfile⟩
    · exact h.named i (Or.inl (hfile.symm.trans hi'))
    · obtain rfl : j = i := Option.some.inj (hfile.symm.trans hi')
      exact h.named j (Or.inr (hops.subset hj))
  tmp i hi := by
    -- what is still called the temporary file was never renamed
    obtain ⟨hfrom, hnot⟩ := tmp_foldl (h.order.sublist hops) hi
    have hold := hfrom.elim (h.tmp i) fun hmem => h.created i (hops.subset hmem)
    refine ⟨hold.1, fun hfile' => ?_⟩
    rcases file_foldl ops d.durable with hfile | ⟨j, hj, hfile⟩
    · exact hold.2 (hfile.symm.trans hfile')
    · obtain rfl : j = i := Option.some.inj (hfile.symm.trans hfile')
      exact hnot hj
  created i hi := nomatch hi
  order := List.Pairwise.nil

/-- Only files change that no crash can leave under the file's name. -/
theorem Inv.inodes (h : d.Inv A) (ns : List Inode) (k : Nat)
    (hlen : d.inodes.length ≤ ns.length) (hkeep : ∀ i, d.Named i → ns[i]? = d.inodes[i]?) :
    Inv A { d with inodes := ns, handle := k } where
  missing := h.missing
  named i hi := by
    obtain ⟨bs, hbs, hA⟩ := h.named i hi
    exact ⟨bs, (hkeep i hi).trans hbs, hA⟩
  tmp i hi := ⟨Nat.lt_of_lt_of_le (h.tmp i hi).1 hlen, (h.tmp i hi).2⟩
  created i hi := ⟨Nat.lt_of_lt_of_le (h.created i hi).1 hlen, (h.created i hi).2⟩
  order := h.order

/-- The temporary name is given to a file that no crash can leave under the file's name. -/
theorem Inv.create (h : d.Inv A) (hlt : i < d.inodes.length) (hi : ¬ d.Named i) :
    Inv A { d with pending := d.pending ++ [.create i] } where
  missing := h.missing
  named j hj := h.named j (hj.imp_right fun hmem => by simpa using hmem)
  tmp := h.tmp
  created j hj := by
    -- the new name is not that of the file, so a rename cannot have come before it
    rcases List.mem_append.mp hj with hj | hj
    · exact h.created j hj
    · obtain rfl : j = i := by simpa using hj
      exact ⟨hlt, fun hfile => hi (Or.inl hfile)⟩
  order := by
    refine List.pairwise_append.mpr ⟨h.order, List.pairwise_singleton _ _, ?_⟩
    rintro p hp q hq j rfl rfl
    obtain rfl : j = i := by simpa using hq
    exact hi (Or.inr hp)

/-- A file with synced data takes the file's name. -/
theorem Inv.place (h : d.Inv A) (hi : d.Kept A i) :
    Inv A { d with pending := d.pending ++ [.rename i] } where
  missing := h.missing
  named j hj := by
    rcases hj with hj | hj
    · exact h.named j (Or.inl hj)
    · rcases List.mem_append.mp hj with hj | hj
      · exact h.named j (Or.inr hj)
      · obtain rfl : j = i := by simpa using hj
        exact hi
  tmp := h.tmp
  created j hj := h.created j (by simpa using hj)
  order := by
    refine List.pairwise_append.mpr ⟨h.order, List.pairwise_singleton _ _, ?_⟩
    -- a rename is followed by a create of another inode only
    rintro p _ q hq j _ rfl
    simp at hq

/-- A crash leaves the file with one of its contents. -/
theorem Inv.crash (h : d.Inv A) {kept : List DirOp} (hkept : kept.Sublist d.pending)
    (data : Nat → Bytes) : (d.crash kept data).Inv A := by
  have hsettled := h.settle hkept
  refine hsettled.inodes _ d.handle (by simp) fun i hi => ?_
  obtain ⟨bs, hbs, _⟩ := hsettled.named i hi
  have hbs' : d.inodes[i]? = some ⟨bs, true⟩ := hbs
  simp [hbs']

/-- The content the running programs see is one of `A`. -/
theorem Inv.content (h : d.Inv A) : A d.content := by
  have hsettled := h.settle (List.Sublist.refl d.pending)
  unfold Disk.content
  cases hfile : d.dir.file with
  | none => exact hsettled.missing hfile
  | some i =>
    obtain ⟨bs, hbs, hA⟩ := hsettled.named i (Or.inl hfile)
    have hbs' : d.inodes[i]? = some ⟨bs, true⟩ := hbs
    simpa [hbs'] using hA

/-! ## The calls -/

/-- The temporary file is open and holds `bs`. -/
def Writing (d : Disk) (bs : Bytes) (b : Bool) : Prop :=
  d.dir.tmp = some d.handle ∧ d.inodes[d.handle]? = some ⟨bs, b⟩

/-- The file holds `bs`, synced. -/
def Placed (d : Disk) (bs : Bytes) : Prop :=
  ∃ i, d.dir.file = some i ∧ d.inodes[i]? = some ⟨bs, true⟩

theorem Inv.openTmp (h : d.Inv A) : d.openTmp.Inv A ∧ d.openTmp.Writing [] false := by
  unfold Disk.openTmp
  split
  -- the file of a save that failed is there already, and is emptied
  next i hi =>
    obtain ⟨hlt, hnot⟩ := h.tmp_not_named hi
    refine ⟨h.inodes _ i (by simp) fun j hj => ?_, hi, by simp [hlt]⟩
    have hne : i ≠ j := fun heq => hnot (heq ▸ hj)
    simp [hne]
  -- a new inode, which no name leads to yet
  next hnone =>
    have hnamed : ∀ j, d.Named j → j < d.inodes.length := fun j hj => (h.named j hj).lt
    have hmore := h.inodes (d.inodes ++ [⟨[], false⟩]) d.inodes.length (by simp)
      fun j hj => List.getElem?_append_left (hnamed j hj)
    refine ⟨hmore.create (by simp) fun hj => Nat.lt_irrefl _ (hnamed _ hj), ?_, by simp⟩
    simp only [Disk.dir, List.foldl_append]
    rfl

/-- A change of the open file alone. -/
theorem Inv.modify (h : d.Inv A) (hw : d.Writing bs b) (f : Inode → Inode) :
    Inv A { d with inodes := d.inodes.modify d.handle f } := by
  obtain ⟨_, hnot⟩ := h.tmp_not_named hw.1
  refine h.inodes _ d.handle (by simp) fun j hj => ?_
  have hne : d.handle ≠ j := fun heq => hnot (heq ▸ hj)
  simp [hne]

theorem Inv.write (h : d.Inv A) (hw : d.Writing bs b) (more : Bytes) :
    (d.write more).Inv A ∧ (d.write more).Writing (bs ++ more) false :=
  ⟨h.modify hw _, hw.1, by simp [Disk.write, hw.2]⟩

theorem Inv.sync (h : d.Inv A) (hw : d.Writing bs b) :
    d.sync.Inv A ∧ d.sync.Writing bs true :=
  ⟨h.modify hw _, hw.1, by simp [Disk.sync, hw.2]⟩

theorem Inv.rename (h : d.Inv A) (hw : d.Writing bs true) (hA : A (some bs)) :
    d.rename.Inv A ∧ d.rename.Placed bs := by
  simp only [Disk.rename, hw.1]
  refine ⟨h.place ⟨bs, hw.2, hA⟩, d.handle, ?_, hw.2⟩
  simp only [Disk.dir, List.foldl_append]
  rfl

theorem Inv.syncDir (h : d.Inv A) : d.syncDir.Inv A := h.settle (List.Sublist.refl _)

/-- After the fsync of the directory a crash cannot bring an older content back. -/
theorem Inv.syncDir_placed (h : d.Inv A) (hp : d.Placed bs) :
    d.syncDir.Inv fun c => c = some bs := by
  obtain ⟨i, hfile, hbs⟩ := hp
  have hall := h.syncDir
  have hfile' : d.syncDir.durable.file = some i := hfile
  refine ⟨fun hnone => ?_, fun j hj => ?_, hall.tmp, hall.created, hall.order⟩
  · cases hfile'.symm.trans hnone
  · have hj' := hj.resolve_right List.not_mem_nil
    obtain rfl : i = j := Option.some.inj (hfile'.symm.trans hj')
    exact ⟨bs, hbs, rfl⟩

end Disk

/-! ## Replacement -/

/-- **Replacement**: wherever the calls stop, the file has one of its former contents or the
    new one, and a crash cannot change that; once all calls returned it is the new one. -/
theorem replace_triple {A : Option Bytes → Prop} {bs : Bytes} (hbs : A (some bs)) :
    CrashTriple (Disk.Inv A) (replaceCalls bs) (Disk.Inv fun c => c = some bs)
      (Disk.Inv A) := by
  -- the temporary file is empty, then holds the bytes, then holds them synced
  refine CrashTriple.cons (R := fun d => d.Inv A ∧ d.Writing [] false) (fun _ h => h)
    (fun _ h => h.openTmp) (fun d k h => ?_) ?_
  · simp only [Disk.exec]
    split
    · exact h
    · exact h.openTmp.1
  refine CrashTriple.cons (R := fun d => d.Inv A ∧ d.Writing bs false) (fun _ h => h.1)
    (fun _ h => h.1.write h.2 bs) (fun _ k h => (h.1.write h.2 (bs.take k)).1) ?_
  refine CrashTriple.cons (R := fun d => d.Inv A ∧ d.Writing bs true) (fun _ h => h.1)
    (fun _ h => h.1.sync h.2) (fun _ _ h => h.1) ?_
  -- closing changes nothing
  refine CrashTriple.cons (R := fun d => d.Inv A ∧ d.Writing bs true) (fun _ h => h.1)
    (fun _ h => h) (fun _ _ h => h.1) ?_
  -- the rename exposes synced data only
  refine CrashTriple.cons (R := fun d => d.Inv A ∧ d.Placed bs) (fun _ h => h.1)
    (fun _ h => h.1.rename h.2 hbs) (fun d k h => ?_) ?_
  · simp only [Disk.exec]
    split
    · exact h.1
    · exact (h.1.rename h.2 hbs).1
  -- with the directory synced no other content can come back
  refine CrashTriple.cons (R := Disk.Inv fun c => c = some bs) (fun _ h => h.1)
    (fun _ h => h.1.syncDir_placed h.2) (fun _ _ h => h.1) ?_
  refine CrashTriple.nil (fun _ h => h.mono ?_) fun _ h => h
  rintro c rfl
  exact hbs

/-! ## What the running programs see -/

def DirOp.isRename : DirOp → Bool
  | .rename _ => true
  | .create _ => false

namespace Disk

variable {A : Option Bytes → Prop} {c : Option Bytes} {d d' : Disk} {bs : Bytes} {b : Bool}

/-- The file under the name is one that a crash may leave there. -/
theorem named_of_dir_file {i : Nat} (h : d.dir.file = some i) : d.Named i := by
  rcases file_foldl d.pending d.durable with hfile | ⟨j, hj, hfile⟩
  · exact Or.inl (hfile.symm.trans h)
  · obtain rfl : j = i := Option.some.inj (hfile.symm.trans h)
    exact Or.inr hj

/-- The name stays, and so do the files a crash may leave under it. -/
theorem content_congr (hfile : d'.dir.file = d.dir.file)
    (hkeep : ∀ i, d.Named i → d'.inodes[i]? = d.inodes[i]?) : d'.content = d.content := by
  unfold Disk.content
  rw [hfile]
  cases h : d.dir.file with
  | none => rfl
  | some i => simp only [Option.bind_some, hkeep i (named_of_dir_file h)]

/-- A disk on which the replacement has not been seen yet. -/
structure Unseen (A : Option Bytes → Prop) (c : Option Bytes) (d : Disk) : Prop where
  inv : d.Inv A
  content_eq : d.content = c

theorem Unseen.openTmp (h : d.Unseen A c) : d.openTmp.Unseen A c := by
  refine ⟨h.inv.openTmp.1, Eq.trans ?_ h.content_eq⟩
  unfold Disk.openTmp
  split
  -- the temporary file is not the one under the name
  next i hi =>
    refine content_congr rfl fun j hj => ?_
    have hne : i ≠ j := fun heq => (h.inv.tmp_not_named hi).2 (heq ▸ hj)
    simp [hne]
  next =>
    refine content_congr ?_ fun j hj => List.getElem?_append_left (h.inv.named j hj).lt
    simp only [Disk.dir, List.foldl_append]
    rfl

theorem Unseen.modify (h : d.Unseen A c) (hw : d.Writing bs b) (f : Inode → Inode) :
    Unseen A c { d with inodes := d.inodes.modify d.handle f } := by
  refine ⟨h.inv.modify hw f, Eq.trans ?_ h.content_eq⟩
  refine content_congr rfl fun j hj => ?_
  have hne : d.handle ≠ j := fun heq => (h.inv.tmp_not_named hw.1).2 (heq ▸ hj)
  simp [hne]

theorem Placed.content (h : d.Placed bs) : d.content = some bs := by
  obtain ⟨i, hfile, hbs⟩ := h
  simp [Disk.content, hfile, hbs]

/-- No rename is pending. -/
def Settled (d : Disk) : Prop := ∀ op ∈ d.pending, op.isRename = false

instance (d : Disk) : Decidable d.Settled :=
  inferInstanceAs (Decidable (∀ op ∈ d.pending, op.isRename = false))

/-- With no rename pending, a crash leaves what the running programs see. -/
theorem Inv.settled (h : d.Inv A) (hs : d.Settled) : d.Inv (· = d.content) := by
  -- no rename is waiting, so the name leads where the durable directory says
  have hpending : ∀ i, .rename i ∉ d.pending := fun i hi => Bool.noConfusion (hs _ hi)
  have hfile : d.dir.file = d.durable.file := by
    rcases file_foldl d.pending d.durable with hfile | ⟨i, hi, _⟩
    · exact hfile
    · exact absurd hi (hpending i)
  refine ⟨fun hnone => ?_, fun i hi => ?_, h.tmp, h.created, h.order⟩
  · simp [Disk.content, hfile, hnone]
  · obtain ⟨bs, hbs, _⟩ := h.named i hi
    have hi' := hi.resolve_right (hpending i)
    exact ⟨bs, hbs, by simp [Disk.content, hfile, hi', hbs]⟩

/-- After a crash there is nothing that a further crash could undo. -/
theorem Inv.crash_settled (h : d.Inv A) {kept : List DirOp} (hkept : kept.Sublist d.pending)
    (data : Nat → Bytes) : (d.crash kept data).Inv (· = (d.crash kept data).content) :=
  (h.crash hkept data).settled fun _ hop => absurd hop List.not_mem_nil

end Disk

/-- The running programs see the old content, or the new one. -/
def Visible (A : Option Bytes → Prop) (c : Option Bytes) (bs : Bytes) (d : Disk) : Prop :=
  d.Unseen A c ∨ (d.Inv fun c => A c ∨ c = some bs) ∧ d.content = some bs

/-- **Atomicity for the running programs**: wherever the calls stop, they see the file as it
    was, and then a crash cannot bring up the new content either, or they see the new one. -/
theorem replace_visible {A : Option Bytes → Prop} {c : Option Bytes} {bs : Bytes} :
    CrashTriple (Disk.Unseen A c) (replaceCalls bs) (fun _ => True) (Visible A c bs) := by
  refine CrashTriple.cons (R := fun d => d.Unseen A c ∧ d.Writing [] false) (fun _ h => .inl h)
    (fun _ h => ⟨h.openTmp, h.inv.openTmp.2⟩) (fun d k h => .inl ?_) ?_
  · simp only [Disk.exec]
    split
    · exact h
    · exact h.openTmp
  refine CrashTriple.cons (R := fun d => d.Unseen A c ∧ d.Writing bs false)
    (fun _ h => .inl h.1) (fun _ h => ⟨h.1.modify h.2 _, (h.1.inv.write h.2 bs).2⟩)
    (fun _ _ h => .inl (h.1.modify h.2 _)) ?_
  refine CrashTriple.cons (R := fun d => d.Unseen A c ∧ d.Writing bs true)
    (fun _ h => .inl h.1) (fun _ h => ⟨h.1.modify h.2 _, (h.1.inv.sync h.2).2⟩)
    (fun _ _ h => .inl h.1) ?_
  refine CrashTriple.cons (R := fun d => d.Unseen A c ∧ d.Writing bs true)
    (fun _ h => .inl h.1) (fun _ h => h) (fun _ _ h => .inl h.1) ?_
  -- the rename is the one call that the running programs see
  have hrename : ∀ d : Disk, d.Unseen A c ∧ d.Writing bs true →
      (d.rename.Inv fun c => A c ∨ c = some bs) ∧ d.rename.Placed bs := fun d h =>
    (h.1.inv.mono fun _ hA => .inl hA).rename h.2 (.inr rfl)
  refine CrashTriple.cons (R := fun d => (d.Inv fun c => A c ∨ c = some bs) ∧ d.Placed bs)
    (fun _ h => .inl h.1) hrename (fun d k h => ?_) ?_
  · simp only [Disk.exec]
    split
    · exact .inl h.1
    · exact .inr ⟨(hrename d h).1, (hrename d h).2.content⟩
  refine CrashTriple.cons (R := Visible A c bs) (fun _ h => .inr ⟨h.1, h.2.content⟩)
    (fun _ h => .inr ⟨h.1.syncDir, h.2.content⟩) (fun _ _ h => .inr ⟨h.1, h.2.content⟩) ?_
  exact CrashTriple.nil (fun _ h => h) fun _ _ => trivial

/-! ## Saves -/

section Saves

variable {α : Type*}

/-- A disk with its history: the value of the last save that returned nil, and the values
    of the saves started since. -/
structure Saves (α : Type*) where
  disk : Disk
  saved : Option α
  since : List α
  deriving DecidableEq, Repr

inductive SavesEvent (α : Type*) where
  | save (v : α) (os : List WriteOutcome)
  | crash (kept : List DirOp) (data : Nat → Bytes)

/-- Nothing saved yet. -/
def Saves.init : Saves α := ⟨Disk.empty, none, []⟩

/-- One save, or a crash that keeps some of the pending changes. -/
def Saves.step (save : Disk → α → List WriteOutcome → Disk × SaveResult) (s : Saves α) :
    SavesEvent α → Option (Saves α)
  | .save v os =>
    let (disk, result) := save s.disk v os
    some (if result = .nil then ⟨disk, some v, []⟩ else ⟨disk, s.saved, v :: s.since⟩)
  | .crash kept data =>
    if kept.Sublist s.disk.pending then some { s with disk := s.disk.crash kept data } else none

/-- `save` replaces the file by bytes that decode to the value. -/
def SavesAtomically (decode : Bytes → Option α)
    (save : Disk → α → List WriteOutcome → Disk × SaveResult) : Prop :=
  ∀ (A : Option Bytes → Prop) (d : Disk) (v : α) (os : List WriteOutcome), d.Inv A →
    (∀ bs, decode bs = some v → A (some bs)) → (save d v os).1.Inv A ∧
      ((save d v os).2 = .nil → (save d v os).1.Inv fun c => c.map decode = some (some v))

/-- The file decodes to the value saved last or to one of a later save; there is none as
    long as no save returned nil. -/
def Saves.Allows (decode : Bytes → Option α) (s : Saves α) (c : Option Bytes) : Prop :=
  ∃ r : Option α, c.map decode = r.map some ∧ (r = s.saved ∨ ∃ v ∈ s.since, r = some v)

/-- A replacement by bytes that decode to `v`. -/
theorem replace_saves {decode : Bytes → Option α} {v : α} {bs : Bytes} {A : Option Bytes → Prop}
    {d : Disk} (hdecode : decode bs = some v) (hinv : d.Inv A)
    (hA : ∀ bs, decode bs = some v → A (some bs)) (os : List WriteOutcome) :
    (d.perform (replaceCalls bs) os).1.Inv A ∧ ((d.perform (replaceCalls bs) os).2 = .nil →
      (d.perform (replaceCalls bs) os).1.Inv fun c => c.map decode = some (some v)) := by
  have htriple := replace_triple (hA bs hdecode) d os hinv
  refine ⟨htriple.1, fun hnil => (htriple.2 hnil).mono ?_⟩
  rintro c rfl
  exact congrArg some hdecode

/-- The file and what it decodes to are both missing or both there. -/
theorem map_decode_cases {decode : Bytes → Option α} {c : Option Bytes} {r : Option α}
    (h : c.map decode = r.map some) :
    (c = none ∧ r = none) ∨ ∃ data v, c = some data ∧ r = some v ∧ decode data = some v := by
  cases c with
  | none =>
    cases r with
    | none => exact Or.inl ⟨rfl, rfl⟩
    | some v => cases h
  | some data =>
    cases r with
    | none => cases h
    | some v => exact Or.inr ⟨data, v, rfl, rfl, Option.some.inj h⟩

variable {decode : Bytes → Option α} {save : Disk → α → List WriteOutcome → Disk × SaveResult}
  {s s' : Saves α}

/-- **Step lemma**: a save or a crash leaves the disk with an allowed content. -/
theorem saves_step (hsave : SavesAtomically decode save) {e : SavesEvent α}
    (hinv : s.disk.Inv (s.Allows decode)) (h : s.step save e = some s') :
    s'.disk.Inv (s'.Allows decode) := by
  cases e with
  | save v os =>
    simp only [Saves.step, Option.some.injEq] at h
    subst h
    split
    -- the save returned nil: only its value is left
    next hnil =>
      refine ((hsave (fun c => s.Allows decode c ∨ c.map decode = some (some v)) s.disk v os
        (hinv.mono fun _ h => Or.inl h) fun bs hbs => Or.inr (congrArg some hbs)).2 hnil).mono ?_
      exact fun c hc => ⟨some v, hc, Or.inl rfl⟩
    -- it did not: its value is one more that may be found
    next =>
      refine (hsave _ s.disk v os (hinv.mono ?_) ?_).1
      · rintro c ⟨r, hr, hallowed⟩
        refine ⟨r, hr, hallowed.imp_right ?_⟩
        rintro ⟨w, hw, heq⟩
        exact ⟨w, List.mem_cons_of_mem v hw, heq⟩
      · exact fun bs hbs => ⟨some v, congrArg some hbs, Or.inr ⟨v, List.mem_cons_self, rfl⟩⟩
  -- a crash brings back nothing that was not allowed before
  | crash kept data =>
    simp only [Saves.step] at h
    split at h
    next hkept =>
      cases h
      exact hinv.crash hkept data
    next => cases h

/-- **Run lemma**: after any series of saves and crashes. -/
theorem saves_run (hsave : SavesAtomically decode save) {es : List (SavesEvent α)}
    (hrun : run (Saves.step save) Saves.init es = some s) : s.Allows decode s.disk.content := by
  have hinit : (Saves.init : Saves α).disk.Inv (Saves.init.Allows decode) :=
    Disk.inv_empty ⟨none, rfl, Or.inl rfl⟩
  have hinv := run_induction (P := fun _ (t : Saves α) => t.disk.Inv (t.Allows decode)) hinit
    (fun _ _ _ _ _ ht hstep => saves_step hsave ht hstep) hrun
  exact hinv.content

end Saves

end EventLog.Lib
