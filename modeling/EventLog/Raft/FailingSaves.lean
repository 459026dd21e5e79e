import EventLog.Raft.LogMatching
import EventLog.Raft.Sync

/-!
# Saves that fail

A node whose `Save` may return an error.  `persistLocked` logs the error and the handler
answers as if the state had been saved, so a vote or an entry can be acknowledged that a
restart forgets (`failed_save_acknowledged`).

While every change is saved nothing of this happens (`acknowledged_durable`), for calls of
honest senders: a candidate has an identity, and an entry is determined by its index and
term.  A save that fails although nothing has changed, as when a vote is repeated, does no
harm.
-/

namespace EventLog.Raft

open EventLog.Lib

variable {σ : Type}

/-! ## Storage -/

/-- A storage whose `Save` keeps the state it is given, or returns an error and leaves
    the stored state unchanged. -/
class FallibleStorage (σ : Type) extends Storage σ where
  load_saved : ∀ (st : σ) (p : PersistentState), (save st p).2 = true →
    load (save st p).1 = .ok (some p)
  load_failed : ∀ (st : σ) (p : PersistentState), (save st p).2 = false →
    load (save st p).1 = load st

/-- A storage in RAM whose saves have the given outcomes; after these they succeed. -/
structure FlakyStorage where
  saved : Option PersistentState
  outcomes : List Bool
  deriving DecidableEq, Repr

instance : FallibleStorage FlakyStorage where
  save st p :=
    if st.outcomes.headD true then (⟨some p, st.outcomes.tail⟩, true)
    else (⟨st.saved, st.outcomes.tail⟩, false)
  load st := .ok st.saved
  load_saved st p h := by
    split at h
    · rename_i hok
      rw [if_pos hok]
    · cases h
  load_failed st p h := by
    split at h
    · cases h
    · rename_i hok
      rw [if_neg hok]

/-! ## Calls -/

/-- The calls of other nodes, and crashes. -/
def Input.IsCall : Input → Prop
  | .requestVote _ | .appendEntries _ | .restart => True
  | _ => False

instance (x : Input) : Decidable x.IsCall :=
  match x with
  | .requestVote _ | .appendEntries _ | .restart => inferInstanceAs (Decidable True)
  | .startElection | .voteReply _ _ _ | .start _ | .appendReply _ _ _ | .apply =>
    inferInstanceAs (Decidable False)

/-- Where the node holds an entry of the same index and term, it holds the one sent. -/
def SameEntries (log : List LogEntry) (args : AppendEntriesArgs) : Prop :=
  ∀ i e e', args.entries[i]? = some e → log[args.prevLogIndex + 1 + i]? = some e' →
    e'.term = e.term → e' = e

/-- If the handler changes what must be persisted, its `Save` succeeds. -/
def ChangeSaved [Storage σ] (r : Raft σ) (x : Input) : Prop :=
  (r.handle x).persistent ≠ r.persistent →
    (Storage.save r.storage (r.handle x).persistent).2 = true

/-- The storage accepts what the handler changes, and the sender is honest. -/
def Honoured [Storage σ] (r : Raft σ) : Input → Prop
  | .requestVote args => ChangeSaved r (.requestVote args) ∧ args.candidateID ≠ None
  | .appendEntries args => ChangeSaved r (.appendEntries args) ∧ SameEntries r.log args
  | _ => True

/-! ## Merging -/

/-- Merging changes nothing before its first index. -/
theorem mergeEntries_getElem?_lt {log es : List LogEntry} {idx k : Nat}
    (hidx : idx ≤ log.length) (hk : k < idx) : (mergeEntries log idx es).1[k]? = log[k]? := by
  induction es generalizing idx with
  | nil => rfl
  | cons e es ih =>
    unfold mergeEntries
    split_ifs with hc
    · exact ih (by omega) (by omega)
    · rw [List.getElem?_append_left (by simp; omega), List.getElem?_take_of_lt hk]

/-- **After the merge every entry sent is in its place.** -/
theorem mergeEntries_getElem? {log es : List LogEntry} {idx i : Nat} {e : LogEntry}
    (hlog : log ≠ []) (hidx : idx ≤ log.length)
    (hsame : ∀ i e e', es[i]? = some e → log[idx + i]? = some e' → e'.term = e.term → e' = e)
    (he : es[i]? = some e) : (mergeEntries log idx es).1[idx + i]? = some e := by
  have hpos := List.length_pos_iff.mpr hlog
  -- the induction is the loop over the entries sent
  induction es generalizing idx i with
  | nil => cases he
  | cons e₀ es ih =>
    unfold mergeEntries
    split_ifs with hc
    · have hlt : idx < log.length := by omega
      cases i with
      | zero =>
        -- the entry is held already
        obtain rfl : e₀ = e := Option.some.inj he
        have hget : log[idx]? = some log[idx] := List.getElem?_eq_getElem hlt
        have hheld := hsame 0 e₀ log[idx] rfl hget ((termAt_eq hget).symm.trans hc.2)
        have hkept : (mergeEntries log (idx + 1) es).1[idx]? = log[idx]? :=
          mergeEntries_getElem?_lt hlt (Nat.lt_add_one idx)
        exact hkept.trans (hget.trans (congrArg some hheld))
      -- the same argument one entry further
      | succ i =>
        have hnext := ih (by omega : idx + 1 ≤ log.length)
          (fun j e e' hj hj' => hsame (j + 1) e e' hj
            (by rwa [show idx + (j + 1) = idx + 1 + j by omega])) he
        rwa [show idx + (i + 1) = idx + 1 + i by omega]
    · -- from here on the log is what was sent
      have hlen : (log.take idx).length = idx := by simp; omega
      rw [List.getElem?_append_right (by omega), hlen, Nat.add_sub_cancel_left]
      exact he

/-! ## Steps -/

section Steps

variable [FallibleStorage σ] {r r' : Raft σ} {x : Input}

/-- A storage in sync holds the next state after the save of it, also if the save fails and
    there was nothing new in it. -/
theorem ChangeSaved.stored_save (hsync : InSync r) (h : ChangeSaved r x) :
    stored (Storage.save r.storage (r.handle x).persistent).1 = some (r.handle x).persistent := by
  cases hok : (Storage.save r.storage (r.handle x).persistent).2 with
  | true => exact stored_of_load (FallibleStorage.load_saved _ _ hok)
  | false =>
    have hsame : (r.handle x).persistent = r.persistent := by
      by_contra hne
      exact absurd (hok.symm.trans (h hne)) (by decide)
    rw [stored, FallibleStorage.load_failed _ _ hok, ← stored, hsame]
    exact hsync

/-- **Step lemma**: a call the storage honours leaves the node in sync. -/
theorem InSync.honoured (hlog : r.log ≠ []) (hsync : InSync r) (hcall : x.IsCall)
    (hx : Honoured r x) : InSync (r.handle x) := by
  have hsaves : ChangeSaved r x → ¬ LearnsTerm r x → InSync (r.handle x) := fun hsaved =>
    (handle_handled hlog x).inSync hlog hsync (hsaved.stored_save hsync)
  cases x with
  | requestVote args => exact hsaves hx.1 not_false
  | appendEntries args => exact hsaves hx.1 not_false
  | restart => exact inSync_new _ _ hsync hlog
  | startElection | voteReply | start | appendReply | apply => cases hcall

/-- **Run lemma**: after calls the storage honours the node is in sync, and no term or
    vote was taken back. -/
theorem InSync.honoured_run {xs : List Input} (hlog : r.log ≠ []) (hsync : InSync r)
    (hcalls : ∀ x ∈ xs, x.IsCall) (hxs : Along nodeStep Honoured r xs)
    (hrun : run nodeStep r xs = some r') :
    r'.log ≠ [] ∧ InSync r' ∧ DurableLe r.persistent r'.persistent := by
  refine run_invariant
    (I := fun q => q.log ≠ [] ∧ InSync q ∧ DurableLe r.persistent q.persistent) ?_
    ⟨hlog, hsync, DurableLe.refl _⟩ (hxs.and (along_of_forall hcalls)) hrun
  rintro q x q' ⟨hq, hqs, hle⟩ ⟨hx, hcall⟩ hstep
  obtain rfl := Option.some.inj hstep
  have hout := handle_handled hq x
  exact ⟨hout.log_ne hq, hqs.honoured hq hcall hx, hle.trans (hout.durableLe hq hqs)⟩

/-- Of two votes in one term the later repeats the earlier. -/
theorem votesAgree_of_honoured {x' : Input} {xs : List Input} (hlog : r.log ≠ [])
    (hsync : InSync r) (hcalls : ∀ y ∈ x :: xs, y.IsCall)
    (hxs : Along nodeStep Honoured r (x :: xs)) (hrun : run nodeStep (r.handle x) xs = some r') :
    VotesAgree r x r' x' := by
  intro t c c' hvote hvote'
  have hhead := hcalls x List.mem_cons_self
  -- among the calls only a vote request is answered with a vote
  have hc : c ≠ None := by
    cases x with
    | requestVote args =>
      simp only [vote, Option.ite_none_right_eq_some, Option.some.injEq, Prod.mk.injEq] at hvote
      exact hvote.2.2 ▸ hxs.1.2
    | appendEntries | restart => cases hvote
    | startElection | voteReply | start | appendReply | apply => cases hhead
  -- the earlier vote is saved, and stays the vote of its term
  obtain ⟨q, hq, _, _, hterm, hfor⟩ := vote_saved hvote
  have hpin : Pinned (r.handle x).persistent t c := by
    rw [hq]
    exact Or.inr ⟨hterm.symm, hfor⟩
  obtain ⟨_, _, hle⟩ := (hsync.honoured hlog hhead hxs.1).honoured_run
    ((handle_handled hlog x).log_ne hlog) (fun y hy => hcalls y (List.mem_cons_of_mem _ hy))
    (hxs.2 _ rfl) hrun
  exact (vote_eq_of_pinned hvote' hc (hpin.mono hc hle)).symm

omit [FallibleStorage σ] in
/-- A stored log with an entry was saved. -/
theorem load_of_stored [Storage σ] {st : σ} {p : PersistentState} {i : Nat} {e : LogEntry}
    (h : stored st = some p) (hget : p.log[i + 1]? = some e) :
    Storage.load st = .ok (some p) := by
  rcases hload : Storage.load st with _ | _ | q <;> simp only [stored, hload] at h
  · cases h
  · obtain rfl := Option.some.inj h
    cases hget
  · rw [Option.some.inj h]

/-- Acknowledged entries are in the log of the node. -/
theorem AppendEntriesOutcome.getElem? {args : AppendEntriesArgs} {reply : AppendEntriesReply}
    (h : AppendEntriesOutcome r args r' reply) (hlog : r.log ≠ [])
    (hsame : SameEntries r.log args) (hsucc : reply.success = true) {i : Nat} {e : LogEntry}
    (he : args.entries[i]? = some e) : r'.log[args.prevLogIndex + 1 + i]? = some e := by
  cases h with
  | stale _ _ hno => exact absurd (hno.symm.trans hsucc) (by decide)
  | rejected _ _ hno => exact absurd (hno.symm.trans hsucc) (by decide)
  | accepted _ _ hprev =>
    rw [persistIf_log]
    have hpos := List.length_pos_iff.mpr hlog
    exact mergeEntries_getElem? hlog (by omega) hsame he

end Steps

/-! ## Runs -/

/-- **Acknowledged means durable**: over any calls and restarts during which every change is
    saved, a node never grants its vote to two candidates in one term,
    and the entries of every `AppendEntries` it answers with success are in the log `Load`
    returns. -/
theorem acknowledged_durable [FallibleStorage σ] (id : NodeID) (peers : List NodeID) (st : σ)
    (p : PersistentState) (hst : stored st = some p) (hlog : p.log ≠ []) (xs : List Input)
    (hcalls : ∀ x ∈ xs, x.IsCall) (hxs : Along nodeStep Honoured (Raft.new id peers st) xs) :
    (∀ xs₁ xs₂ a₁ a₂ r₁ r₂, xs₁ ++ [.requestVote a₁] <+: xs → xs₂ ++ [.requestVote a₂] <+: xs →
      run nodeStep (Raft.new id peers st) xs₁ = some r₁ →
      run nodeStep (Raft.new id peers st) xs₂ = some r₂ →
      (r₁.requestVote a₁).2.voteGranted = true → (r₂.requestVote a₂).2.voteGranted = true →
      a₁.term = a₂.term → a₁.candidateID = a₂.candidateID) ∧
    ∀ xs₁ a r₁, xs₁ ++ [.appendEntries a] <+: xs →
      run nodeStep (Raft.new id peers st) xs₁ = some r₁ →
      (r₁.appendEntries a).2.success = true → ∀ i e, a.entries[i]? = some e →
      ∃ p, Storage.load (r₁.appendEntries a).1.storage = .ok (some p) ∧
        p.log[a.prevLogIndex + 1 + i]? = some e := by
  -- the node at every moment of the run
  have hat : ∀ xs₁ ys r₁, xs = xs₁ ++ ys → run nodeStep (Raft.new id peers st) xs₁ = some r₁ →
      r₁.log ≠ [] ∧ InSync r₁ ∧ Along nodeStep Honoured r₁ ys ∧ ∀ y ∈ ys, y.IsCall := by
    rintro xs₁ ys r₁ rfl hrun₁
    obtain ⟨hlog₁, hsync₁, _⟩ := (inSync_new id peers hst hlog).honoured_run
      (log_new_ne id peers st) (fun y hy => hcalls y (List.mem_append_left _ hy)) hxs.front hrun₁
    exact ⟨hlog₁, hsync₁, hxs.rest hrun₁, fun y hy => hcalls y (List.mem_append_right _ hy)⟩
  constructor
  · -- two votes of one term: the earlier one is pinned on disk when the later is asked for
    intro xs₁ xs₂ a₁ a₂ r₁ r₂ hpre₁ hpre₂ hrun₁ hrun₂ hg₁ hg₂ hterm
    have hagree : VotesAgree r₁ (.requestVote a₁) r₂ (.requestVote a₂) := by
      refine run_moments (fun _ _ _ _ h => h.symm) VotesAgree.refl ?_ hpre₁ hpre₂ hrun₁ hrun₂
      intro ys₁ x₁ ys₂ x₂ zs q₁ q₁' q₂ hsplit hq₁ hstep hq₂
      obtain rfl := Option.some.inj hstep
      obtain ⟨hlog₁, hsync₁, halong, hcalls₁⟩ := hat ys₁ _ q₁ hsplit hq₁
      rw [← List.cons_append] at halong hcalls₁
      exact votesAgree_of_honoured hlog₁ hsync₁
        (fun y hy => hcalls₁ y (List.mem_append_left _ hy)) halong.front hq₂
    refine hagree a₁.term _ _ (if_pos hg₁) ?_
    rw [hterm]
    exact if_pos hg₂
  · -- an accepted append leaves the node in sync, so what it merged is what a load returns
    rintro xs₁ a r₁ ⟨ys, hys⟩ hrun₁ hsucc i e he
    rw [List.append_assoc] at hys
    obtain ⟨hlog₁, hsync₁, halong, hcalls₁⟩ := hat xs₁ _ r₁ hys.symm hrun₁
    have hsync' : InSync (r₁.appendEntries a).1 :=
      hsync₁.honoured hlog₁ (x := .appendEntries a) trivial halong.1
    have hget := (appendEntries_outcome r₁ a).getElem? hlog₁ halong.1.2 hsucc he
    refine ⟨_, load_of_stored hsync' (i := a.prevLogIndex + i) (e := e) ?_, hget⟩
    rwa [show a.prevLogIndex + i + 1 = a.prevLogIndex + 1 + i by omega]

/-- A vote and an entry that a working storage keeps. -/
theorem acknowledged_durable_working : ∃ p,
    ((Raft.new 0 [1, 2] (FlakyStorage.mk none [])).appendEntries
      ⟨1, 1, 0, 0, [⟨1, [7]⟩], 0⟩).2.success = true ∧
    Storage.load ((Raft.new 0 [1, 2] (FlakyStorage.mk none [])).appendEntries
      ⟨1, 1, 0, 0, [⟨1, [7]⟩], 0⟩).1.storage = .ok (some p) ∧ p.log[1]? = some ⟨1, [7]⟩ := by
  have hacc : ChangeSaved (Raft.new 0 [1, 2] (FlakyStorage.mk none []))
      (.appendEntries ⟨1, 1, 0, 0, [⟨1, [7]⟩], 0⟩) := fun _ => rfl
  -- the log is the sentinel alone, so no index of it clashes with the entry sent
  have hsame : SameEntries [sentinel] ⟨1, 1, 0, 0, [⟨1, [7]⟩], 0⟩ := by
    intro i e e' _ hget
    rw [List.getElem?_eq_none (by simp)] at hget
    cases hget
  have hsafe := (acknowledged_durable 0 [1, 2] (FlakyStorage.mk none []) ⟨0, None, [sentinel]⟩ rfl
    (by decide) [.appendEntries ⟨1, 1, 0, 0, [⟨1, [7]⟩], 0⟩] (by decide)
    ⟨⟨hacc, hsame⟩, fun _ _ => trivial⟩).2
  have hsucc : ((Raft.new 0 [1, 2] (FlakyStorage.mk none [])).appendEntries
      ⟨1, 1, 0, 0, [⟨1, [7]⟩], 0⟩).2.success = true := by decide
  obtain ⟨p, hload, hget⟩ := hsafe [] _ _ (List.prefix_refl _) rfl hsucc 0 _ rfl
  exact ⟨p, hsucc, hload, hget⟩

/-- A first save that fails: node 0 grants term 1 to node 1, restarts and grants it to
    node 2; and it acknowledges an entry of which `Load` knows nothing. -/
theorem failed_save_acknowledged :
    ((Raft.new 0 [1, 2] (FlakyStorage.mk none [false])).requestVote ⟨1, 1, 0, 0⟩).2 = ⟨1, true⟩ ∧
    (run nodeStep (Raft.new 0 [1, 2] (FlakyStorage.mk none [false]))
      [.requestVote ⟨1, 1, 0, 0⟩, .restart]).map (fun r => (r.requestVote ⟨1, 2, 0, 0⟩).2) =
        some ⟨1, true⟩ ∧
    ((Raft.new 0 [1, 2] (FlakyStorage.mk none [false])).appendEntries
      ⟨1, 1, 0, 0, [⟨1, [7]⟩], 0⟩).2 = ⟨1, true, 0⟩ ∧
    Storage.load ((Raft.new 0 [1, 2] (FlakyStorage.mk none [false])).appendEntries
      ⟨1, 1, 0, 0, [⟨1, [7]⟩], 0⟩).1.storage = .ok none := by
  refine ⟨by decide, by decide, by decide, rfl⟩

end EventLog.Raft
