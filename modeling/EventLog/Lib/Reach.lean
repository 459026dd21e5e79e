import EventLog.Lib.Run
import Mathlib.Data.Finset.Insert

/-!
# Continuations of a run

Liveness of a system without a scheduler is a statement about what can still happen: from
a given state there is a run, made of events that meet a condition, that ends where one
wants.  The rules here put such runs together.

* `CanReach.trans` runs one after the other.
* `CanReach.invariant` carries what every allowed step keeps.
* `canReach_iterate` and `canReach_insert` repeat a step, a number of times or once for each
  member of a finite set.
-/

namespace EventLog.Lib

variable {S E : Type*} {step : S → E → Option S} {P : S → E → Prop} {s s' s'' : S}

/-- A run from `s` to `s'` all of whose events meet the condition. -/
def CanReach (step : S → E → Option S) (P : S → E → Prop) (s s' : S) : Prop :=
  ∃ es, Along step P s es ∧ run step s es = some s'

theorem CanReach.refl (s : S) : CanReach step P s s := ⟨[], trivial, rfl⟩

/-- One more event in front. -/
theorem CanReach.head {e : E} (hP : P s e) (hstep : step s e = some s')
    (h : CanReach step P s' s'') : CanReach step P s s'' := by
  obtain ⟨es, halong, hrun⟩ := h
  refine ⟨e :: es, ⟨hP, fun t ht => ?_⟩, ?_⟩
  · obtain rfl : t = s' := Option.some.inj (ht.symm.trans hstep)
    exact halong
  · rw [run_cons, hstep]
    exact hrun

theorem CanReach.single {e : E} (hP : P s e) (hstep : step s e = some s') :
    CanReach step P s s' :=
  .head hP hstep (.refl s')

theorem CanReach.trans (h : CanReach step P s s') (h' : CanReach step P s' s'') :
    CanReach step P s s'' := by
  obtain ⟨es, halong, hrun⟩ := h
  -- on the events of the first path
  induction es generalizing s with
  | nil =>
    rw [run_nil] at hrun
    exact Option.some.inj hrun ▸ h'
  | cons e es ih =>
    obtain ⟨t, ht, hrest⟩ := run_cons_eq_some hrun
    exact .head halong.1 ht (ih (halong.2 t ht) hrest)

/-- **Invariant rule** for continuations. -/
theorem CanReach.invariant {I : S → Prop}
    (hstep : ∀ s e s', I s → P s e → step s e = some s' → I s') (hs : I s)
    (h : CanReach step P s s') : I s' := by
  obtain ⟨es, halong, hrun⟩ := h
  exact run_invariant hstep hs halong hrun

/-- Repeating a step `n` times. -/
theorem canReach_iterate {Q : Nat → S → Prop} (n : Nat)
    (hstep : ∀ k s, k < n → Q k s → ∃ s', CanReach step P s s' ∧ Q (k + 1) s') (hs : Q 0 s) :
    ∃ s', CanReach step P s s' ∧ Q n s' := by
  induction n with
  | zero => exact ⟨s, .refl s, hs⟩
  | succ n ih =>
    obtain ⟨t, ht, hQt⟩ := ih fun k s hk => hstep k s (Nat.lt_succ_of_lt hk)
    obtain ⟨s', hs', hQ⟩ := hstep n t (Nat.lt_succ_self n) hQt
    exact ⟨s', ht.trans hs', hQ⟩

/-- Doing something once for each member of a finite set. -/
theorem canReach_insert {α : Type*} [DecidableEq α] {Q : Finset α → S → Prop} (A : Finset α)
    (hstep : ∀ B a s, a ∉ B → insert a B ⊆ A → Q B s →
      ∃ s', CanReach step P s s' ∧ Q (insert a B) s') (hs : Q ∅ s) :
    ∃ s', CanReach step P s s' ∧ Q A s' := by
  have key : ∀ B, B ⊆ A → ∃ s', CanReach step P s s' ∧ Q B s' := by
    intro B
    -- the members are added one by one, and each adds its path
    induction B using Finset.induction_on with
    | empty => exact fun _ => ⟨s, .refl s, hs⟩
    | insert a B ha ih =>
      intro hsub
      obtain ⟨t, ht, hQt⟩ := ih fun b hb => hsub (Finset.mem_insert_of_mem hb)
      obtain ⟨s', hs', hQ⟩ := hstep B a t ha hsub hQt
      exact ⟨s', ht.trans hs', hQ⟩
  exact key A (Finset.Subset.refl A)

end EventLog.Lib
