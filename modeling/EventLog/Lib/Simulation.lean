import Mathlib.Data.List.Basic
import Mathlib.Order.Defs.PartialOrder

/-!
# Refinement by simulation

The concrete system is a partial step function that answers every event; the abstract one
is a relation, so that it may leave a choice open.  If a relation between their states is
kept by every concrete step, with the same answer on both sides, then every sequence of
answers of the concrete system is one of the abstract system (`Simulates.behaves`).

* `trace` runs the concrete system and collects its answers.
* `Behaves` is a run of the abstract system with its answers.
* `Behaves.invariant`, `Behaves.le` and `Behaves.eq_append` lift what one abstract step does
  to a whole run.
-/

namespace EventLog.Lib

variable {S A E O : Type*}

/-- Run a partial step function over a list of events, collecting the answers. -/
def trace (step : S → E → Option (S × O)) : S → List E → Option (S × List O)
  | s, [] => some (s, [])
  | s, e :: es =>
    (step s e).bind fun p => (trace step p.1 es).map fun q => (q.1, p.2 :: q.2)

/-- A completed trace over a nonempty list factors through its first step. -/
theorem trace_cons_eq_some {step : S → E → Option (S × O)} {s s' : S} {e : E} {es : List E}
    {os : List O} (h : trace step s (e :: es) = some (s', os)) :
    ∃ t o os', step s e = some (t, o) ∧ trace step t es = some (s', os') ∧ os = o :: os' := by
  rw [trace, Option.bind_eq_some_iff] at h
  obtain ⟨⟨t, o⟩, hstep, h⟩ := h
  obtain ⟨⟨t', os'⟩, hrest, heq⟩ := Option.map_eq_some_iff.mp h
  obtain ⟨rfl, rfl⟩ := Prod.mk.inj heq
  exact ⟨t, o, os', hstep, hrest, rfl⟩

/-- A run of the abstract system: its steps, in order, with their answers. -/
inductive Behaves (Step : A → E → A → O → Prop) : A → List E → A → List O → Prop where
  | nil (a : A) : Behaves Step a [] a []
  | cons {a a' a'' : A} {e : E} {es : List E} {o : O} {os : List O} :
      Step a e a' o → Behaves Step a' es a'' os → Behaves Step a (e :: es) a'' (o :: os)

/-- The relation is a forward simulation: each concrete step is matched by an abstract one
    with the same answer. -/
def Simulates (step : S → E → Option (S × O)) (Step : A → E → A → O → Prop)
    (R : S → A → Prop) : Prop :=
  ∀ s a e s' o, R s a → step s e = some (s', o) → ∃ a', Step a e a' o ∧ R s' a'

/-- **Trace inclusion**: a whole concrete run is matched by an abstract one. -/
theorem Simulates.behaves {step : S → E → Option (S × O)} {Step : A → E → A → O → Prop}
    {R : S → A → Prop} (hsim : Simulates step Step R) {s s' : S} {a : A} {es : List E}
    {os : List O} (hR : R s a) (htrace : trace step s es = some (s', os)) :
    ∃ a', Behaves Step a es a' os ∧ R s' a' := by
  induction es generalizing s a os with
  | nil =>
    rw [trace] at htrace
    obtain ⟨rfl, rfl⟩ := Prod.mk.inj (Option.some.inj htrace)
    exact ⟨a, .nil a, hR⟩
  | cons e es ih =>
    obtain ⟨t, o, os', hstep, hrest, rfl⟩ := trace_cons_eq_some htrace
    -- the abstract step that matches the first one, then the rest from there
    obtain ⟨b, hb, hRt⟩ := hsim s a e t o hR hstep
    obtain ⟨a', ha', hR'⟩ := ih hRt hrest
    exact ⟨a', .cons hb ha', hR'⟩

/-- What every abstract step keeps, a whole run keeps. -/
theorem Behaves.invariant {Step : A → E → A → O → Prop} {P : A → Prop}
    (hstep : ∀ {a e a' o}, P a → Step a e a' o → P a') {a a' : A} {es : List E} {os : List O}
    (h : Behaves Step a es a' os) (ha : P a) : P a' := by
  induction h with
  | nil a => exact ha
  | cons h _ ih => exact ih (hstep ha h)

/-- What every abstract step only lets grow, a whole run only lets grow. -/
theorem Behaves.le [Preorder A] {Step : A → E → A → O → Prop}
    (hstep : ∀ {a e a' o}, Step a e a' o → a ≤ a') {a a' : A} {es : List E} {os : List O}
    (h : Behaves Step a es a' os) : a ≤ a' := by
  induction h with
  | nil a => exact le_refl a
  | cons h _ ih => exact le_trans (hstep h) ih

/-- A list that each abstract step extends by what the event contributes. -/
theorem Behaves.eq_append {B : Type*} {Step : A → E → A → O → Prop} {f : A → List B}
    {g : E → Option B} (hstep : ∀ {a e a' o}, Step a e a' o → f a' = f a ++ (g e).toList)
    {a a' : A} {es : List E} {os : List O} (h : Behaves Step a es a' os) :
    f a' = f a ++ es.filterMap g := by
  induction h with
  | nil a => simp
  | @cons a a' a'' e es o os h _ ih =>
    rw [ih, hstep h, List.append_assoc]
    cases hg : g e with
    | none => simp [hg]
    | some b => simp [hg]

end EventLog.Lib
