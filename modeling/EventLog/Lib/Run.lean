import Mathlib.Data.List.Induction
import Mathlib.Order.Defs.PartialOrder

/-!
# Runs of a guarded transition system

A system is a partial step function `step : S → E → Option S`: `none` means the
event is not enabled.  A run folds the step function over a list of events.

* `run_append` splits a run at any point, which is how "at some earlier moment of
  the same run" is stated.
* `Along` is a condition on the steps of a run; `along_iff` reads it at each moment.
* `run_invariant` is the induction rule for runs whose steps meet a condition;
  `run_steps_iff`, `run_property_iff` and `run_invariant_iff` are the exact versions, for a
  condition each step needs.
* `run_moments` compares two moments of one run.
* `run_induction` is the same rule for a property of the events so far.
* `run_extends` is the same rule for an invariant that also mentions a growing
  history of the run.
-/

namespace EventLog.Lib

variable {S E G : Type*}

/-- Fold a partial step function over a list of events. -/
def run (step : S → E → Option S) : S → List E → Option S
  | s, [] => some s
  | s, e :: es => (step s e).bind fun s' => run step s' es

@[simp] theorem run_nil (step : S → E → Option S) (s : S) :
    run step s [] = some s := rfl

theorem run_cons (step : S → E → Option S) (s : S) (e : E) (es : List E) :
    run step s (e :: es) = (step s e).bind fun s' => run step s' es := rfl

/-- A run over `es ++ fs` is a run over `es` followed by one over `fs`. -/
theorem run_append (step : S → E → Option S) (s : S) (es fs : List E) :
    run step s (es ++ fs) = (run step s es).bind fun s' => run step s' fs := by
  induction es generalizing s with
  | nil => simp
  | cons e es ih =>
    simp only [List.cons_append, run_cons]
    cases step s e with
    | none => rfl
    | some s' => exact ih s'

/-- A completed run over a nonempty list factors through its first step. -/
theorem run_cons_eq_some {step : S → E → Option S} {s s' : S} {e : E} {es : List E}
    (h : run step s (e :: es) = some s') :
    ∃ t, step s e = some t ∧ run step t es = some s' := by
  rw [run_cons] at h
  exact Option.bind_eq_some_iff.mp h

/-- A completed run factors at any split of its event list. -/
theorem run_append_eq_some {step : S → E → Option S} {s s' : S} {es fs : List E}
    (h : run step s (es ++ fs) = some s') :
    ∃ t, run step s es = some t ∧ run step t fs = some s' := by
  rw [run_append] at h
  exact Option.bind_eq_some_iff.mp h

/-- A completed run passes through every moment before its end. -/
theorem run_of_isPrefix {step : S → E → Option S} {s s' : S} {es₁ es : List E} (hpre : es₁ <+: es)
    (h : run step s es = some s') : ∃ t, run step s es₁ = some t := by
  obtain ⟨fs, rfl⟩ := hpre
  obtain ⟨t, ht, _⟩ := run_append_eq_some h
  exact ⟨t, ht⟩

/-- The last step of a run. -/
theorem run_concat_eq_some {step : S → E → Option S} {s s' : S} {es : List E} {e : E}
    (h : run step s (es ++ [e]) = some s') :
    ∃ t, run step s es = some t ∧ step t e = some s' := by
  obtain ⟨t, ht, hlast⟩ := run_append_eq_some h
  obtain ⟨t', ht', hnil⟩ := run_cons_eq_some hlast
  rw [run_nil] at hnil
  exact ⟨t, ht, ht'.trans hnil⟩

/-- One more step. -/
theorem run_concat {step : S → E → Option S} {s t t' : S} {es : List E} {e : E}
    (h : run step s es = some t) (hstep : step t e = some t') :
    run step s (es ++ [e]) = some t' := by
  rw [run_append, h, Option.bind_some, run_cons, hstep]
  rfl

/-- Every event of a run meets `P` in the state it happens in. -/
def Along (step : S → E → Option S) (P : S → E → Prop) : S → List E → Prop
  | _, [] => True
  | s, e :: es => P s e ∧ ∀ s' ∈ step s e, Along step P s' es

/-- The condition can be checked along a given run. -/
instance Along.decidable {step : S → E → Option S} {P : S → E → Prop}
    [∀ s e, Decidable (P s e)] : ∀ s es, Decidable (Along step P s es)
  | _, [] => inferInstanceAs (Decidable True)
  | s, e :: es =>
    have : ∀ s', Decidable (Along step P s' es) := fun s' => Along.decidable s' es
    inferInstanceAs (Decidable (P s e ∧ ∀ s' ∈ step s e, Along step P s' es))

/-- A condition on the events alone. -/
theorem along_of_forall {step : S → E → Option S} {P : E → Prop} {s : S} {es : List E}
    (h : ∀ e ∈ es, P e) : Along step (fun _ e => P e) s es := by
  induction es generalizing s with
  | nil => trivial
  | cons e es ih =>
    exact ⟨h e List.mem_cons_self, fun s' _ => ih fun e' he' => h e' (List.mem_cons_of_mem _ he')⟩

theorem along_iff_forall {step : S → E → Option S} {P : E → Prop} {s s' : S} {es : List E}
    (hrun : run step s es = some s') : Along step (fun _ e => P e) s es ↔ ∀ e ∈ es, P e := by
  refine ⟨fun h => ?_, along_of_forall⟩
  induction es generalizing s with
  | nil => simp
  | cons e es ih =>
    obtain ⟨t, ht, hrest⟩ := run_cons_eq_some hrun
    exact List.forall_mem_cons.mpr ⟨h.1, ih hrest (h.2 t ht)⟩

theorem Along.mono {step : S → E → Option S} {P Q : S → E → Prop} {s : S} {es : List E}
    (h : Along step P s es) (hPQ : ∀ s e, P s e → Q s e) : Along step Q s es := by
  induction es generalizing s with
  | nil => trivial
  | cons e es ih => exact ⟨hPQ s e h.1, fun s' hs' => ih (h.2 s' hs')⟩

theorem Along.and {step : S → E → Option S} {P Q : S → E → Prop} {s : S} {es : List E}
    (hP : Along step P s es) (hQ : Along step Q s es) :
    Along step (fun s e => P s e ∧ Q s e) s es := by
  induction es generalizing s with
  | nil => trivial
  | cons e es ih => exact ⟨⟨hP.1, hQ.1⟩, fun s' hs' => ih (hP.2 s' hs') (hQ.2 s' hs')⟩

/-- The condition holds along the beginning of a run. -/
theorem Along.front {step : S → E → Option S} {P : S → E → Prop} {s : S} {es fs : List E}
    (h : Along step P s (es ++ fs)) : Along step P s es := by
  induction es generalizing s with
  | nil => trivial
  | cons e es ih => exact ⟨h.1, fun s' hs' => ih (h.2 s' hs')⟩

/-- The condition holds along the end of a run. -/
theorem Along.rest {step : S → E → Option S} {P : S → E → Prop} {s t : S} {es fs : List E}
    (h : Along step P s (es ++ fs)) (hrun : run step s es = some t) : Along step P t fs := by
  induction es generalizing s with
  | nil =>
    rw [run_nil] at hrun
    exact Option.some.inj hrun ▸ h
  | cons e' es ih =>
    obtain ⟨s', hs', hrest⟩ := run_cons_eq_some hrun
    exact ih (h.2 s' hs') hrest

/-- The condition along a run is the condition at each of its moments. -/
theorem along_iff {step : S → E → Option S} {P : S → E → Prop} {s : S} {es : List E} :
    Along step P s es ↔ ∀ es₁ e s₁, es₁ ++ [e] <+: es → run step s es₁ = some s₁ → P s₁ e := by
  constructor
  · rintro h es₁ e s₁ ⟨fs, rfl⟩ hrun
    rw [List.append_assoc] at h
    exact (h.rest hrun).1
  · intro h
    -- on the events, with the moments of the rest shifted by the first event
    induction es generalizing s with
    | nil => trivial
    | cons e es ih =>
      refine ⟨h [] e s ⟨es, rfl⟩ rfl, fun s' hs' => ih fun es₁ e' s₁ hpre hrun => ?_⟩
      exact h (e :: es₁) e' s₁ (List.cons_prefix_cons.mpr ⟨rfl, hpre⟩)
        (by rw [run_cons, Option.mem_def.mp hs']; exact hrun)

/-- **Invariant rule**: what every step that meets the condition preserves, every run whose
    steps meet it preserves. -/
theorem run_invariant {step : S → E → Option S} {P : S → E → Prop} {I : S → Prop}
    (hstep : ∀ s e s', I s → P s e → step s e = some s' → I s')
    {s s' : S} {es : List E} (hs : I s) (hes : Along step P s es)
    (hrun : run step s es = some s') : I s' := by
  induction es generalizing s with
  | nil =>
    rw [run_nil] at hrun
    exact Option.some.inj hrun ▸ hs
  | cons e es ih =>
    obtain ⟨t, ht, hrest⟩ := run_cons_eq_some hrun
    exact ih (hstep s e t hs hes.1 ht) (hes.2 t ht) hrest

/-- **Exact rule for steps**: a step that meets the condition keeps the invariant and is as
    wanted, and one that does not is not.  Then all steps of a run are as wanted exactly when
    all of them meet the condition.  `F` is what is known of every step. -/
theorem run_steps_iff {step : S → E → Option S} {F P : S → E → Prop} {I : S → Prop}
    {R : S → E → S → Prop}
    (hkeep : ∀ s e s', I s → F s e → P s e → step s e = some s' → I s' ∧ R s e s')
    (hlose : ∀ s e s', I s → F s e → ¬P s e → step s e = some s' → ¬R s e s')
    {s s' : S} {es : List E} (hs : I s) (hF : Along step F s es)
    (hrun : run step s es = some s') :
    (∀ es₁ e s₁ s₂, es₁ ++ [e] <+: es → run step s es₁ = some s₁ → step s₁ e = some s₂ →
      R s₁ e s₂) ↔ Along step P s es := by
  constructor
  · intro hall
    induction es generalizing s with
    | nil => trivial
    | cons e es ih =>
      obtain ⟨t, ht, hrest⟩ := run_cons_eq_some hrun
      have hP : P s e := by
        -- a first step without `P` would break `R`
        by_contra hnot
        exact hlose s e t hs hF.1 hnot ht (hall [] e s t ⟨es, rfl⟩ rfl ht)
      refine ⟨hP, fun s₁ hs₁ => ?_⟩
      obtain rfl : t = s₁ := Option.some.inj (ht.symm.trans hs₁)
      refine ih (hkeep s e t hs hF.1 hP ht).1 (hF.2 t ht) hrest fun es₁ e' s₁ s₂ hpre h₁ h₂ => ?_
      -- a step of the rest of the run is a step of the whole run
      exact hall (e :: es₁) e' s₁ s₂ (List.cons_prefix_cons.mpr ⟨rfl, hpre⟩)
        (by rw [run_cons, ht]; exact h₁) h₂
  · rintro hes es₁ e s₁ s₂ ⟨fs, rfl⟩ hrun₁ hstep
    rw [List.append_assoc] at hes hF
    have hI : I s₁ := run_invariant
      (fun s e s' hI h hstep => (hkeep s e s' hI h.1 h.2 hstep).1) hs
      (hF.front.and hes.front) hrun₁
    exact (hkeep s₁ e s₂ hI (hF.rest hrun₁).1 (hes.rest hrun₁).1 hstep).2

/-- **Exact rule for a property**: the invariant has the property, a step that meets the
    condition keeps the invariant, and one that does not loses the property.  Then a run
    has the property at every moment exactly when all its steps meet the condition. -/
theorem run_property_iff {step : S → E → Option S} {F P : S → E → Prop} {I Q : S → Prop}
    (hQ : ∀ s, I s → Q s)
    (hkeep : ∀ s e s', I s → F s e → P s e → step s e = some s' → I s')
    (hlose : ∀ s e s', I s → F s e → ¬P s e → step s e = some s' → ¬Q s')
    {s s' : S} {es : List E} (hs : I s) (hF : Along step F s es)
    (hrun : run step s es = some s') :
    (∀ es₁ s₁, es₁ <+: es → run step s es₁ = some s₁ → Q s₁) ↔ Along step P s es := by
  rw [← run_steps_iff (R := fun _ _ s' => Q s') (fun s e s' hI hf hP h =>
    ⟨hkeep s e s' hI hf hP h, hQ s' (hkeep s e s' hI hf hP h)⟩) hlose hs hF hrun]
  constructor
  · exact fun hall es₁ e s₁ s₂ hpre h₁ h₂ => hall (es₁ ++ [e]) s₂ hpre (run_concat h₁ h₂)
  · intro hall es₁ s₁ hpre h₁
    -- the moment at the start apart, every moment ends a step
    rcases List.eq_nil_or_concat es₁ with rfl | ⟨es₁, e, rfl⟩
    · rw [run_nil] at h₁
      exact Option.some.inj h₁ ▸ hQ s hs
    · rw [List.concat_eq_append] at hpre h₁
      obtain ⟨t, ht, hlast⟩ := run_concat_eq_some h₁
      exact hall es₁ e t s₁ hpre ht hlast

/-- **Exact invariant rule**: if a step keeps the invariant exactly when it meets the
    condition, a run keeps it at every moment exactly when all its steps meet it. -/
theorem run_invariant_iff {step : S → E → Option S} {P : S → E → Prop} {I : S → Prop}
    (hstep : ∀ s e s', I s → step s e = some s' → (I s' ↔ P s e))
    {s s' : S} {es : List E} (hs : I s) (hrun : run step s es = some s') :
    (∀ es₁ s₁, es₁ <+: es → run step s es₁ = some s₁ → I s₁) ↔ Along step P s es :=
  run_property_iff (fun _ hI => hI) (fun s e s' hI _ hP h => (hstep s e s' hI h).mpr hP)
    (fun s e s' hI _ hnot h hI' => hnot ((hstep s e s' hI h).mp hI')) hs
    (along_of_forall (P := fun _ => True) fun _ _ => trivial) hrun

/-- Two moments of one list of events are the same or one comes first. -/
theorem moments_cases {es es₁ es₂ : List E} {e₁ e₂ : E} (h₁ : es₁ ++ [e₁] <+: es)
    (h₂ : es₂ ++ [e₂] <+: es) :
    (es₁ = es₂ ∧ e₁ = e₂) ∨ es₁ ++ [e₁] <+: es₂ ∨ es₂ ++ [e₂] <+: es₁ := by
  have heq : es₁ ++ [e₁] = es₂ ++ [e₂] → es₁ = es₂ ∧ e₁ = e₂ := fun h => by
    obtain ⟨h, he⟩ := List.append_inj' h rfl
    exact ⟨h, List.singleton_inj.mp he⟩
  -- of two moments of one run the shorter one is a prefix of the other
  rcases List.prefix_or_prefix_of_prefix h₁ h₂ with h | h
  · rcases List.prefix_concat_iff.mp h with h | h
    · exact Or.inl (heq h)
    · exact Or.inr (Or.inl h)
  · rcases List.prefix_concat_iff.mp h with h | h
    · exact Or.inl (heq h.symm)
    · exact Or.inr (Or.inr h)

/-- **Rule for two moments of a run**: a symmetric relation holds of any two if it holds of
    each with itself and with every later one. -/
theorem run_moments {step : S → E → Option S} {R : S → E → S → E → Prop} {s : S} {es : List E}
    (hsymm : ∀ t e t' e', R t e t' e' → R t' e' t e) (hself : ∀ t e, R t e t e)
    (hlater : ∀ es₁ e₁ es₂ e₂ fs t₁ t₁' t₂, es = es₁ ++ e₁ :: (es₂ ++ e₂ :: fs) →
      run step s es₁ = some t₁ → step t₁ e₁ = some t₁' → run step t₁' es₂ = some t₂ →
      R t₁ e₁ t₂ e₂)
    {es₁ es₂ : List E} {e₁ e₂ : E} {t₁ t₂ : S} (h₁ : es₁ ++ [e₁] <+: es)
    (h₂ : es₂ ++ [e₂] <+: es) (hrun₁ : run step s es₁ = some t₁)
    (hrun₂ : run step s es₂ = some t₂) : R t₁ e₁ t₂ e₂ := by
  have hfirst : ∀ es₁ e₁ es₂ e₂ t₁ t₂, es₁ ++ [e₁] <+: es₂ → es₂ ++ [e₂] <+: es →
      run step s es₁ = some t₁ → run step s es₂ = some t₂ → R t₁ e₁ t₂ e₂ := by
    -- between the two moments the run goes through the state after the first
    rintro es₁ e₁ _ e₂ t₁ t₂ ⟨gs, rfl⟩ ⟨fs, hfs⟩ hrun₁ hrun₂
    simp only [List.append_assoc, List.singleton_append] at hfs hrun₂
    obtain ⟨t, ht, hrest⟩ := run_append_eq_some hrun₂
    obtain rfl := Option.some.inj (ht.symm.trans hrun₁)
    obtain ⟨t', ht', hrest⟩ := run_cons_eq_some hrest
    exact hlater es₁ e₁ gs e₂ fs t t' t₂ hfs.symm hrun₁ ht' hrest
  rcases moments_cases h₁ h₂ with ⟨rfl, rfl⟩ | hbefore | hbefore
  · obtain rfl := Option.some.inj (hrun₁.symm.trans hrun₂)
    exact hself t₁ e₁
  · exact hfirst es₁ e₁ es₂ e₂ t₁ t₂ hbefore h₂ hrun₁ hrun₂
  · exact hsymm _ _ _ _ (hfirst es₂ e₂ es₁ e₁ t₂ t₁ hbefore h₁ hrun₂ hrun₁)

/-- **Induction over the moments of a run**: `P` may mention the events so far. -/
theorem run_induction {step : S → E → Option S} {P : List E → S → Prop} {s : S} (hs : P [] s)
    (hstep : ∀ es t e t', run step s es = some t → P es t → step t e = some t' →
      P (es ++ [e]) t')
    {s' : S} {es : List E} (hrun : run step s es = some s') : P es s' := by
  induction es using List.reverseRecOn generalizing s' with
  | nil =>
    rw [run_nil] at hrun
    exact Option.some.inj hrun ▸ hs
  | append_singleton es e ih =>
    obtain ⟨t, ht, hlast⟩ := run_concat_eq_some hrun
    exact hstep es t e s' ht (ih ht) hlast

/-- **Invariant rule with a history witness**: a step may extend the witness `g` but
    never take anything back, so a fact recorded early in a run still holds at its end. -/
theorem run_extends [Preorder G] {step : S → E → Option S} {P : S → G → Prop}
    (hstep : ∀ s e s' g, P s g → step s e = some s' → ∃ g', g ≤ g' ∧ P s' g')
    {s s' : S} {es : List E} {g : G} (hs : P s g) (hrun : run step s es = some s') :
    ∃ g', g ≤ g' ∧ P s' g' := by
  induction es generalizing s g with
  | nil =>
    rw [run_nil] at hrun
    exact ⟨g, le_refl g, Option.some.inj hrun ▸ hs⟩
  | cons e es ih =>
    obtain ⟨t, ht, hrest⟩ := run_cons_eq_some hrun
    obtain ⟨g₁, hle₁, hg₁⟩ := hstep s e t g hs ht
    obtain ⟨g₂, hle₂, hg₂⟩ := ih hg₁ hrest
    exact ⟨g₂, le_trans hle₁ hle₂, hg₂⟩

end EventLog.Lib
