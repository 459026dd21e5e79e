import Mathlib.Data.List.Chain
import Mathlib.Data.List.Forall2

/-!
# Lists related point by point

Facts about `List.Forall₂` for a collection whose members are replaced one at a time or
all at once, about collections in which each member starts where the last one ends, and
about what stands where in a list that has grown.
-/

namespace EventLog.Lib

variable {α β γ : Type*} {R : α → β → Prop} {l : List α} {l' : List β}

/-- What stood somewhere stays there. -/
theorem getElem?_append_of_some {m : List α} {i : Nat} {a : α} (h : l[i]? = some a) :
    (l ++ m)[i]? = some a := by
  rw [List.getElem?_append_left (List.getElem?_eq_some_iff.mp h).1, h]

/-- After one more element, what stands somewhere stood there before or is the new one. -/
theorem getElem?_concat_cases {i : Nat} {a b : α} (h : (l ++ [b])[i]? = some a) :
    l[i]? = some a ∨ i = l.length ∧ a = b := by
  -- an index past the old list is that of the new element
  by_cases hi : i < l.length
  · rw [List.getElem?_append_left hi] at h
    exact .inl h
  · have hlt := (List.getElem?_eq_some_iff.mp h).1
    rw [List.length_append, List.length_singleton] at hlt
    obtain rfl : i = l.length := by omega
    rw [List.getElem?_concat_length] at h
    exact .inr ⟨rfl, (Option.some.inj h).symm⟩

/-- Every member of the second list is related to one of the first. -/
theorem exists_of_mem_right (h : List.Forall₂ R l l') {b : β} (hb : b ∈ l') :
    ∃ a ∈ l, R a b := by
  induction h with
  | nil => cases hb
  | @cons a b' l l' hab _ ih =>
    rcases List.mem_cons.mp hb with rfl | hb
    · exact ⟨a, List.mem_cons_self, hab⟩
    · obtain ⟨a', ha', hab'⟩ := ih hb
      exact ⟨a', List.mem_cons_of_mem _ ha', hab'⟩

/-- Every member of the first list is related to one of the second. -/
theorem exists_of_mem_left (h : List.Forall₂ R l l') {a : α} (ha : a ∈ l) : ∃ b ∈ l', R a b :=
  exists_of_mem_right (R := flip R) h.flip ha

/-- Replacing one member by a related one, with a relation every member has to itself. -/
theorem forall₂_set {R : α → α → Prop} (hrefl : ∀ a, R a a) {i : Nat} {a b : α}
    (h : l[i]? = some a) (hab : R a b) : List.Forall₂ R l (l.set i b) := by
  induction l generalizing i with
  | nil => simp at h
  | cons x xs ih =>
    cases i with
    | zero =>
      obtain rfl : x = a := by simpa using h
      exact .cons hab (List.forall₂_same.mpr fun a _ => hrefl a)
    | succ i => exact .cons (hrefl x) (ih (by simpa using h))

/-- A transitive relation, member by member. -/
theorem forall₂_trans {R : α → α → Prop} (htrans : ∀ {a b c}, R a b → R b c → R a c)
    {l₁ l₂ l₃ : List α} (h : List.Forall₂ R l₁ l₂) (h' : List.Forall₂ R l₂ l₃) :
    List.Forall₂ R l₁ l₃ := by
  induction h generalizing l₃ with
  | nil => exact h'
  | cons hab _ ih =>
    cases h' with
    | cons hbc hrest => exact .cons (htrans hab hbc) (ih hrest)

/-- An ordering that the relation respects carries over. -/
theorem pairwise_of_forall₂ {S : α → α → Prop} {T : β → β → Prop}
    (hST : ∀ {a a' b b'}, R a b → R a' b' → S a a' → T b b')
    (h : List.Forall₂ R l l') (hl : l.Pairwise S) : l'.Pairwise T := by
  induction h with
  | nil => exact List.Pairwise.nil
  | cons hab hrest ih =>
    -- what is right of `b'` comes from something right of `b`
    obtain ⟨hfirst, hl⟩ := List.pairwise_cons.mp hl
    refine List.pairwise_cons.mpr ⟨fun b' hb' => ?_, ih hl⟩
    obtain ⟨a', ha', hab'⟩ := exists_of_mem_right hrest hb'
    exact hST hab hab' (hfirst a' ha')

/-- Members that grow make a concatenation grow. -/
theorem flatMap_sublist_of_forall₂ {f : α → List γ} {g : β → List γ}
    (hfg : ∀ {a b}, R a b → (f a).Sublist (g b)) (h : List.Forall₂ R l l') :
    (l.flatMap f).Sublist (l'.flatMap g) := by
  induction h with
  | nil => exact List.Sublist.refl _
  | cons hab _ ih =>
    rw [List.flatMap_cons, List.flatMap_cons]
    exact (hfg hab).append ih

/-- The images agree exactly when they agree at every member. -/
theorem map_eq_map_iff_of_forall₂ {f : β → γ} {g : α → γ} {P : α → Prop}
    (h : List.Forall₂ R l l') (hfg : ∀ a ∈ l, ∀ b, R a b → (f b = g a ↔ P a)) :
    l'.map f = l.map g ↔ ∀ a ∈ l, P a := by
  induction h with
  | nil => simp
  | @cons a b l l' hab _ ih =>
    have ih := ih fun a ha => hfg a (List.mem_cons_of_mem _ ha)
    rw [List.map_cons, List.map_cons, List.cons.injEq, ih, hfg a List.mem_cons_self b hab,
      List.forall_mem_cons]

/-! ## Adjacent members -/

/-- A chain in which each member starts where the last one ends, as an equation between
    the ends and the starts. -/
theorem isChain_concat_iff {stop start : α → γ} {x : α} :
    (l ++ [x]).IsChain (fun a b => stop a = start b) ↔
      l.map stop = (l ++ [x]).tail.map start := by
  induction l with
  | nil => simp
  | cons a l ih =>
    cases l with
    | nil => simp
    | cons b l =>
      simp only [List.cons_append, List.isChain_cons_cons, List.map_cons, List.tail_cons,
        List.cons.injEq] at ih ⊢
      rw [ih]

/-- Everything between the start of the first and the end of the last member lies inside
    some member. -/
theorem exists_mem_of_isChain {start stop : α → Nat} {x : α} {n : Nat}
    (h : (x :: l).IsChain fun a b => stop a = start b) (hx : start x ≤ n)
    (hn : n < stop ((x :: l).getLast (List.cons_ne_nil x l))) :
    ∃ a ∈ x :: l, start a ≤ n ∧ n < stop a := by
  induction l generalizing x with
  | nil => exact ⟨x, List.mem_cons_self, hx, hn⟩
  | cons y l ih =>
    obtain ⟨hxy, h⟩ := List.isChain_cons_cons.mp h
    -- if the first interval ends before `n`, the next one starts there or before
    by_cases hlt : n < stop x
    · exact ⟨x, List.mem_cons_self, hx, hlt⟩
    · rw [List.getLast_cons (List.cons_ne_nil y l)] at hn
      obtain ⟨a, ha, hstart, hstop⟩ := ih h (by omega) hn
      exact ⟨a, List.mem_cons_of_mem _ ha, hstart, hstop⟩

end EventLog.Lib
