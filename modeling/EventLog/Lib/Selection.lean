import Mathlib.Data.List.Forall2
import Mathlib.Data.List.Nodup
import Mathlib.Data.List.Range

/-!
# A list inside a longer one

Two systems keep numbered records, and one of them has some that the other has not.  The
members of the shorter list then stand at certain places of the longer one.

* `Picks R l ks l'`: the members of `l` stand in `l'` at the places `ks`, up to `R`.
* `Picks.grow`: records that only the longer list has.
* `Picks.append`: records that both get.
* `Picks.set`: a record that changes in both.
-/

namespace EventLog.Lib

variable {α β : Type*} {R S : α → β → Prop} {l m : List α} {l' m' l'' : List β} {ks : List Nat}

/-- `ks` are the places in `l'` of the members of `l`, each up to `R`. -/
structure Picks (R : α → β → Prop) (l : List α) (ks : List Nat) (l' : List β) : Prop where
  length_eq : ks.length = l.length
  nodup : ks.Nodup
  get : ∀ (n : Nat) (x : α), l[n]? = some x → ∃ k y, ks[n]? = some k ∧ l'[k]? = some y ∧ R x y

theorem Picks.imp (h : Picks R l ks l') (hRS : ∀ x y, R x y → S x y) : Picks S l ks l' where
  length_eq := h.length_eq
  nodup := h.nodup
  get n x hx := by
    obtain ⟨k, y, hk, hy, hR⟩ := h.get n x hx
    exact ⟨k, y, hk, hy, hRS x y hR⟩

theorem Picks.grow (h : Picks R l ks l') (hpre : l' <+: l'') : Picks R l ks l'' where
  length_eq := h.length_eq
  nodup := h.nodup
  get n x hx := by
    obtain ⟨k, y, hk, hy, hR⟩ := h.get n x hx
    obtain ⟨more, rfl⟩ := hpre
    exact ⟨k, y, hk, List.getElem?_append_left (List.getElem?_eq_some_iff.mp hy).1 ▸ hy, hR⟩

/-- A place stands for one member. -/
theorem Picks.inj (h : Picks R l ks l') {n n' k : Nat} (hn : ks[n]? = some k)
    (hn' : ks[n']? = some k) : n = n' :=
  (List.getElem?_inj (List.getElem?_eq_some_iff.mp hn).1 h.nodup).mp (hn.trans hn'.symm)

/-- What stands at a place. -/
theorem Picks.place (h : Picks R l ks l') {n k : Nat} (hk : ks[n]? = some k) :
    ∃ x y, l[n]? = some x ∧ l'[k]? = some y ∧ R x y := by
  have hlt : n < l.length := h.length_eq ▸ (List.getElem?_eq_some_iff.mp hk).1
  obtain ⟨k', y, hk', hy, hR⟩ := h.get n l[n] (List.getElem?_eq_getElem hlt)
  obtain rfl : k = k' := Option.some.inj (hk.symm.trans hk')
  exact ⟨l[n], y, List.getElem?_eq_getElem hlt, hy, hR⟩

theorem Picks.lt (h : Picks R l ks l') {k : Nat} (hk : k ∈ ks) : k < l'.length := by
  obtain ⟨n, hn⟩ := List.getElem?_of_mem hk
  obtain ⟨x, y, -, hy, -⟩ := h.place hn
  exact (List.getElem?_eq_some_iff.mp hy).1

theorem getElem?_of_forall₂ (h : List.Forall₂ R l l') {n : Nat} {x : α} (hx : l[n]? = some x) :
    ∃ y, l'[n]? = some y ∧ R x y := by
  induction h generalizing n with
  | nil => simp at hx
  | @cons a b l l' hab _ ih =>
    cases n with
    | zero =>
      obtain rfl : a = x := by simpa using hx
      exact ⟨b, rfl, hab⟩
    | succ n => exact ih (by simpa using hx)

/-- Both lists get related records. -/
theorem Picks.append (h : Picks R l ks l') (hm : List.Forall₂ R m m') :
    Picks R (l ++ m) (ks ++ List.range' l'.length m.length) (l' ++ m') where
  length_eq := by simp [h.length_eq]
  nodup := by
    -- the new positions are behind all of the old list
    refine List.nodup_append.mpr ⟨h.nodup, List.nodup_range', fun k hk k' hk' => ?_⟩
    have hlt := h.lt hk
    have hge := (List.mem_range'_1.mp hk').1
    omega
  get n x hx := by
    rcases Nat.lt_or_ge n l.length with hn | hn
    · rw [List.getElem?_append_left hn] at hx
      obtain ⟨k, y, hk, hy, hR⟩ := (h.grow (List.prefix_append l' m')).get n x hx
      exact ⟨k, y, List.getElem?_append_left (h.length_eq ▸ hn) ▸ hk, hy, hR⟩
    · rw [List.getElem?_append_right hn] at hx
      obtain ⟨y, hy, hR⟩ := getElem?_of_forall₂ hm hx
      have hlt := (List.getElem?_eq_some_iff.mp hx).1
      refine ⟨l'.length + (n - l.length), y, ?_, ?_, hR⟩
      · rw [List.getElem?_append_right (h.length_eq ▸ hn), h.length_eq]
        simp [hlt]
      · rw [List.getElem?_append_right (Nat.le_add_right _ _), Nat.add_sub_cancel_left]
        exact hy

/-- A record changes in both lists. -/
theorem Picks.set {l l' : List α} (h : Picks Eq l ks l') {n k : Nat} (hk : ks[n]? = some k)
    (x : α) : Picks Eq (l.set n x) ks (l'.set k x) where
  length_eq := by rw [List.length_set, h.length_eq]
  nodup := h.nodup
  get n' y hy := by
    by_cases hn : n' = n
    · subst hn
      obtain rfl : x = y := by
        rw [List.getElem?_set_self (by simpa using (List.getElem?_eq_some_iff.mp hy).1)] at hy
        exact Option.some.inj hy
      exact ⟨k, x, hk, List.getElem?_set_self (h.lt (List.mem_of_getElem? hk)), rfl⟩
    · rw [List.getElem?_set_ne (Ne.symm hn)] at hy
      obtain ⟨k', y', hk', hy', rfl⟩ := h.get n' y hy
      -- two picks never share a position
      have hne : k ≠ k' := fun heq => hn (h.inj hk' (heq ▸ hk))
      exact ⟨k', y, hk', by rw [List.getElem?_set_ne hne, hy'], rfl⟩

end EventLog.Lib
