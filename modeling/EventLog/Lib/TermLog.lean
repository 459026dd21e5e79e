import Mathlib.Data.List.Infix
import Mathlib.Data.Finset.Card
import Mathlib.Logic.Function.Basic

/-!
# Majorities and term-stamped logs

The mathematics behind leader-based log replication, over any entry type with a term.

* `IsMajority`: two majorities of one set share a member.
* `takeOver`: a follower that takes over more and more of one leader's log; the order in
  which it is told does not matter (`takeOver_absorb`, `takeOver_extend`).
* `Coherent L ℓ`: the log `ℓ` is made of pieces of leader logs.  `L t` is the log of
  the leader of term `t`; the entry of `ℓ` at index `i` with term `t` comes with
  everything below it from `L t`, and terms never decrease along `ℓ`.
* `Coherent.matching`: two coherent logs that agree on a term agree below it.
* `Coherent.carry`: a log at least as up to date as one that holds a prefix either
  holds that prefix too or ends in a term whose leader lacked it.
-/

namespace EventLog.Lib

/-! ## Majorities -/

section Majority

variable {ι : Type*} [DecidableEq ι]

/-- `Q` is a majority of `ids`. -/
def IsMajority (ids Q : Finset ι) : Prop := Q ⊆ ids ∧ ids.card / 2 + 1 ≤ Q.card

/-- Two majorities of one set share a member. -/
theorem IsMajority.inter {ids Q Q' : Finset ι} (h : IsMajority ids Q) (h' : IsMajority ids Q') :
    ∃ p, p ∈ Q ∧ p ∈ Q' := by
  have hcard : ids.card < Q.card + Q'.card := by
    have h1 := h.2
    have h2 := h'.2
    omega
  obtain ⟨p, hp⟩ := Finset.inter_nonempty_of_card_lt_card_add_card h.1 h'.1 hcard
  exact ⟨p, (Finset.mem_inter.mp hp).1, (Finset.mem_inter.mp hp).2⟩

end Majority

/-! ## Prefixes -/

section Prefixes

variable {α : Type*}

theorem take_succ_eq_append {l : List α} {i : ℕ} {a : α} (h : l[i]? = some a) :
    l.take (i + 1) = l.take i ++ [a] := by
  rw [List.take_add_one, h]
  rfl

theorem getElem?_mono {p l : List α} (h : p <+: l) {i : ℕ} {a : α}
    (hi : p[i]? = some a) : l[i]? = some a := by
  obtain ⟨t, rfl⟩ := h
  have hlt : i < p.length := (List.getElem?_eq_some_iff.mp hi).1
  rw [List.getElem?_append_left hlt]
  exact hi

/-- An entry of the longer list below the length of its prefix is in the prefix. -/
theorem getElem?_prefix_of_lt {p l : List α} (h : p <+: l) {i : ℕ} (hi : i < p.length) :
    p[i]? = l[i]? := by
  obtain ⟨t, rfl⟩ := h
  exact (List.getElem?_append_left hi).symm

theorem take_of_isPrefix {p l : List α} (h : p <+: l) {n : ℕ} (hn : n ≤ p.length) :
    l.take n <+: p := by
  refine List.prefix_of_prefix_length_le (List.take_prefix n l) h ?_
  rw [List.length_take]
  omega

/-- Extending a list by an entry outside `p` creates no new prefix `p`. -/
theorem prefix_of_prefix_concat {p l : List α} {a : α} (ha : a ∉ p) (h : p <+: l ++ [a]) :
    p <+: l := by
  rcases List.prefix_concat_iff.mp h with heq | hp
  · exact absurd (by rw [heq]; simp) ha
  · exact hp

/-! ## Taking over a prefix -/

variable [DecidableEq α]

/-- What is left of `l` when it takes over the first `n` entries of `M`: all of it if it
    starts with them, else just those entries. -/
def takeOver (M : List α) (n : ℕ) (l : List α) : List α :=
  if M.take n <+: l then l else M.take n

variable {M l : List α} {m n : ℕ}

theorem takeOver_of_isPrefix (h : M.take n <+: l) : takeOver M n l = l := if_pos h

theorem isPrefix_takeOver (M : List α) (n : ℕ) (l : List α) : M.take n <+: takeOver M n l := by
  unfold takeOver
  split_ifs with h
  · exact h
  · exact List.prefix_rfl

/-- What both lists start with survives. -/
theorem takeOver_keeps {p : List α} (hl : p <+: l) (hM : p <+: M) (n : ℕ) :
    p <+: takeOver M n l := by
  unfold takeOver
  split_ifs with h
  · exact hl
  · refine List.prefix_take_iff.mpr ⟨hM, ?_⟩
    by_contra hlen
    exact h ((take_of_isPrefix hM (by omega)).trans hl)

/-- What was taken over already changes nothing. -/
theorem takeOver_absorb (h : m ≤ n) : takeOver M m (takeOver M n l) = takeOver M n l :=
  takeOver_of_isPrefix ((List.take_prefix_take_left h).trans (isPrefix_takeOver M n l))

/-- Taking over more later is taking it over at once. -/
theorem takeOver_extend (h : m ≤ n) : takeOver M n (takeOver M m l) = takeOver M n l := by
  have hmn : M.take m <+: M.take n := List.take_prefix_take_left h
  by_cases hm : M.take m <+: l
  · rw [takeOver_of_isPrefix hm]
  · -- nothing of `l` was kept, and nothing is kept with more to take over either
    have hn : ¬M.take n <+: l := fun hn => hm (hmn.trans hn)
    have hl : takeOver M m l = M.take m := if_neg hm
    rw [hl, takeOver, takeOver, if_neg hn]
    split_ifs with hpre
    · exact (List.IsPrefix.eq_of_length hmn
        (Nat.le_antisymm hmn.length_le hpre.length_le))
    · rfl

end Prefixes

/-! ## Coherent logs -/

section Coherent

variable {α : Type*} {term : α → ℕ} {L L' : ℕ → List α} {ℓ ℓ₁ ℓ₂ : List α}

/-- A log made of pieces of the leader logs `L`, with non-decreasing terms. -/
structure Coherent (term : α → ℕ) (L : ℕ → List α) (ℓ : List α) : Prop where
  agree : ∀ (i : ℕ) (a : α), ℓ[i]? = some a → ℓ.take (i + 1) <+: L (term a)
  mono : ∀ (i j : ℕ) (a b : α), i ≤ j → ℓ[i]? = some a → ℓ[j]? = some b → term a ≤ term b

/-- **Log matching**: equal terms at an index force equal logs up to it. -/
theorem Coherent.matching (h₁ : Coherent term L ℓ₁) (h₂ : Coherent term L ℓ₂)
    {i : ℕ} {a b : α} (ha : ℓ₁[i]? = some a) (hb : ℓ₂[i]? = some b) (hab : term a = term b) :
    ℓ₁.take (i + 1) = ℓ₂.take (i + 1) := by
  have hp₁ := h₁.agree i a ha
  have hp₂ := h₂.agree i b hb
  rw [← hab] at hp₂
  have hl₁ : i < ℓ₁.length := (List.getElem?_eq_some_iff.mp ha).1
  have hl₂ : i < ℓ₂.length := (List.getElem?_eq_some_iff.mp hb).1
  -- both are prefixes of the log of one leader, and equally long
  have hlen : (ℓ₁.take (i + 1)).length = (ℓ₂.take (i + 1)).length := by
    simp only [List.length_take]
    omega
  exact (List.prefix_of_prefix_length_le hp₁ hp₂ hlen.le).eq_of_length hlen

/-- Growing leader logs keep every log coherent. -/
theorem Coherent.grow (h : Coherent term L ℓ) (hL : ∀ t, L t <+: L' t) :
    Coherent term L' ℓ where
  agree i a ha := (h.agree i a ha).trans (hL _)
  mono := h.mono

theorem Coherent.of_prefix (h : Coherent term L ℓ) (hp : ℓ₁ <+: ℓ) : Coherent term L ℓ₁ where
  agree i a ha := by
    have hlt : i < ℓ₁.length := (List.getElem?_eq_some_iff.mp ha).1
    have htake : ℓ₁.take (i + 1) = ℓ.take (i + 1) := by
      obtain ⟨t, rfl⟩ := hp
      rw [List.take_append_of_le_length (by omega)]
    rw [htake]
    exact h.agree i a (getElem?_mono hp ha)
  mono i j a b hij ha hb :=
    h.mono i j a b hij (getElem?_mono hp ha) (getElem?_mono hp hb)

/-- A whole coherent log is a prefix of the leader log of its last term. -/
theorem Coherent.prefix_last (h : Coherent term L ℓ) {a : α}
    (ha : ℓ[ℓ.length - 1]? = some a) : ℓ <+: L (term a) := by
  have hlt : ℓ.length - 1 < ℓ.length := (List.getElem?_eq_some_iff.mp ha).1
  have hp := h.agree _ a ha
  rwa [Nat.sub_add_cancel (by omega), List.take_length] at hp

/-- Every entry's term is at most the last one. -/
theorem Coherent.le_last (h : Coherent term L ℓ) {i : ℕ} {a b : α}
    (ha : ℓ[i]? = some a) (hb : ℓ[ℓ.length - 1]? = some b) : term a ≤ term b := by
  have hlt : i < ℓ.length := (List.getElem?_eq_some_iff.mp ha).1
  exact h.mono i (ℓ.length - 1) a b (by omega) ha hb

/-- The leader of `t` appends an entry of its own term. -/
theorem Coherent.snoc (h : Coherent term L ℓ) {a : α} (hL : L (term a) = ℓ ++ [a])
    (hle : ∀ b ∈ ℓ, term b ≤ term a) : Coherent term L (ℓ ++ [a]) where
  agree i b hb := by
    -- an entry is one of `ℓ` or the new last one
    rcases Nat.lt_or_ge i ℓ.length with hi | hi
    · rw [List.getElem?_append_left hi] at hb
      rw [List.take_append_of_le_length (by omega)]
      exact h.agree i b hb
    · have hlt := (List.getElem?_eq_some_iff.mp hb).1
      simp only [List.length_append, List.length_singleton] at hlt
      obtain rfl : i = ℓ.length := by omega
      simp only [List.getElem?_concat_length, Option.some.injEq] at hb
      subst hb
      rw [hL]
      exact List.take_prefix _ _
  mono i j b c hij hb hc := by
    have hc' : c = a ∨ j < ℓ.length := by
      rcases Nat.lt_or_ge j ℓ.length with hj | hj
      · exact Or.inr hj
      · have hlt := (List.getElem?_eq_some_iff.mp hc).1
        simp only [List.length_append, List.length_singleton] at hlt
        obtain rfl : j = ℓ.length := by omega
        simp only [List.getElem?_concat_length, Option.some.injEq] at hc
        exact Or.inl hc.symm
    rcases hc' with rfl | hj
    · have hmem := List.mem_of_getElem? hb
      rcases List.mem_append.mp hmem with hm | hm
      · exact hle b hm
      · rw [List.mem_singleton.mp hm]
    · rw [List.getElem?_append_left (by omega)] at hb hc
      exact h.mono i j b c hij hb hc

/-- **Election restriction**: a coherent log `ℓ₂` at least as up to date as `ℓ₁` holds
    every prefix `p` of `ℓ₁` that ends in a term `t` of its leader, or it ends in a
    later term whose leader does not hold `p`. -/
theorem Coherent.carry (h₁ : Coherent term L ℓ₁) (h₂ : Coherent term L ℓ₂)
    {p : List α} {e a b : α}
    (hp : p <+: ℓ₁) (hpL : p <+: L (term e)) (he : p[p.length - 1]? = some e)
    (ha : ℓ₁[ℓ₁.length - 1]? = some a) (hb : ℓ₂[ℓ₂.length - 1]? = some b)
    (hup : term a < term b ∨ (term a = term b ∧ ℓ₁.length ≤ ℓ₂.length)) :
    p <+: ℓ₂ ∨ (term e < term b ∧ ¬ p <+: L (term b)) := by
  have hlen : p.length ≤ ℓ₁.length := hp.length_le
  have hea : term e ≤ term a := h₁.le_last (getElem?_mono hp he) ha
  have hℓ₂ : ℓ₂ <+: L (term b) := h₂.prefix_last hb
  by_cases hlt : term e < term b
  · by_cases hpb : p <+: L (term b)
    · -- both are prefixes of one leader log, and `ℓ₂` reaches a later term
      left
      rcases Nat.le_total p.length ℓ₂.length with hle | hle
      · exact List.prefix_of_prefix_length_le hpb hℓ₂ hle
      · have hℓ₂p : ℓ₂ <+: p := List.prefix_of_prefix_length_le hℓ₂ hpb hle
        have hbp : ℓ₁[ℓ₂.length - 1]? = some b :=
          getElem?_mono (hℓ₂p.trans hp) hb
        have := h₁.mono (ℓ₂.length - 1) (p.length - 1) b e (by omega) hbp
          (getElem?_mono hp he)
        omega
    · exact Or.inr ⟨hlt, hpb⟩
  · -- the last terms coincide with that of `p`, so lengths decide
    left
    have hbe : term b = term e := by omega
    have hlen₂ : p.length ≤ ℓ₂.length := by omega
    rw [hbe] at hℓ₂
    exact List.prefix_of_prefix_length_le hpL hℓ₂ hlen₂

end Coherent

end EventLog.Lib
