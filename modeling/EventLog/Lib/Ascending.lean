import Mathlib.Data.List.Infix
import Mathlib.Order.Defs.Unbundled

/-!
# Ascending fronts

A file of entries that must ascend is read up to the first entry that does not follow the
one before it.  What such a reader keeps is the longest ascending prefix.

* `IsFront R l k`: `k` is the longest prefix of `l` that ascends along `R`.
* `isFront_stop`, `IsFront.cons`: the two branches of a loop that compares each element with
  the one before it.
* `IsFront.unique`, `IsFront.eq_self`: a list has one front, and it is the list itself when
  the list ascends.
* `ascending_append`: a front goes on with whatever ascends above its last element.
-/

namespace EventLog.Lib

variable {α : Type*} {R : α → α → Prop} {l k k' : List α} {a b : α}

/-- `k` is the longest prefix of `l` in which every element is below all later ones. -/
structure IsFront (R : α → α → Prop) (l k : List α) : Prop where
  isPrefix : k <+: l
  ascending : k.Pairwise R
  longest : ∀ k', k' <+: l → k'.Pairwise R → k' <+: k

theorem IsFront.self (h : l.Pairwise R) : IsFront R l l where
  isPrefix := List.prefix_rfl
  ascending := h
  longest := fun _ hk' _ => hk'

theorem IsFront.unique (h : IsFront R l k) (h' : IsFront R l k') : k = k' := by
  have hle := h'.longest k h.isPrefix h.ascending
  have hge := h.longest k' h'.isPrefix h'.ascending
  exact hle.eq_of_length_le hge.length_le

/-- Nothing of an ascending list is dropped. -/
theorem IsFront.eq_self (h : IsFront R l k) (hl : l.Pairwise R) : k = l :=
  h.unique (IsFront.self hl)

theorem IsFront.eq_take (h : IsFront R l k) : k = l.take k.length :=
  List.prefix_iff_eq_take.mp h.isPrefix

/-- The second element does not follow the first. -/
theorem isFront_stop (h : ¬ R a b) : IsFront R (a :: b :: l) [a] where
  isPrefix := ⟨b :: l, rfl⟩
  ascending := List.pairwise_singleton R a
  longest := by
    intro k' hk' hasc
    match k', hk', hasc with
    | [], _, _ => exact List.nil_prefix
    | [x], hk', _ =>
      obtain ⟨rfl, -⟩ := List.cons_prefix_cons.mp hk'
      exact List.prefix_rfl
    | x :: y :: k', hk', hasc =>
      -- a prefix of two elements starts with the pair that does not ascend
      obtain ⟨rfl, htail⟩ := List.cons_prefix_cons.mp hk'
      obtain ⟨rfl, -⟩ := List.cons_prefix_cons.mp htail
      exact absurd (List.rel_of_pairwise_cons hasc List.mem_cons_self) h

/-- The second element follows the first. -/
theorem IsFront.cons [IsTrans α R] (hab : R a b) (h : IsFront R (b :: l) (b :: k)) :
    IsFront R (a :: b :: l) (a :: b :: k) where
  isPrefix := List.cons_prefix_cons.mpr ⟨rfl, h.isPrefix⟩
  ascending := by
    refine List.pairwise_cons.mpr ⟨fun c hc => ?_, h.ascending⟩
    rcases List.mem_cons.mp hc with rfl | hc
    · exact hab
    · exact IsTrans.trans a b c hab (List.rel_of_pairwise_cons h.ascending hc)
  -- a longer ascending prefix would start with `a` too, so its rest is one of `b :: l`
  longest := by
    intro k' hk' hasc
    cases k' with
    | nil => exact List.nil_prefix
    | cons x k' =>
      obtain ⟨rfl, htail⟩ := List.cons_prefix_cons.mp hk'
      exact List.cons_prefix_cons.mpr ⟨rfl, h.longest k' htail hasc.tail⟩

/-- What ascends above the last element of an ascending list goes on with it. -/
theorem ascending_append [IsTrans α R] (hl : l.Pairwise R)
    (hk : (l.getLast?.toList ++ k).Pairwise R) : (l ++ k).Pairwise R := by
  rcases List.eq_nil_or_concat l with rfl | ⟨init, last, rfl⟩
  · exact hk
  · rw [List.concat_eq_append] at hl hk ⊢
    rw [List.getLast?_concat] at hk
    obtain ⟨habove, hk⟩ := List.pairwise_cons.mp hk
    refine List.pairwise_append.mpr ⟨hl, hk, fun a ha b hb => ?_⟩
    -- everything but the last of `l` is below it, and it is below all of `k`
    rcases List.mem_append.mp ha with ha | ha
    · have hlast := (List.pairwise_append.mp hl).2.2 a ha last List.mem_cons_self
      exact IsTrans.trans a last b hlast (habove b hb)
    · rw [List.mem_singleton.mp ha]
      exact habove b hb

end EventLog.Lib
