import Mathlib.Data.List.Basic
import Mathlib.Logic.Function.Basic

/-!
# Counted references

A counter for each resource, and clients in a list of which some hold a resource.  Taking
a reference adds a client and counts up; giving it back changes the client and counts
down.  `Counted` says that the counters are right, so that a counter at zero means that
nobody holds the resource.
-/

namespace EventLog.Lib

section References

variable {C R : Type*} [DecidableEq R] {holds : C → Bool} {resource : C → R}
  {counter : R → Nat} {clients : List C} {i : Nat} {c c' : C} {r : R}

/-- How many of the clients hold the resource. -/
def holders (holds : C → Bool) (resource : C → R) (clients : List C) (r : R) : Nat :=
  clients.countP fun c => holds c && resource c = r

/-- Every counter is the number of holders. -/
def Counted (holds : C → Bool) (resource : C → R) (counter : R → Nat) (clients : List C) : Prop :=
  ∀ r, counter r = holders holds resource clients r

theorem holders_append (clients : List C) (c : C) (r : R) :
    holders holds resource (clients ++ [c]) r =
      holders holds resource clients r + if holds c && resource c = r then 1 else 0 := by
  rw [holders, List.countP_append, List.countP_singleton, holders]

/-- How a count changes with one element. -/
theorem countP_set_add (p : C → Bool) (h : clients[i]? = some c) (c' : C) :
    (clients.set i c').countP p + (if p c then 1 else 0) =
      clients.countP p + if p c' then 1 else 0 := by
  obtain ⟨hi, rfl⟩ := List.getElem?_eq_some_iff.mp h
  rw [List.countP_set hi]
  -- whether the client that is replaced was counted
  by_cases hp : p clients[i] = true
  · have hpos : 0 < clients.countP p :=
      List.countP_pos_iff.mpr ⟨clients[i], List.getElem_mem hi, hp⟩
    simp only [hp, if_true]
    omega
  · simp only [hp]
    simp

/-- How the number of holders changes with one client. -/
theorem holders_set (holds : C → Bool) (resource : C → R) (h : clients[i]? = some c) (c' : C)
    (r : R) :
    holders holds resource (clients.set i c') r + (if holds c && resource c = r then 1 else 0) =
      holders holds resource clients r + if holds c' && resource c' = r then 1 else 0 :=
  countP_set_add (fun c => holds c && resource c = r) h c'

/-- A client that changes takes no new reference. -/
theorem holders_set_le (holds : C → Bool) (resource : C → R) (h : clients[i]? = some c) (c' : C)
    (hholds : holds c' = true → holds c = true) (hres : resource c' = resource c) (r : R) :
    holders holds resource (clients.set i c') r ≤ holders holds resource clients r := by
  have hcount := holders_set holds resource h c' r
  -- a client that now holds the resource held it before
  cases hc' : holds c' with
  | false =>
    simp only [hc', Bool.false_and, Bool.false_eq_true, if_false] at hcount
    omega
  | true =>
    rw [hc', hholds hc', hres] at hcount
    exact Nat.le_of_eq (Nat.add_right_cancel hcount)

theorem holders_pos (hc : c ∈ clients) (hholds : holds c = true) :
    0 < holders holds resource clients (resource c) :=
  List.countP_pos_iff.mpr ⟨c, hc, by simp [hholds]⟩

theorem Counted.pos (h : Counted holds resource counter clients) (hc : c ∈ clients)
    (hholds : holds c = true) : 0 < counter (resource c) := by
  rw [h]
  exact holders_pos hc hholds

/-- A new client takes a reference. -/
theorem Counted.acquire (h : Counted holds resource counter clients) (hholds : holds c = true) :
    Counted holds resource
      (Function.update counter (resource c) (counter (resource c) + 1)) (clients ++ [c]) := by
  intro r
  rw [holders_append, hholds, Bool.true_and]
  by_cases hr : r = resource c
  · rw [hr, Function.update_self, h, decide_eq_true rfl, if_pos rfl]
  · rw [Function.update_of_ne hr, h, decide_eq_false (Ne.symm hr)]
    rfl

/-- A client changes and holds what it held. -/
theorem Counted.keep (h : Counted holds resource counter clients) (hc : clients[i]? = some c)
    (hholds : holds c' = holds c) (hres : resource c' = resource c) :
    Counted holds resource counter (clients.set i c') := by
  intro r
  have hcount := holders_set holds resource hc c' r
  rw [hholds, hres] at hcount
  rw [h]
  exact (Nat.add_right_cancel hcount).symm

/-- A client gives its reference back. -/
theorem Counted.release (h : Counted holds resource counter clients) (hc : clients[i]? = some c)
    (hholds : holds c = true) (hholds' : holds c' = false) :
    Counted holds resource
      (Function.update counter (resource c) (counter (resource c) - 1)) (clients.set i c') := by
  intro r
  have hcount := holders_set holds resource hc c' r
  have hr := h r
  simp only [hholds, hholds', Bool.true_and, Bool.false_and, Bool.false_eq_true, if_false,
    decide_eq_true_eq] at hcount
  -- only the counter of the resource that is given back moves
  by_cases heq : resource c = r
  · rw [if_pos heq] at hcount
    rw [heq, Function.update_self]
    omega
  · rw [if_neg heq] at hcount
    rw [Function.update_of_ne (Ne.symm heq), hr]
    exact hcount.symm

end References

end EventLog.Lib
