import Mathlib.Data.List.Basic
import Mathlib.Algebra.GroupWithZero.Nat
import Mathlib.Algebra.Order.Group.Nat

/-!
# Marks at every n-th element, counted anew in each session

Elements are numbered through; they come in sessions, and within a session every `n`-th
element is marked.  The count starts again with each session, so the distance to the last
mark can grow over sessions that are too short to reach one.

* `near_iff_fits`: all elements lie within `n` of the mark before them exactly when the
  lengths of the sessions fit: what is left of the sessions before and what a session adds
  before its first mark are at most `n` together.
-/

namespace EventLog.Lib

variable {n start k b f o : Nat} {ks prev more : List Nat}

/-! ## Marks -/

/-- The marks of a session of `k` elements that begins with number `start`. -/
def marks (n start k : Nat) : List Nat :=
  ((List.range k).filter fun i => (i + 1) % n = 0).map (start + ·)

theorem mem_marks : o ∈ marks n start k ↔ ∃ i < k, (i + 1) % n = 0 ∧ start + i = o := by
  simp [marks, and_assoc]

@[simp] theorem marks_zero (n start : Nat) : marks n start 0 = [] := rfl

theorem marks_succ_of_mod (h : (k + 1) % n = 0) :
    marks n start (k + 1) = marks n start k ++ [start + k] := by
  simp [marks, List.range_succ, List.filter_append, h]

theorem marks_succ_of_not_mod (h : (k + 1) % n ≠ 0) :
    marks n start (k + 1) = marks n start k := by
  simp [marks, List.range_succ, List.filter_append, h]

/-- A session that is too short for a mark. -/
theorem marks_of_lt (h : k < n) : marks n start k = [] := by
  refine List.eq_nil_iff_forall_not_mem.mpr fun o ho => ?_
  obtain ⟨i, hi, hmod, -⟩ := mem_marks.mp ho
  rw [Nat.mod_eq_of_lt (by omega)] at hmod
  omega

/-- The marks of several sessions. -/
def allMarks (n : Nat) : Nat → List Nat → List Nat
  | _, [] => []
  | start, k :: ks => marks n start k ++ allMarks n (start + k) ks

theorem allMarks_append (n start : Nat) (ks ls : List Nat) :
    allMarks n start (ks ++ ls) = allMarks n start ks ++ allMarks n (start + ks.sum) ls := by
  induction ks generalizing start with
  | nil => rfl
  | cons k ks ih =>
    rw [List.cons_append, allMarks, allMarks, ih, List.append_assoc, List.sum_cons, Nat.add_assoc]

theorem allMarks_concat (n start : Nat) (ks : List Nat) (k : Nat) :
    allMarks n start (ks ++ [k]) = allMarks n start ks ++ marks n (start + ks.sum) k := by
  rw [allMarks_append, allMarks, allMarks, List.append_nil]

theorem le_of_mem_allMarks (h : o ∈ allMarks n start ks) : start ≤ o := by
  induction ks generalizing start with
  | nil => cases h
  | cons k ks ih =>
    rcases List.mem_append.mp h with h | h
    · obtain ⟨i, -, -, rfl⟩ := mem_marks.mp h
      exact Nat.le_add_right start i
    · exact Nat.le_trans (Nat.le_add_right start k) (ih h)

/-! ## Distance from the last mark -/

/-- Element `o` is less than `n` behind a mark, or among the first `n` before all marks. -/
def Near (n : Nat) (ms : List Nat) (o : Nat) : Prop :=
  (∃ f ∈ ms, f ≤ o ∧ o < f + n) ∨ ((∀ f ∈ ms, o < f) ∧ o < n)

/-- The last mark, or 0 when there is none. -/
def IsLast (f : Nat) (ms : List Nat) : Prop :=
  (f ∈ ms ∨ ms = [] ∧ f = 0) ∧ ∀ x ∈ ms, x ≤ f

/-- Only the last mark before an element counts. -/
theorem near_iff_of_isLast (hlast : IsLast f prev) (hle : f ≤ o) (hmore : ∀ x ∈ more, o < x) :
    Near n (prev ++ more) o ↔ o < f + n := by
  constructor
  · rintro (⟨x, hx, hxo, hlt⟩ | ⟨hall, hlt⟩)
    · -- a mark that is near is at `f` or before it, since the new ones are behind `o`
      rcases List.mem_append.mp hx with hx | hx
      · have := hlast.2 x hx
        omega
      · have := hmore x hx
        omega
    · omega
  · intro hlt
    rcases hlast.1 with hf | ⟨rfl, rfl⟩
    · exact Or.inl ⟨f, List.mem_append_left _ hf, hle, hlt⟩
    · exact Or.inr ⟨by simpa using hmore, by omega⟩

/-- The `n`-th element of a session and those behind it are near a mark of their own. -/
theorem near_of_marks (hn : 1 ≤ n) {i : Nat} (hi : i < k) (hni : n ≤ i + 1) :
    Near n (prev ++ (marks n start k ++ more)) (start + i) := by
  have hdiv := Nat.div_add_mod (i + 1) n
  have hrest := Nat.mod_lt (i + 1) hn
  have hpos : n ≤ n * ((i + 1) / n) := Nat.le_mul_of_pos_right n (Nat.div_pos hni hn)
  -- the last multiple of `n` at or before the element
  refine Or.inl ⟨start + (n * ((i + 1) / n) - 1), ?_, by omega, by omega⟩
  refine List.mem_append_right _ (List.mem_append_left _ (mem_marks.mpr ⟨_, by omega, ?_, rfl⟩))
  rw [Nat.sub_add_cancel (by omega)]
  exact Nat.mul_mod_right n _

/-! ## Sessions that fit -/

/-- From a distance of `b` behind the last mark, each session reaches its first mark in
    time: at most `n - 1` of its elements come before it. -/
def Fits (n : Nat) : Nat → List Nat → Prop
  | _, [] => True
  | b, k :: ks =>
    b + min k (n - 1) ≤ n ∧ Fits n (if n ≤ k then k % n + 1 else b + k) ks

instance Fits.decidable (n : Nat) : ∀ b ks, Decidable (Fits n b ks)
  | _, [] => inferInstanceAs (Decidable True)
  | b, k :: ks =>
    have := Fits.decidable n (if n ≤ k then k % n + 1 else b + k) ks
    inferInstanceAs (Decidable (b + min k (n - 1) ≤ n ∧ _))

/-- **One session**: its elements are near exactly when those before its first mark are. -/
theorem near_session_iff (hn : 1 ≤ n) (hlast : IsLast f prev) (hf : f + b = start) (hb : b ≤ n)
    (hmore : ∀ x ∈ more, start + k ≤ x) :
    (∀ i < k, Near n (prev ++ (marks n start k ++ more)) (start + i)) ↔ b + min k (n - 1) ≤ n := by
  -- before the first mark of the session the last one of the others counts
  have hfirst : ∀ i < k, i + 1 < n →
      (Near n (prev ++ (marks n start k ++ more)) (start + i) ↔ b + i < n) := fun i hi hin => by
    rw [near_iff_of_isLast hlast (by omega), ← hf]
    · omega
    · intro x hx
      rcases List.mem_append.mp hx with hx | hx
      · obtain ⟨j, -, hmod, rfl⟩ := mem_marks.mp hx
        have hle : n ≤ j + 1 := Nat.le_of_dvd (Nat.succ_pos j) (Nat.dvd_of_mod_eq_zero hmod)
        omega
      · have := hmore x hx
        omega
  constructor
  · -- the worst offset is the last one before the first mark
    intro hall
    by_cases hzero : min k (n - 1) = 0
    · omega
    · have hlt := (hfirst (min k (n - 1) - 1) (by omega) (by omega)).mp (hall _ (by omega))
      omega
  · intro hle i hi
    by_cases hin : i + 1 < n
    · exact (hfirst i hi hin).mpr (by omega)
    · exact near_of_marks hn hi (by omega)

/-- The last mark after a session, and the distance from it. -/
theorem isLast_session (hn : 1 ≤ n) (hlast : IsLast f prev) (hf : f + b = start) :
    ∃ f', IsLast f' (prev ++ marks n start k) ∧
      f' + (if n ≤ k then k % n + 1 else b + k) = start + k := by
  by_cases hk : n ≤ k
  · -- the last mark of the session is at the last multiple of `n` in it
    have hdiv := Nat.div_add_mod k n
    have hpos : n ≤ n * (k / n) := Nat.le_mul_of_pos_right n (Nat.div_pos hk hn)
    refine ⟨start + (n * (k / n) - 1), ⟨Or.inl (List.mem_append_right _ (mem_marks.mpr
      ⟨_, by omega, ?_, rfl⟩)), fun x hx => ?_⟩, by rw [if_pos hk]; omega⟩
    · rw [Nat.sub_add_cancel (by omega)]
      exact Nat.mul_mod_right n _
    · rcases List.mem_append.mp hx with hx | hx
      · have := hlast.2 x hx
        omega
      · -- a mark is at a multiple of `n`, so at the last one or before it
        obtain ⟨i, hi, hmod, rfl⟩ := mem_marks.mp hx
        obtain ⟨q, hq⟩ := Nat.dvd_of_mod_eq_zero hmod
        have hqk : q ≤ k / n := (Nat.le_div_iff_mul_le hn).mpr (by rw [Nat.mul_comm]; omega)
        have := Nat.mul_le_mul_left n hqk
        omega
  · -- the session is too short for a mark of its own
    rw [marks_of_lt (Nat.lt_of_not_le hk), List.append_nil, if_neg hk]
    exact ⟨f, hlast, by omega⟩

/-- **Run lemma**: the sessions one after the other. -/
theorem near_iff_fits_from (hn : 1 ≤ n) (hlast : IsLast f prev) (hf : f + b = start)
    (hb : b ≤ n) :
    (∀ o, start ≤ o → o < start + ks.sum → Near n (prev ++ allMarks n start ks) o) ↔
      Fits n b ks := by
  -- on the sessions: the first one decides how far back the last mark is for the rest
  induction ks generalizing prev f b start with
  | nil =>
    refine iff_of_true (fun o hle hlt => ?_) trivial
    rw [List.sum_nil] at hlt
    omega
  | cons k ks ih =>
    have hsession : (∀ i < k, Near n (prev ++ (marks n start k ++ allMarks n (start + k) ks))
        (start + i)) ↔ b + min k (n - 1) ≤ n :=
      near_session_iff hn hlast hf hb fun x hx => le_of_mem_allMarks hx
    obtain ⟨f', hlast', hf'⟩ := isLast_session (k := k) hn hlast hf
    rw [Fits, ← hsession]
    -- what the first session leaves is again at most `n`
    have hrest : b + min k (n - 1) ≤ n → (if n ≤ k then k % n + 1 else b + k) ≤ n := fun hle => by
      have := Nat.mod_lt k hn
      split <;> omega
    rw [allMarks]
    constructor
    · intro hall
      have hfirst := fun i (hi : i < k) =>
        hall (start + i) (by omega) (by rw [List.sum_cons]; omega)
      refine ⟨hfirst, (ih hlast' hf' (hrest (hsession.mp hfirst))).mp fun o hle hlt => ?_⟩
      rw [List.append_assoc]
      exact hall o (by omega) (by rw [List.sum_cons]; omega)
    · rintro ⟨hfirst, hfits⟩ o hle hlt
      rw [List.sum_cons] at hlt
      by_cases ho : o < start + k
      · obtain ⟨i, rfl⟩ := Nat.exists_eq_add_of_le hle
        exact hfirst i (by omega)
      · have h := (ih hlast' hf' (hrest (hsession.mp hfirst))).mpr hfits o (by omega) (by omega)
        rwa [List.append_assoc] at h

/-- **All elements are near a mark exactly when the sessions fit.** -/
theorem near_iff_fits (hn : 1 ≤ n) :
    (∀ o < ks.sum, Near n (allMarks n 0 ks) o) ↔ Fits n 0 ks := by
  have hlast : IsLast 0 [] := ⟨Or.inr ⟨rfl, rfl⟩, by simp⟩
  rw [← near_iff_fits_from hn hlast rfl (Nat.zero_le n)]
  simp

end EventLog.Lib
