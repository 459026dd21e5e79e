import Mathlib.Data.List.GetD
import Mathlib.Data.Nat.Find

/-!
# Binary search

`sort.Search n f` returns the least index in `[0, n)` at which the monotone predicate
`f` holds, and `n` if there is none.
-/

namespace EventLog.Lib

/-- The loop of `sort.Search` on the interval `[i, j)`; an interval of length at most
    `fuel` is exhausted in `fuel` rounds. -/
def searchLoop (f : Nat → Bool) : (fuel i j : Nat) → Nat
  | 0, i, _ => i
  | fuel + 1, i, j =>
    if i < j then
      let h := (i + j) / 2
      if f h then searchLoop f fuel i h else searchLoop f fuel (h + 1) j
    else i

/-- `sort.Search`. -/
def sortSearch (n : Nat) (f : Nat → Bool) : Nat := searchLoop f n 0 n

/-- The loop finds the boundary `k` between the false and the true part. -/
theorem searchLoop_eq {f : Nat → Bool} {fuel i j k : Nat} (hfuel : j - i ≤ fuel)
    (hik : i ≤ k) (hkj : k ≤ j) (hlow : ∀ m, i ≤ m → m < k → f m = false)
    (hhigh : ∀ m, k ≤ m → m < j → f m = true) : searchLoop f fuel i j = k := by
  induction fuel generalizing i j with
  | zero =>
    rw [searchLoop]
    omega
  | succ fuel ih =>
    rw [searchLoop]
    by_cases hij : i < j
    · rw [if_pos hij]
      by_cases hmid : (i + j) / 2 < k
      · -- the middle lies in the false part
        rw [if_neg (by rw [hlow _ (by omega) hmid]; decide)]
        exact ih (by omega) (by omega) hkj (fun m hm hmk => hlow m (by omega) hmk) hhigh
      · rw [if_pos (hhigh _ (by omega) (by omega))]
        exact ih (by omega) hik (by omega) hlow (fun m hkm hm => hhigh m hkm (by omega))
    · rw [if_neg hij]
      omega

/-- **Specification of `sort.Search`** on a monotone predicate. -/
theorem sortSearch_eq {f : Nat → Bool} {n k : Nat} (hk : k ≤ n)
    (hlow : ∀ m, m < k → f m = false) (hhigh : ∀ m, k ≤ m → m < n → f m = true) :
    sortSearch n f = k :=
  searchLoop_eq (Nat.le_refl _) (Nat.zero_le k) hk (fun m _ hm => hlow m hm) hhigh

/-- Whatever the predicate is, the loop has seen it false right before its result. -/
theorem searchLoop_before {f : Nat → Bool} {fuel i j : Nat} (hi : i = 0 ∨ f (i - 1) = false) :
    searchLoop f fuel i j = 0 ∨ f (searchLoop f fuel i j - 1) = false := by
  induction fuel generalizing i j with
  | zero => exact hi
  | succ fuel ih =>
    rw [searchLoop]
    simp only
    split_ifs with hij hmid
    · exact ih hi
    · -- the left end moves behind an index at which the predicate is false
      exact ih (.inr (by rw [Nat.add_sub_cancel]; exact Bool.eq_false_iff.mpr hmid))
    · exact hi

/-! ## Ascending lists -/

/-- The search for the first entry above `x`, as the callers of `sort.Search` write it. -/
def searchAbove (l : List Nat) (x : Nat) : Nat := sortSearch l.length fun i => x < l.getD i 0

/-- The entry before the result is not above `x`, ascending or not. -/
theorem getD_searchAbove_le {l : List Nat} {x : Nat} (hpos : searchAbove l x ≠ 0) :
    l.getD (searchAbove l x - 1) 0 ≤ x := by
  have hbefore : searchAbove l x = 0 ∨ decide (x < l.getD (searchAbove l x - 1) 0) = false :=
    searchLoop_before (f := fun i => decide (x < l.getD i 0)) (.inl rfl)
  exact Nat.not_lt.mp (of_decide_eq_false (hbefore.resolve_left hpos))

private theorem above_of_le {l : List Nat} (hs : l.Pairwise (· < ·)) {x i j : Nat} (hij : i ≤ j)
    (hj : j < l.length) (hx : x < l.getD i 0) : x < l.getD j 0 := by
  rcases Nat.eq_or_lt_of_le hij with rfl | hlt
  · exact hx
  · have hi : i < l.length := by omega
    have hlt' := List.pairwise_iff_getElem.mp hs i j hi hj hlt
    rw [List.getD_eq_getElem _ _ hi] at hx
    rw [List.getD_eq_getElem _ _ hj]
    omega

/-- **Specification on an ascending list**: the entries before the result are at most
    `x`, those from it on are above. -/
theorem searchAbove_spec {l : List Nat} (hs : l.Pairwise (· < ·)) (x : Nat) :
    searchAbove l x ≤ l.length ∧ (∀ m, m < searchAbove l x → l.getD m 0 ≤ x) ∧
      ∀ m, searchAbove l x ≤ m → m < l.length → x < l.getD m 0 := by
  -- the boundary: the least index above `x`, or the length
  obtain ⟨k, hk, hlow, hhigh⟩ : ∃ k, k ≤ l.length ∧ (∀ m, m < k → l.getD m 0 ≤ x) ∧
      ∀ m, k ≤ m → m < l.length → x < l.getD m 0 := by
    by_cases hex : ∃ m, m < l.length ∧ x < l.getD m 0
    · refine ⟨Nat.find hex, Nat.le_of_lt (Nat.find_spec hex).1, fun m hm => ?_, fun m hm hlen => ?_⟩
      · have hnot := Nat.find_min hex hm
        have hlen : m < l.length := Nat.lt_trans hm (Nat.find_spec hex).1
        by_contra hgt
        exact hnot ⟨hlen, by omega⟩
      · exact above_of_le hs hm hlen (Nat.find_spec hex).2
    · refine ⟨l.length, Nat.le_refl _, fun m hm => ?_, fun m hm hlen => absurd hlen (by omega)⟩
      by_contra hgt
      exact hex ⟨m, hm, by omega⟩
  have heq : searchAbove l x = k :=
    sortSearch_eq hk (fun m hm => decide_eq_false (Nat.not_lt.mpr (hlow m hm)))
      (fun m hm hlen => decide_eq_true (hhigh m hm hlen))
  rw [heq]
  exact ⟨hk, hlow, hhigh⟩

/-- The search stops at once when every entry is above `x`. -/
theorem lt_of_searchAbove_eq_zero {l : List Nat} (hs : l.Pairwise (· < ·)) {x : Nat}
    (hzero : searchAbove l x = 0) : ∀ y ∈ l, x < y := by
  intro y hy
  obtain ⟨-, -, hhigh⟩ := searchAbove_spec hs x
  obtain ⟨i, hi, rfl⟩ := List.mem_iff_getElem.mp hy
  have habove := hhigh i (by omega) hi
  rwa [List.getD_eq_getElem _ _ hi] at habove

/-- The entry before the result is the greatest one at or below `x`. -/
theorem searchAbove_greatest {l : List Nat} (hs : l.Pairwise (· < ·)) {x : Nat}
    (hpos : searchAbove l x ≠ 0) :
    l.getD (searchAbove l x - 1) 0 ≤ x ∧ ∀ y ∈ l, y ≤ x → y ≤ l.getD (searchAbove l x - 1) 0 := by
  obtain ⟨hlen, hlow, hhigh⟩ := searchAbove_spec hs x
  refine ⟨getD_searchAbove_le hpos, fun y hy hyx => ?_⟩
  obtain ⟨i, hi, rfl⟩ := List.mem_iff_getElem.mp hy
  rcases Nat.lt_or_ge i (searchAbove l x) with hlt | hge
  · -- the entries before the result ascend to the last of them
    have hlast : searchAbove l x - 1 < l.length := by omega
    rw [List.getD_eq_getElem _ _ hlast]
    rcases Nat.eq_or_lt_of_le (Nat.le_sub_one_of_lt hlt) with heq | hlt'
    · exact Nat.le_of_eq (by simp only [heq])
    · exact Nat.le_of_lt (List.pairwise_iff_getElem.mp hs _ _ hi hlast hlt')
  · -- an entry from the result on is above `x`
    have habove := hhigh i hge hi
    rw [List.getD_eq_getElem _ _ hi] at habove
    omega

/-- The search in a suffix whose first entry is not above `x`. -/
theorem searchAbove_append {l₁ l₂ : List Nat} (hs : (l₁ ++ l₂).Pairwise (· < ·)) {x : Nat}
    (hpos : 0 < searchAbove l₂ x) :
    searchAbove (l₁ ++ l₂) x = l₁.length + searchAbove l₂ x := by
  obtain ⟨hle, hlow, hhigh⟩ := searchAbove_spec hs x
  obtain ⟨hle', hlow', hhigh'⟩ := searchAbove_spec (List.pairwise_append.mp hs).2.1 x
  rw [List.length_append] at hle hhigh
  have hget : ∀ i, (l₁ ++ l₂).getD (l₁.length + i) 0 = l₂.getD i 0 := fun i => by
    rw [List.getD_append_right _ _ _ _ (Nat.le_add_right _ _), Nat.add_sub_cancel_left]
  -- either strict inequality puts one entry on both sides of `x`
  refine Nat.le_antisymm (Nat.le_of_not_lt fun hlt => ?_) (Nat.le_of_not_lt fun hlt => ?_)
  · have h1 := hlow _ hlt
    have h2 := hhigh' _ (Nat.le_refl _) (by omega)
    rw [hget] at h1
    omega
  · have h1 := hhigh (l₁.length + (searchAbove l₂ x - 1)) (by omega) (by omega)
    have h2 := hlow' (searchAbove l₂ x - 1) (by omega)
    rw [hget] at h1
    omega

end EventLog.Lib
