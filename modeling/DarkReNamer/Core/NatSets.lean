import Mathlib.Data.List.Sort
import Mathlib.Tactic.Common
import Std.Data.ExtTreeSet

/-!
# Ordered sets of indices

The index sets of replay, recovery and scheduling are intervals at the points where
their order or size is read. An interval is listed as a range.
-/

namespace DarkReNamer

open Std

/-- The first index in order. -/
def firstIndex (s : ExtTreeSet ℕ) : Option ℕ := s.toList.head?

theorem firstIndex_mem {s : ExtTreeSet ℕ} {i : ℕ} (h : firstIndex s = some i) : i ∈ s :=
  ExtTreeSet.mem_toList.1 (List.mem_of_head? h)

/-- No index of the set is before the first one. -/
theorem firstIndex_le {s : ExtTreeSet ℕ} {i j : ℕ} (h : firstIndex s = some i) (hj : j ∈ s) :
    i ≤ j := by
  have hsorted : s.toList.Pairwise (· < ·) :=
    ExtTreeSet.ordered_toList.imp fun hab => Nat.compare_eq_lt.1 hab
  have hmem := ExtTreeSet.mem_toList.2 hj
  unfold firstIndex at h
  cases hlist : s.toList with
  | nil => simp [hlist] at h
  | cons k ks =>
      rw [hlist] at h hsorted hmem
      obtain rfl : k = i := by simpa using h
      rcases List.mem_cons.1 hmem with rfl | hmem
      · exact Nat.le_refl _
      · exact Nat.le_of_lt (List.rel_of_pairwise_cons hsorted hmem)

theorem firstIndex_eq_none {s : ExtTreeSet ℕ} (h : firstIndex s = none) : s = ∅ := by
  simpa [firstIndex] using h

theorem toList_eq_range' {s : ExtTreeSet ℕ} {j k : ℕ}
    (h : ∀ i, i ∈ s ↔ j ≤ i ∧ i < k) : s.toList = List.range' j (k - j) := by
  have hsorted : s.toList.Pairwise (· < ·) :=
    ExtTreeSet.ordered_toList.imp fun hab => Nat.compare_eq_lt.1 hab
  refine hsorted.eq_of_mem_iff List.pairwise_lt_range' fun i => ?_
  rw [ExtTreeSet.mem_toList, h, List.mem_range'_1]
  omega

theorem size_eq {s : ExtTreeSet ℕ} {j k : ℕ} (h : ∀ i, i ∈ s ↔ j ≤ i ∧ i < k) :
    s.size = k - j := by
  rw [← ExtTreeSet.length_toList, toList_eq_range' h, List.length_range']

theorem toList_eq_range {s : ExtTreeSet ℕ} {k : ℕ} (h : ∀ i, i ∈ s ↔ i < k) :
    s.toList = List.range k := by
  rw [toList_eq_range' (j := 0) (k := k) (by simpa using h), List.range_eq_range',
    Nat.sub_zero]

theorem filter_range_lt {j k : ℕ} (h : j ≤ k) {p : ℕ → Bool}
    (hp : ∀ i < k, p i = decide (i < j)) : (List.range k).filter p = List.range j := by
  rw [List.filter_congr (q := fun i => decide (i < j)) fun i hi => hp i (List.mem_range.1 hi)]
  induction k with
  | zero => simp [show j = 0 by omega]
  | succ k ih =>
      rw [List.range_succ, List.filter_append]
      by_cases hk : k < j
      · obtain rfl : j = k + 1 := by omega
        rw [List.range_succ, List.filter_eq_self.2, List.filter_eq_self.2]
        · simp
        · intro i hi
          have := List.mem_range.1 hi
          simp
          omega
      · rw [ih (by omega) fun i hi => hp i (by omega)]
        simp [hk]

theorem find?_reverse_range {j k : ℕ} (h : j ≤ k) {p : ℕ → Bool}
    (hp : ∀ i < k, p i = decide (i < j)) :
    (List.range k).reverse.find? p = if j = 0 then none else some (j - 1) := by
  induction k with
  | zero => simp [show j = 0 by omega]
  | succ k ih =>
      rw [List.range_succ, List.reverse_append, List.reverse_singleton,
        List.singleton_append, List.find?_cons, hp k (by omega)]
      by_cases hk : k < j
      · simp [show j = k + 1 by omega]
      · simpa [hk] using ih (by omega) fun i hi => hp i (by omega)

end DarkReNamer
