import DarkReNamer.UiLayout.Prompt
import Mathlib.Algebra.Order.BigOperators.Group.List

/-!
# Heights of the prompt's sections

A round gives pixels away and never takes one back, so the heights and the remaining pixels have
the same sum throughout, and what every section has once it keeps.
-/

namespace DarkReNamer

namespace UiLayout

section Rounds

variable {heights desired : List ℤ} {remaining least : ℤ}

theorem sum_growRound (heights desired : List ℤ) (remaining : ℤ) :
    (growRound heights desired remaining).heights.sum +
      (growRound heights desired remaining).remaining = heights.sum + remaining := by
  fun_induction growRound heights desired remaining with
  | case1 => rfl
  | case2 height heights target desired remaining hremaining hlt rest ih =>
      have hrest : rest.heights.sum + rest.remaining = heights.sum + (remaining - 1) := ih
      rw [List.sum_cons, List.sum_cons]
      dsimp only
      omega
  | case3 height heights target desired remaining hremaining hlt rest ih =>
      have hrest : rest.heights.sum + rest.remaining = heights.sum + remaining := ih
      rw [List.sum_cons, List.sum_cons]
      dsimp only
      omega
  | case4 => rfl

theorem length_growRound (heights desired : List ℤ) (remaining : ℤ) :
    (growRound heights desired remaining).heights.length = heights.length := by
  fun_induction growRound heights desired remaining with
  | case1 => rfl
  | case2 height heights target desired remaining hremaining hlt rest ih =>
      exact congrArg Nat.succ ih
  | case3 height heights target desired remaining hremaining hlt rest ih =>
      exact congrArg Nat.succ ih
  | case4 => rfl

theorem le_of_mem_growRound (h : ∀ height ∈ heights, least ≤ height) :
    ∀ height ∈ (growRound heights desired remaining).heights, least ≤ height := by
  fun_induction growRound heights desired remaining with
  | case1 => exact h
  | case2 height heights target desired remaining hremaining hlt rest ih =>
      rw [List.forall_mem_cons] at h ⊢
      exact ⟨Int.le_trans h.1 (Int.le_of_lt (Int.lt_succ height)), ih h.2⟩
  | case3 height heights target desired remaining hremaining hlt rest ih =>
      rw [List.forall_mem_cons] at h ⊢
      exact ⟨h.1, ih h.2⟩
  | case4 => exact h

theorem sum_growSections_le (desired heights : List ℤ) (h : 0 ≤ remaining) :
    (growSections desired heights remaining).sum ≤ heights.sum + remaining := by
  fun_induction growSections desired heights remaining with
  | case1 heights remaining hremaining round hprogressed ih =>
      rw [← sum_growRound heights desired remaining]
      exact ih (growRound_remaining h).1
  | case2 heights remaining hremaining round hprogressed =>
      rw [← sum_growRound heights desired remaining]
      exact Int.le_add_of_nonneg_right (growRound_remaining h).1
  | case3 => exact Int.le_add_of_nonneg_right h

theorem length_growSections (desired heights : List ℤ) (remaining : ℤ) :
    (growSections desired heights remaining).length = heights.length := by
  fun_induction growSections desired heights remaining with
  | case1 heights remaining hremaining round hprogressed ih =>
      exact ih.trans (length_growRound heights desired remaining)
  | case2 heights remaining hremaining round hprogressed =>
      exact length_growRound heights desired remaining
  | case3 => rfl

theorem le_of_mem_growSections (h : ∀ height ∈ heights, least ≤ height) :
    ∀ height ∈ growSections desired heights remaining, least ≤ height := by
  fun_induction growSections desired heights remaining with
  | case1 heights remaining hremaining round hprogressed ih => exact ih (le_of_mem_growRound h)
  | case2 heights remaining hremaining round hprogressed => exact le_of_mem_growRound h
  | case3 => exact h

end Rounds

/-- The first pixels, given to as many sections as there are pixels. -/
theorem onePixelEach_zero (desired : List ℤ) {available : ℤ} (h : 0 ≤ available) :
    (onePixelEach (desired.map fun _ => 0) available).1.length = desired.length ∧
      0 ≤ (onePixelEach (desired.map fun _ => 0) available).2 ∧
      (onePixelEach (desired.map fun _ => 0) available).1.sum +
        (onePixelEach (desired.map fun _ => 0) available).2 = available ∧
      (∀ height ∈ (onePixelEach (desired.map fun _ => 0) available).1, 0 ≤ height) ∧
      ((desired.length : ℤ) ≤ available →
        ∀ height ∈ (onePixelEach (desired.map fun _ => 0) available).1, 1 ≤ height) := by
  induction desired generalizing available with
  | nil => simpa [onePixelEach] using h
  | cons target desired ih =>
      rw [List.map_cons, onePixelEach]
      by_cases hnone : available = 0
      · rw [if_pos hnone]
        refine ⟨by simp, h, by simp, by simp, fun hlength => ?_⟩
        rw [List.length_cons] at hlength
        omega
      · rw [if_neg hnone]
        obtain ⟨hlength, hremaining, hsum, hnonneg, hone⟩ := @ih (available - 1) (by omega)
        refine ⟨by simpa using hlength, hremaining, ?_, ?_, fun henough => ?_⟩
        · rw [List.sum_cons]
          dsimp only
          omega
        · exact List.forall_mem_cons.2 ⟨by decide, hnonneg⟩
        · rw [List.length_cons] at henough
          exact List.forall_mem_cons.2 ⟨le_rfl, hone (by omega)⟩

theorem desiredTotal_id (desired : List ℤ) : desiredTotal id desired = desired.sum :=
  (List.sum_eq_foldl).symm

theorem desiredTotal_eq {desired : List ℤ} (hnonneg : ∀ height ∈ desired, 0 ≤ height)
    (hsum : desired.sum ≤ i32Max) : desiredTotal clampI32 desired = desired.sum := by
  suffices h : ∀ total, 0 ≤ total → total + desired.sum ≤ i32Max →
      desired.foldl (saturatingAdd clampI32) total = total + desired.sum by
    rw [desiredTotal, h 0 le_rfl (by omega), Int.zero_add]
  clear hsum
  induction desired with
  | nil => exact fun total _ _ => (Int.add_zero total).symm
  | cons height desired ih =>
      intro total htotal hsum
      obtain ⟨hheight, hrest⟩ := List.forall_mem_cons.1 hnonneg
      have hrestSum := List.sum_nonneg hrest
      rw [List.sum_cons] at hsum ⊢
      rw [List.foldl_cons, saturatingAdd_eq_of_le htotal hheight (by omega),
        ih hrest _ (by omega) (by omega), Int.add_assoc]

section Fit

variable {desired : List ℤ} (available : ℤ)

theorem length_fitPromptSectionHeights (desired : List ℤ) :
    (fitPromptSectionHeights clampI32 desired available).length = desired.length := by
  rw [fitPromptSectionHeights]
  dsimp only
  split
  · rfl
  · rw [length_growSections, (onePixelEach_zero desired (le_max_right _ _)).1]

theorem fitPromptSectionHeights_nonneg (h : ∀ height ∈ desired, 0 ≤ height) :
    ∀ height ∈ fitPromptSectionHeights clampI32 desired available, 0 ≤ height := by
  rw [fitPromptSectionHeights]
  dsimp only
  split
  · exact h
  · exact le_of_mem_growSections (onePixelEach_zero desired (le_max_right _ _)).2.2.2.1

theorem sum_fitPromptSectionHeights_le
    (h : desiredTotal clampI32 desired = desiredTotal id desired) :
    (fitPromptSectionHeights clampI32 desired available).sum ≤ max available 0 := by
  rw [fitPromptSectionHeights]
  dsimp only
  split
  · rename_i hfits
    rwa [h, desiredTotal_id] at hfits
  · obtain ⟨-, hremaining, hsum, -⟩ := onePixelEach_zero desired (le_max_right available 0)
    exact (sum_growSections_le desired _ hremaining).trans_eq hsum

variable {available} in
/-- Where there is a pixel for every section, every section gets one. -/
theorem one_le_of_mem_fitPromptSectionHeights
    (hshort : available < desiredTotal clampI32 desired)
    (henough : (desired.length : ℤ) ≤ available) :
    ∀ height ∈ fitPromptSectionHeights clampI32 desired available, 1 ≤ height := by
  have havailable : max available 0 = available := max_eq_left (by omega)
  rw [fitPromptSectionHeights]
  simp only [havailable, if_neg (not_le.2 hshort)]
  exact le_of_mem_growSections
    ((onePixelEach_zero desired (by omega)).2.2.2.2 henough)

end Fit

end UiLayout

end DarkReNamer
