import DarkReNamer.Slices.Stable
import Mathlib.Data.List.Nodup

/-!
# Bottom-up merge sort

A merge sort of positions: runs of one width are merged pair by pair, pass after pass with
double the width, until one run is left. Whatever the comparison says, the positions are only
permuted. When it is a total preorder of what stands at them, every run is in order, with equal
elements in the order of their positions, so that the sort is stable.
-/

namespace Slices

open Std

variable {α : Type} {le : α → α → Bool} {width : ℕ}

/-- Neighbouring runs of one width merged; the last ones may be shorter. -/
def mergePass (le : α → α → Bool) (width : ℕ) (l : List α) : List α :=
  if _h : l = [] ∨ width = 0 then l
  else
    List.merge (l.take width) ((l.drop width).take width) le ++
      mergePass le width ((l.drop width).drop width)
termination_by l.length
decreasing_by
  have hlength : l.length ≠ 0 := fun hnil => _h (.inl (List.length_eq_zero_iff.1 hnil))
  simp only [List.length_drop]
  omega

theorem mergePass_perm (le : α → α → Bool) (width : ℕ) (l : List α) :
    (mergePass le width l).Perm l := by
  fun_induction mergePass le width l with
  | case1 l h => exact .refl l
  | case2 l h ih =>
      have hsplit : l.take width ++ (l.drop width).take width ++ (l.drop width).drop width = l := by
        rw [List.append_assoc, List.take_append_drop, List.take_append_drop]
      have hmerge : (List.merge (l.take width) ((l.drop width).take width) le).Perm
          (l.take width ++ (l.drop width).take width) := List.merge_perm_append _
      have hperm := hmerge.append ih
      rwa [hsplit] at hperm

/-- Two runs in order of which the comparison decides make one run in order. -/
theorem pairwise_merge {r : α → α → Prop} (trans : ∀ a b c, r a b → r b c → r a c)
    {left right : List α} (hle : ∀ a ∈ left, ∀ b ∈ right, if le a b then r a b else r b a)
    (hleft : left.Pairwise r) (hright : right.Pairwise r) :
    (List.merge left right le).Pairwise r := by
  induction left generalizing right with
  | nil => simpa using hright
  | cons a left ihl =>
      induction right with
      | nil => simpa using hleft
      | cons b right ihr =>
          obtain ⟨ha, hleft'⟩ := List.pairwise_cons.1 hleft
          obtain ⟨hb, hright'⟩ := List.pairwise_cons.1 hright
          have hab := hle a (by simp) b (by simp)
          by_cases h : le a b = true
          · rw [if_pos h] at hab
            rw [List.cons_merge_cons_pos _ _ _ h]
            refine List.pairwise_cons.2 ⟨fun c hc => ?_,
              ihl (fun a' ha' => hle a' (by simp [ha'])) hleft' hright⟩
            rcases List.mem_merge.1 hc with hc | hc
            · exact ha c hc
            · rcases List.mem_cons.1 hc with rfl | hc
              · exact hab
              · exact trans a b c hab (hb c hc)
          · rw [if_neg h] at hab
            rw [List.cons_merge_cons_neg _ _ _ h]
            refine List.pairwise_cons.2 ⟨fun c hc => ?_, ihr (fun a' ha' b' hb' =>
              hle a' ha' b' (by simp [hb'])) hright'⟩
            rcases List.mem_merge.1 hc with hc | hc
            · rcases List.mem_cons.1 hc with rfl | hc
              · exact hab
              · exact trans b a c hab (ha c hc)
            · exact hb c hc

/-- Passes of doubling width until one run is left. -/
def mergePasses (le : α → α → Bool) (len width : ℕ) (l : List α) : List α :=
  if _h : width < len ∧ width ≠ 0 then mergePasses le len (width * 2) (mergePass le width l)
  else l
termination_by len - width

theorem mergePasses_perm (le : α → α → Bool) (len width : ℕ) (l : List α) :
    (mergePasses le len width l).Perm l := by
  fun_induction mergePasses le len width l with
  | case1 width l h ih => exact ih.trans (mergePass_perm le width l)
  | case2 width l h => exact .refl l

section Map

variable {β : Type} {le' : β → β → Bool} {f : α → β}

/-- The passes look at the elements through the comparison only. -/
theorem mergePass_map (h : ∀ a b, le a b = le' (f a) (f b)) (width : ℕ) (l : List α) :
    (mergePass le width l).map f = mergePass le' width (l.map f) := by
  fun_induction mergePass le width l with
  | case1 l hend =>
      rw [mergePass, dif_pos (by rwa [List.map_eq_nil_iff])]
  | case2 l hend ih =>
      rw [List.map_append, ih, List.map_merge fun a _ b _ => h a b]
      conv_rhs => rw [mergePass, dif_neg (by rwa [List.map_eq_nil_iff])]
      simp only [List.map_take, List.map_drop]

theorem mergePasses_map (h : ∀ a b, le a b = le' (f a) (f b)) (len width : ℕ) (l : List α) :
    (mergePasses le len width l).map f = mergePasses le' len width (l.map f) := by
  fun_induction mergePasses le len width l with
  | case1 width l hend ih =>
      rw [ih, mergePass_map h]
      conv_rhs => rw [mergePasses, dif_pos hend]
  | case2 width l hend => rw [mergePasses, dif_neg hend]

end Map

/-! ### Runs of positions -/

/-- The positions from `start` on, in order. -/
structure IsRun (r : ℕ → ℕ → Prop) (start : ℕ) (run : List ℕ) : Prop where
  perm : run.Perm (List.range' start run.length)
  sorted : run.Pairwise r

theorem IsRun.mem_iff {r : ℕ → ℕ → Prop} {start : ℕ} {run : List ℕ} (h : IsRun r start run)
    {i : ℕ} : i ∈ run ↔ start ≤ i ∧ i < start + run.length := by
  rw [h.perm.mem_iff, List.mem_range'_1]

/-- Runs of one width from `start` on; the last may be shorter. -/
def SortedRuns (r : ℕ → ℕ → Prop) (width start : ℕ) (l : List ℕ) : Prop :=
  if _h : l = [] ∨ width = 0 then l = []
  else IsRun r start (l.take width) ∧ SortedRuns r width (start + width) (l.drop width)
termination_by l.length
decreasing_by
  have hlength : l.length ≠ 0 := fun hnil => _h (.inl (List.length_eq_zero_iff.1 hnil))
  simp only [List.length_drop]
  omega

section Runs

variable {r : ℕ → ℕ → Prop} {leAt : ℕ → ℕ → Bool} {start n : ℕ} {l run rest : List ℕ}

theorem sortedRuns_nil (r : ℕ → ℕ → Prop) (width start : ℕ) : SortedRuns r width start [] := by
  rw [SortedRuns]
  simp

theorem SortedRuns.append (hwidth : 0 < width) (hrun : IsRun r start run)
    (hlength : run.length = width ∨ run.length ≤ width ∧ rest = [])
    (hrest : SortedRuns r width (start + width) rest) :
    SortedRuns r width start (run ++ rest) := by
  rcases hlength with hlength | ⟨hlength, rfl⟩
  · rw [SortedRuns, dif_neg]
    · rw [← hlength, List.take_left, List.drop_left, hlength]
      exact ⟨hrun, hrest⟩
    · rintro (hnil | hzero)
      · rw [(List.append_eq_nil_iff.1 hnil).1] at hlength
        exact hwidth.ne hlength
      · exact hwidth.ne' hzero
  · rw [List.append_nil]
    by_cases hnil : run = []
    · rw [hnil]
      exact sortedRuns_nil r width start
    · rw [SortedRuns, dif_neg (by simp [hnil, hwidth.ne']), List.take_of_length_le hlength,
        List.drop_of_length_le hlength]
      exact ⟨hrun, sortedRuns_nil r width _⟩

/-- Positions one by one. -/
theorem sortedRuns_one (r : ℕ → ℕ → Prop) (start count : ℕ) :
    SortedRuns r 1 start (List.range' start count) := by
  induction count generalizing start with
  | zero => exact sortedRuns_nil r 1 start
  | succ count ih =>
      rw [List.range'_succ, ← List.singleton_append]
      exact .append Nat.one_pos ⟨.refl _, List.pairwise_singleton r start⟩ (.inl rfl) (ih _)

/-- The first run. -/
theorem SortedRuns.take (h : SortedRuns r width start l) :
    IsRun r start (l.take width) := by
  rw [SortedRuns] at h
  split at h
  · subst h
    rw [List.take_nil]
    exact ⟨.refl _, .nil⟩
  · exact h.1

theorem SortedRuns.drop (h : SortedRuns r width start l) :
    SortedRuns r width (start + width) (l.drop width) := by
  rw [SortedRuns] at h
  split at h
  · subst h
    rw [List.drop_nil]
    exact sortedRuns_nil r width _
  · exact h.2

/-- Two neighbouring runs merged are a run. -/
theorem IsRun.merge (trans : ∀ a b c, r a b → r b c → r a c)
    (hle : ∀ i j, i < j → j < n → if leAt i j then r i j else r j i) {left right : List ℕ}
    (hleft : IsRun r start left) (hright : IsRun r (start + left.length) right)
    (hn : start + left.length + right.length ≤ n) :
    IsRun r start (List.merge left right leAt) where
  perm := by
    have hmerge : (List.merge left right leAt).Perm (left ++ right) := List.merge_perm_append _
    refine hmerge.trans ?_
    rw [List.length_merge, ← List.range'_append_1]
    exact hleft.perm.append hright.perm
  sorted := by
    refine pairwise_merge trans (fun a ha b hb => ?_) hleft.sorted hright.sorted
    have ha := hleft.mem_iff.1 ha
    have hb := hright.mem_iff.1 hb
    exact hle a b (by omega) (by omega)

/-- A pass doubles the width of the runs. -/
theorem SortedRuns.mergePass (trans : ∀ a b c, r a b → r b c → r a c)
    (hle : ∀ i j, i < j → j < n → if leAt i j then r i j else r j i) (hwidth : 0 < width)
    (h : SortedRuns r width start l) (hn : start + l.length ≤ n) :
    SortedRuns r (width * 2) start (Slices.mergePass leAt width l) := by
  fun_induction Slices.mergePass leAt width l generalizing start with
  | case1 l hstop =>
      obtain rfl : l = [] := hstop.resolve_right hwidth.ne'
      exact sortedRuns_nil r _ start
  | case2 l hgo ih =>
      have hleft := h.take
      have hdrop := h.drop
      have hright := hdrop.take
      have hlength : (List.merge (l.take width) ((l.drop width).take width) leAt).length =
          (l.take width).length + ((l.drop width).take width).length := List.length_merge ..
      simp only [List.length_take, List.length_drop] at hlength
      by_cases hfull : width ≤ l.length
      · have hright' : IsRun r (start + (l.take width).length) ((l.drop width).take width) := by
          rwa [List.length_take, Nat.min_eq_left hfull]
        have hmerge := hleft.merge trans hle hright' (by
          simp only [List.length_take, List.length_drop]
          omega)
        by_cases hmore : width * 2 ≤ l.length
        · have hstart : start + width * 2 = start + width + width := by omega
          refine .append (by omega) hmerge (.inl (by omega)) ?_
          rw [hstart]
          refine ih hdrop.drop ?_
          simp only [List.length_drop]
          omega
        · have hnil : (l.drop width).drop width = [] := by
            rw [List.drop_drop]
            exact List.drop_of_length_le (by omega)
          rw [hnil, Slices.mergePass, dif_pos (.inl rfl)]
          exact .append (by omega) hmerge (.inr ⟨by omega, rfl⟩) (sortedRuns_nil r _ _)
      · have hnil : l.drop width = [] := List.drop_of_length_le (by omega)
        have htake : l.take width = l := List.take_of_length_le (by omega)
        rw [hnil, List.take_nil, List.drop_nil, List.merge_right, htake, Slices.mergePass,
          dif_pos (.inl rfl)]
        rw [htake] at hleft
        exact .append (by omega) hleft (.inr ⟨by omega, rfl⟩) (sortedRuns_nil r _ _)

/-- At the end one run is left. -/
theorem SortedRuns.mergePasses (trans : ∀ a b c, r a b → r b c → r a c)
    (hle : ∀ i j, i < j → j < n → if leAt i j then r i j else r j i) (hwidth : 0 < width)
    (h : SortedRuns r width 0 l) (hn : l.length = n) :
    IsRun r 0 (Slices.mergePasses leAt n width l) := by
  fun_induction Slices.mergePasses leAt n width l with
  | case1 width l hgo ih =>
      refine ih (by omega) (h.mergePass trans hle hwidth (by omega)) ?_
      rw [(mergePass_perm leAt width l).length_eq, hn]
  | case2 width l hstop =>
      have hrun := h.take
      rwa [List.take_of_length_le (by omega)] at hrun

end Runs

end Slices
