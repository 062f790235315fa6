import DarkReNamer.Slices.Stable
import Mathlib.Data.List.Nodup

/-!
# Numbered elements

An unstable sort orders equal elements as it likes. When every element carries its position and
the comparator falls back on it, no two are equal, and the result is determined: with the later
of two equal elements in front, it is what a stable sort makes of the reversed list.
-/

namespace Slices

open Std

variable {α β : Type}

/-- The elements with their positions, counted from `n`. -/
def numbered : ℕ → List α → List (ℕ × α)
  | _, [] => []
  | n, a :: l => (n, a) :: numbered (n + 1) l

theorem map_snd_numbered (n : ℕ) (l : List α) : (numbered n l).map (·.2) = l := by
  induction l generalizing n with
  | nil => rfl
  | cons a l ih => rw [numbered, List.map_cons, ih]

theorem le_of_mem_numbered {n : ℕ} {l : List α} {a : ℕ × α} (h : a ∈ numbered n l) :
    n ≤ a.1 := by
  induction l generalizing n with
  | nil => cases h
  | cons b l ih =>
      rcases List.mem_cons.1 h with rfl | h
      · exact Nat.le_refl n
      · exact Nat.le_of_succ_le (ih h)

theorem numbered_pairwise (n : ℕ) (l : List α) :
    (numbered n l).Pairwise fun a b => a.1 < b.1 := by
  induction l generalizing n with
  | nil => exact .nil
  | cons a l ih => exact .cons (fun b hb => le_of_mem_numbered hb) (ih (n + 1))

/-- By element; of two equal ones the later goes first. -/
def compareLaterFirst (cmp : α → α → Ordering) (left right : ℕ × α) : Ordering :=
  (cmp left.2 right.2).then (compare right.1 left.1)

section Ties

variable {cmp : α → α → Ordering} [TransCmp cmp]

omit [TransCmp cmp] in
theorem compareLaterFirst_isLE {a b : ℕ × α} :
    (compareLaterFirst cmp a b).isLE ↔
      (cmp a.2 b.2).isLE ∧ (cmp a.2 b.2 = .eq → b.1 ≤ a.1) := by
  unfold compareLaterFirst
  cases h : cmp a.2 b.2 with
  | lt => simp
  | eq => simp [Nat.isLE_compare]
  | gt => simp

instance : TransCmp (compareLaterFirst cmp) where
  eq_swap {a b} := by
    simp only [compareLaterFirst]
    rw [Ordering.swap_then, ← OrientedCmp.eq_swap (a := a.2), ← Nat.compare_swap]
  isLE_trans {a b c} hab hbc := by
    rw [compareLaterFirst_isLE] at hab hbc ⊢
    refine ⟨TransCmp.isLE_trans hab.1 hbc.1, fun hac => ?_⟩
    have hba : (cmp b.2 a.2).isLE := by
      rw [TransCmp.congr_right hac]
      exact hbc.1
    have heq := OrientedCmp.isLE_antisymm hab.1 hba
    rw [TransCmp.congr_left heq] at hac
    exact Nat.le_trans (hbc.2 hac) (hab.2 heq)

/-- A stable sort of the reversed list puts the later of two equal elements first. -/
theorem mergeSort_reverse_numbered (n : ℕ) (l : List α) :
    Ascending (compareLaterFirst cmp)
      ((numbered n l).reverse.mergeSort (atMost fun a b => cmp a.2 b.2)) := by
  have := transCmp_on cmp (Prod.snd : ℕ × α → α)
  have hsorted : Ascending (fun a b : ℕ × α => cmp a.2 b.2)
      ((numbered n l).reverse.mergeSort (atMost fun a b => cmp a.2 b.2)) :=
    ascending_mergeSort _
  refine List.pairwise_iff_forall_sublist.2 fun {a b} hsub => ?_
  have hle : (cmp a.2 b.2).isLE := List.pairwise_iff_forall_sublist.1 hsorted hsub
  refine compareLaterFirst_isLE.2 ⟨hle, fun heq => ?_⟩
  -- Equal elements stand in the sorted list as they stand in the one that was sorted.
  have hstable := fun r : ℕ × α => @filter_mergeSort _ (fun a b : ℕ × α => cmp a.2 b.2) _
    (numbered n l).reverse r
  have hfilter := hsub.filter fun r => cmp r.2 b.2 == .eq
  rw [hstable, List.filter_cons_of_pos (by simp [heq]),
    List.filter_cons_of_pos (by simp [ReflCmp.compare_self])] at hfilter
  have hreverse := List.reverse_sublist.2 (hfilter.trans List.filter_sublist)
  rw [List.reverse_reverse] at hreverse
  exact Nat.le_of_lt (List.pairwise_iff_forall_sublist.1 (numbered_pairwise n l) hreverse)

/-- Sorting with the positions is sorting the reversed list stably. -/
theorem Algorithms.sortUnstableBy_numbered (alg : Algorithms) (n : ℕ) (l : List α) :
    (alg.sortUnstableBy (compareLaterFirst cmp) (numbered n l)).map (·.2) =
      l.reverse.mergeSort (atMost cmp) := by
  have hperm := alg.sortUnstableBy_perm (compareLaterFirst cmp) (numbered n l)
  have hmerge := List.mergeSort_perm (numbered n l).reverse (atMost fun a b => cmp a.2 b.2)
  have hmem {a : ℕ × α}
      (ha : a ∈ (numbered n l).reverse.mergeSort (atMost fun a b => cmp a.2 b.2)) :
      a ∈ numbered n l := List.mem_reverse.1 (hmerge.mem_iff.1 ha)
  have hinjective : ∀ a ∈ numbered n l, ∀ b ∈ numbered n l, a.1 = b.1 → a = b :=
    List.inj_on_of_nodup_map
      ((List.pairwise_map.2 (numbered_pairwise n l)).imp fun hlt => Nat.ne_of_lt hlt)
  have heq : alg.sortUnstableBy (compareLaterFirst cmp) (numbered n l) =
      (numbered n l).reverse.mergeSort (atMost fun a b => cmp a.2 b.2) := by
    refine List.Perm.eq_of_pairwise ?_ (alg.sortUnstableBy_ascending _ _)
      (mergeSort_reverse_numbered n l)
      (hperm.trans ((List.reverse_perm _).symm.trans hmerge.symm))
    intro a b ha hb hab hba
    have hab := compareLaterFirst_isLE.1 hab
    have hba := compareLaterFirst_isLE.1 hba
    refine hinjective a (hperm.mem_iff.1 ha) b (hmem hb) (Nat.le_antisymm ?_ ?_)
    · exact hba.2 (OrientedCmp.isLE_antisymm hba.1 hab.1)
    · exact hab.2 (OrientedCmp.isLE_antisymm hab.1 hba.1)
  have hmap := List.map_mergeSort (r := atMost fun a b : ℕ × α => cmp a.2 b.2)
    (s := atMost cmp) (f := fun a => a.2) (l := (numbered n l).reverse) fun _ _ _ _ => rfl
  rw [heq, hmap, List.map_reverse, map_snd_numbered]

end Ties

end Slices
