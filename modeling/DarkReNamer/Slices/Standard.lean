import Mathlib.Data.List.TakeWhile
import Mathlib.Tactic.Common

/-!
# Sorting and searching slices

What the standard library documents of its slice algorithms, and no more. A sort permutes its
slice whatever the comparator is; only for a total preorder is the result in order. A binary
search may stop at any of several equal elements. An unstable sort and a search that finds
something are therefore not functions of their documentation, and `Algorithms` is one choice
of them, with the documented facts as its fields.
-/

namespace Slices

open Std

variable {α : Type}

/-- No element compares above a later one. -/
def Ascending (cmp : α → α → Ordering) (l : List α) : Prop :=
  l.Pairwise fun a b => (cmp a b).isLE

/-- The elements that `probe` places before, at and after the one searched for stand in this
order. -/
def SearchOrdered (probe : α → Ordering) (l : List α) : Prop :=
  l.Pairwise fun a b => (probe b = .lt → probe a = .lt) ∧ (probe a = .gt → probe b = .gt)

/-- The elements that satisfy `pred` stand in front of the others. -/
def Partitioned (pred : α → Bool) (l : List α) : Prop :=
  l.Pairwise fun a b => pred b = true → pred a = true

structure Algorithms where
  sortBy : {α : Type} → (α → α → Ordering) → List α → List α
  sortBy_perm : ∀ {α : Type} (cmp : α → α → Ordering) (l : List α), (sortBy cmp l).Perm l
  sortBy_ascending : ∀ {α : Type} (cmp : α → α → Ordering) [TransCmp cmp] (l : List α),
    Ascending cmp (sortBy cmp l)
  sortBy_stable : ∀ {α : Type} (cmp : α → α → Ordering) [TransCmp cmp] (l : List α) (key : α),
    (sortBy cmp l).filter (fun a => cmp a key == .eq) = l.filter fun a => cmp a key == .eq
  sortUnstableBy : {α : Type} → (α → α → Ordering) → List α → List α
  sortUnstableBy_perm : ∀ {α : Type} (cmp : α → α → Ordering) (l : List α),
    (sortUnstableBy cmp l).Perm l
  sortUnstableBy_ascending : ∀ {α : Type} (cmp : α → α → Ordering) [TransCmp cmp] (l : List α),
    Ascending cmp (sortUnstableBy cmp l)
  /-- `Ok` with the position of a match, or `Err` with where one could be inserted. -/
  binarySearchBy : {α : Type} → (α → Ordering) → List α → Except ℕ ℕ
  binarySearchBy_ok : ∀ {α : Type} (probe : α → Ordering) (l : List α) (i : ℕ),
    SearchOrdered probe l → binarySearchBy probe l = .ok i → ∃ a, l[i]? = some a ∧ probe a = .eq
  binarySearchBy_error : ∀ {α : Type} (probe : α → Ordering) (l : List α) (i : ℕ),
    SearchOrdered probe l → binarySearchBy probe l = .error i →
      i = (l.takeWhile fun a => probe a == .lt).length ∧ ∀ a ∈ l, probe a ≠ .eq
  partitionPoint : {α : Type} → (α → Bool) → List α → ℕ
  partitionPoint_eq : ∀ {α : Type} (pred : α → Bool) (l : List α), Partitioned pred l →
    partitionPoint pred l = (l.takeWhile pred).length

/-! ### Order -/

theorem take_length_takeWhile (pred : α → Bool) (l : List α) :
    l.take (l.takeWhile pred).length = l.takeWhile pred := by
  have hsplit := List.takeWhile_append_dropWhile (p := pred) (l := l)
  exact (congrArg (List.take _) hsplit.symm).trans List.take_left

theorem drop_length_takeWhile (pred : α → Bool) (l : List α) :
    l.drop (l.takeWhile pred).length = l.dropWhile pred := by
  have hsplit := List.takeWhile_append_dropWhile (p := pred) (l := l)
  exact (congrArg (List.drop _) hsplit.symm).trans List.drop_left

/-- Behind the first element that does not satisfy `pred` none does. -/
theorem Partitioned.not_of_mem_dropWhile {pred : α → Bool} {l : List α}
    (h : Partitioned pred l) {b : α} (hb : b ∈ l.dropWhile pred) : ¬pred b = true := by
  induction l with
  | nil => simp at hb
  | cons a l ih =>
      obtain ⟨ha, hl⟩ := List.pairwise_cons.1 h
      cases hpred : pred a with
      | true =>
          rw [List.dropWhile_cons, if_pos hpred] at hb
          exact ih hl hb
      | false =>
          rw [List.dropWhile_cons, if_neg (by simp [hpred])] at hb
          rcases List.mem_cons.1 hb with rfl | hb
          · simp [hpred]
          · intro hpredb
            rw [ha b hb hpredb] at hpred
            cases hpred

section Order

variable {cmp : α → α → Ordering}

theorem ascending_append {l l' : List α} :
    Ascending cmp (l ++ l') ↔
      Ascending cmp l ∧ Ascending cmp l' ∧ ∀ a ∈ l, ∀ b ∈ l', (cmp a b).isLE :=
  List.pairwise_append

/-- An ascending list is ordered for a search for any key. -/
theorem Ascending.searchOrdered [TransCmp cmp] {l : List α} (h : Ascending cmp l) (key : α) :
    SearchOrdered (fun a => cmp a key) l := by
  refine h.imp fun {a b} hab => ⟨fun hb => TransCmp.lt_of_isLE_of_lt hab hb, fun ha => ?_⟩
  exact TransCmp.gt_of_isGE_of_gt (OrientedCmp.isGE_of_isLE hab) ha

/-- What is below a key stands in front of what is not. -/
theorem Ascending.partitioned [TransCmp cmp] {l : List α} (h : Ascending cmp l) (key : α) :
    Partitioned (fun a => cmp a key == .lt) l := by
  refine h.imp fun {a b} hab hb => ?_
  simp only [beq_iff_eq] at hb ⊢
  exact TransCmp.lt_of_isLE_of_lt hab hb

/-- A key goes where nothing in front of it is above it, and nothing behind it below. -/
theorem Ascending.insert [TransCmp cmp] {l l' : List α} {key : α} (h : Ascending cmp (l ++ l'))
    (hfront : ∀ a ∈ l, (cmp a key).isLE) (hback : ∀ b ∈ l', (cmp key b).isLE) :
    Ascending cmp (l ++ key :: l') := by
  obtain ⟨hl, hl', -⟩ := ascending_append.1 h
  refine ascending_append.2 ⟨hl, List.pairwise_cons.2 ⟨hback, hl'⟩, fun a ha b hb => ?_⟩
  rcases List.mem_cons.1 hb with rfl | hb
  · exact hfront a ha
  · exact TransCmp.isLE_trans (hfront a ha) (hback b hb)

/-- Where a search leaves off: nothing in front is above the key, nothing behind is below it. -/
theorem Algorithms.binarySearchBy_cut (alg : Algorithms) [TransCmp cmp] {l : List α} {key : α}
    (h : Ascending cmp l) {i : ℕ}
    (hi : alg.binarySearchBy (fun a => cmp a key) l = .ok i ∨
      alg.binarySearchBy (fun a => cmp a key) l = .error i) :
    i ≤ l.length ∧ (∀ a ∈ l.take i, (cmp a key).isLE) ∧ ∀ b ∈ l.drop i, (cmp key b).isLE := by
  have hordered := h.searchOrdered key
  have hsplit := List.take_append_drop i l
  rcases hi with hi | hi
  · obtain ⟨a, ha, heq⟩ := alg.binarySearchBy_ok _ _ _ hordered hi
    obtain ⟨hlt, rfl⟩ := List.getElem?_eq_some_iff.1 ha
    rw [List.drop_eq_getElem_cons hlt] at hsplit ⊢
    rw [← hsplit] at h
    obtain ⟨-, hback, hcross⟩ := ascending_append.1 h
    refine ⟨Nat.le_of_lt hlt, fun b hb => ?_, fun b hb => ?_⟩
    · have hle := hcross b hb _ List.mem_cons_self
      rwa [TransCmp.congr_right heq] at hle
    · have heq' := OrientedCmp.eq_symm heq
      rcases List.mem_cons.1 hb with rfl | hb
      · simp [heq']
      · have hle := (List.pairwise_cons.1 hback).1 b hb
        rwa [TransCmp.congr_left heq] at hle
  · obtain ⟨rfl, hne⟩ := alg.binarySearchBy_error _ _ _ hordered hi
    rw [take_length_takeWhile, drop_length_takeWhile]
    refine ⟨(List.takeWhile_sublist _).length_le, fun a ha => ?_, fun b hb => ?_⟩
    · have hlt : cmp a key = .lt := by simpa using List.mem_takeWhile_imp ha
      simp [hlt]
    · have hnot : cmp b key ≠ .lt := by
        simpa using (h.partitioned key).not_of_mem_dropWhile hb
      have hgt : cmp b key = .gt := by
        cases hb' : cmp b key with
        | lt => exact absurd hb' hnot
        | eq => exact absurd hb' (hne b ((List.dropWhile_sublist _).subset hb))
        | gt => rfl
      simp [OrientedCmp.lt_of_gt hgt]

end Order

/-! ### A choice of the algorithms -/

section Reference

def atMost (cmp : α → α → Ordering) (a b : α) : Bool := (cmp a b).isLE

variable {cmp : α → α → Ordering} [TransCmp cmp]

theorem atMost_trans (a b c : α) (hab : atMost cmp a b) (hbc : atMost cmp b c) :
    atMost cmp a c := TransCmp.isLE_trans hab hbc

theorem atMost_total (a b : α) : atMost cmp a b || atMost cmp b a := by
  simp only [atMost, Bool.or_eq_true]
  rcases h : cmp a b with _ | _ | _
  · exact .inl rfl
  · exact .inl rfl
  · exact .inr (by rw [OrientedCmp.lt_of_gt h]; rfl)

theorem ascending_mergeSort (l : List α) : Ascending cmp (l.mergeSort (atMost cmp)) :=
  List.pairwise_mergeSort atMost_trans atMost_total l

/-- A merge sort leaves equal elements in the order it found them in. -/
theorem filter_mergeSort (l : List α) (key : α) :
    (l.mergeSort (atMost cmp)).filter (fun a => cmp a key == .eq) =
      l.filter fun a => cmp a key == .eq := by
  have hperm := (List.mergeSort_perm l (atMost cmp)).filter fun a => cmp a key == .eq
  have hequal : (l.filter fun a => cmp a key == .eq).Pairwise fun a b => atMost cmp a b := by
    refine List.pairwise_of_forall_mem_list fun a ha b hb => ?_
    have ha : cmp a key = .eq := by simpa using (List.mem_filter.1 ha).2
    have hb : cmp b key = .eq := by simpa using (List.mem_filter.1 hb).2
    simp [atMost, TransCmp.eq_trans ha (OrientedCmp.eq_symm hb)]
  have hkept := (List.sublist_mergeSort atMost_trans atMost_total hequal
    List.filter_sublist).filter fun a => cmp a key == .eq
  rw [List.filter_filter] at hkept
  simp only [Bool.and_self] at hkept
  exact (hkept.eq_of_length hperm.length_eq.symm).symm

/-- The search that stops at the first element not before the one searched for. -/
def searchFirst (probe : α → Ordering) (l : List α) : Except ℕ ℕ :=
  let position := (l.takeWhile fun a => probe a == .lt).length
  if l[position]?.any fun a => probe a == .eq then .ok position else .error position

theorem searchFirst_ok {probe : α → Ordering} {l : List α} {i : ℕ}
    (h : searchFirst probe l = .ok i) : ∃ a, l[i]? = some a ∧ probe a = .eq := by
  unfold searchFirst at h
  dsimp only at h
  split at h
  · rename_i hfound
    cases h
    cases ha : l[(l.takeWhile fun a => probe a == .lt).length]? with
    | none => simp [ha] at hfound
    | some a => exact ⟨a, rfl, by simpa [ha] using hfound⟩
  · cases h

theorem searchFirst_error {probe : α → Ordering} {l : List α} {i : ℕ}
    (hl : SearchOrdered probe l) (h : searchFirst probe l = .error i) :
    i = (l.takeWhile fun a => probe a == .lt).length ∧ ∀ a ∈ l, probe a ≠ .eq := by
  unfold searchFirst at h
  dsimp only at h
  split at h
  · cases h
  · rename_i hmissing
    cases h
    refine ⟨rfl, ?_⟩
    induction l with
    | nil => simp
    | cons a l ih =>
        obtain ⟨ha, hl⟩ := List.pairwise_cons.1 hl
        cases hprobe : probe a with
        | lt =>
            simp only [List.takeWhile_cons, hprobe, beq_self_eq_true, if_true, List.length_cons,
              List.getElem?_cons_succ] at hmissing
            simpa [hprobe] using ih hl hmissing
        | eq => simp [hprobe] at hmissing
        | gt => simpa [hprobe] using fun b hb => by simp [(ha b hb).2 hprobe]

def Algorithms.reference : Algorithms where
  sortBy cmp l := l.mergeSort (atMost cmp)
  sortBy_perm _ _ := List.mergeSort_perm _ _
  sortBy_ascending _ _ _ := ascending_mergeSort _
  sortBy_stable _ _ _ _ := filter_mergeSort _ _
  sortUnstableBy cmp l := l.mergeSort (atMost cmp)
  sortUnstableBy_perm _ _ := List.mergeSort_perm _ _
  sortUnstableBy_ascending _ _ _ := ascending_mergeSort _
  binarySearchBy := searchFirst
  binarySearchBy_ok _ _ _ _ := searchFirst_ok
  binarySearchBy_error _ _ _ := searchFirst_error
  partitionPoint pred l := (l.takeWhile pred).length
  partitionPoint_eq _ _ _ := rfl

end Reference

end Slices
