import DarkReNamer.Slices.Standard

/-!
# Stable sorts

A stable sort is determined by what it promises: of two lists with the same elements in order,
which agree on every class of equal elements, neither can differ from the other. A comparator
need only be a total preorder on the elements that are sorted.
-/

namespace Slices

open Std

variable {α β : Type}

/-- A comparator through a key is as good as the comparator of the keys. -/
theorem transCmp_on (cmp : β → β → Ordering) [TransCmp cmp] (key : α → β) :
    TransCmp fun a b => cmp (key a) (key b) where
  eq_swap := OrientedCmp.eq_swap
  isLE_trans := TransCmp.isLE_trans

/-- `cmp` is a total preorder on the elements that satisfy `p`. -/
structure TotalPreorderOn (cmp : α → α → Ordering) (p : α → Prop) : Prop where
  eq_swap : ∀ a b, p a → p b → cmp a b = (cmp b a).swap
  isLE_trans : ∀ a b c, p a → p b → p c →
    (cmp a b).isLE → (cmp b c).isLE → (cmp a c).isLE

/-- The elements of `l` in order, equal ones as they were. -/
structure IsStableSort (cmp : α → α → Ordering) (l l' : List α) : Prop where
  perm : l'.Perm l
  ascending : Ascending cmp l'
  stable : ∀ key ∈ l, (l'.filter fun a => cmp a key == .eq) = l.filter fun a => cmp a key == .eq

section Preorder

variable {cmp : α → α → Ordering} {p : α → Prop}

theorem TotalPreorderOn.mono {q : α → Prop} (h : TotalPreorderOn cmp p) (hq : ∀ a, q a → p a) :
    TotalPreorderOn cmp q where
  eq_swap a b ha hb := h.eq_swap a b (hq a ha) (hq b hb)
  isLE_trans a b c ha hb hc := h.isLE_trans a b c (hq a ha) (hq b hb) (hq c hc)

theorem TotalPreorderOn.of_transCmp [TransCmp cmp] : TotalPreorderOn cmp p where
  eq_swap _ _ _ _ := OrientedCmp.eq_swap
  isLE_trans _ _ _ _ _ _ := TransCmp.isLE_trans

theorem TotalPreorderOn.transCmp (h : TotalPreorderOn cmp fun _ => True) : TransCmp cmp where
  eq_swap {a b} := h.eq_swap a b trivial trivial
  isLE_trans {a b c} := h.isLE_trans a b c trivial trivial trivial

/-- The opposite order is a total preorder as well. -/
theorem TotalPreorderOn.swap (h : TotalPreorderOn cmp p) :
    TotalPreorderOn (fun a b => (cmp a b).swap) p where
  eq_swap a b ha hb := by rw [h.eq_swap a b ha hb]
  isLE_trans a b c ha hb hc hab hbc := by
    rw [← h.eq_swap _ _ hb ha] at hab
    rw [← h.eq_swap _ _ hc hb] at hbc
    rw [← h.eq_swap _ _ hc ha]
    exact h.isLE_trans c b a hc hb ha hbc hab

theorem totalPreorderOn_swap_iff :
    TotalPreorderOn (fun a b => (cmp a b).swap) p ↔ TotalPreorderOn cmp p := by
  refine ⟨fun h => ?_, fun h => h.swap⟩
  simpa only [Ordering.swap_swap] using h.swap

theorem transCmp_swap (cmp : α → α → Ordering) [TransCmp cmp] :
    TransCmp fun a b => (cmp a b).swap :=
  TotalPreorderOn.transCmp TotalPreorderOn.of_transCmp.swap

/-- Some element is below all others. -/
theorem TotalPreorderOn.exists_least {l : List α} (h : TotalPreorderOn cmp (· ∈ l))
    (hne : l ≠ []) : ∃ a ∈ l, ∀ b ∈ l, (cmp a b).isLE := by
  induction l with
  | nil => exact absurd rfl hne
  | cons a l ih =>
      have hrefl : (cmp a a).isLE := by
        have hswap := h.eq_swap a a (by simp) (by simp)
        cases heq : cmp a a <;> simp_all
      by_cases hnil : l = []
      · subst hnil
        exact ⟨a, by simp, by simpa using hrefl⟩
      · obtain ⟨b, hb, hleast⟩ := ih (h.mono fun _ => List.mem_cons_of_mem a) hnil
        by_cases hab : (cmp a b).isLE
        · refine ⟨a, by simp, fun c hc => ?_⟩
          rcases List.mem_cons.1 hc with rfl | hc
          · exact hrefl
          · exact h.isLE_trans a b c (by simp) (by simp [hb]) (by simp [hc]) hab (hleast c hc)
        · refine ⟨b, by simp [hb], fun c hc => ?_⟩
          rcases List.mem_cons.1 hc with rfl | hc
          · rw [h.eq_swap b c (by simp [hb]) (by simp), Ordering.isLE_swap]
            cases heq : cmp c b <;> simp_all
          · exact hleast c hc

end Preorder

section Unique

variable {cmp : α → α → Ordering} [TransCmp cmp]

/-- Two lists in order with the same classes of equal elements are the same list. -/
theorem eq_of_ascending_of_filter_eq {l l' : List α} (h : Ascending cmp l)
    (h' : Ascending cmp l') (hperm : l'.Perm l)
    (hfilter : ∀ key,
      (l'.filter fun a => cmp a key == .eq) = l.filter fun a => cmp a key == .eq) : l' = l := by
  induction l generalizing l' with
  | nil => exact hperm.eq_nil
  | cons a l ih =>
      cases l' with
      | nil => exact absurd hperm.symm.eq_nil (List.cons_ne_nil a l)
      | cons b l' =>
          obtain ⟨ha, hl⟩ := List.pairwise_cons.1 h
          obtain ⟨hb, hl'⟩ := List.pairwise_cons.1 h'
          have hle : (cmp a b).isLE := by
            rcases List.mem_cons.1 (hperm.mem_iff.1 List.mem_cons_self) with rfl | hmem
            · simp [ReflCmp.compare_self]
            · exact ha b hmem
          have hle' : (cmp b a).isLE := by
            rcases List.mem_cons.1 (hperm.mem_iff.2 List.mem_cons_self) with rfl | hmem
            · simp [ReflCmp.compare_self]
            · exact hb a hmem
          have heq : cmp b a = .eq := OrientedCmp.isLE_antisymm hle' hle
          have hclass := hfilter a
          rw [List.filter_cons_of_pos (by simp [heq]),
            List.filter_cons_of_pos (by simp [ReflCmp.compare_self])] at hclass
          obtain ⟨rfl, -⟩ := List.cons_eq_cons.1 hclass
          have hrest : l' = l := by
            refine ih hl hl' ((List.perm_cons b).1 hperm) fun key => ?_
            have hkey := hfilter key
            rw [List.filter_cons, List.filter_cons] at hkey
            split at hkey
            · exact (List.cons_eq_cons.1 hkey).2
            · exact hkey
          rw [hrest]

/-- What is in order already is left as it is. -/
theorem Algorithms.sortBy_eq_self (alg : Algorithms) {l : List α} (h : Ascending cmp l) :
    alg.sortBy cmp l = l :=
  eq_of_ascending_of_filter_eq h (alg.sortBy_ascending cmp l) (alg.sortBy_perm cmp l)
    (alg.sortBy_stable cmp l)

end Unique

end Slices
