import DarkReNamer.Workbench.Command
import DarkReNamer.Workbench.Units
import Mathlib.Order.Nat

/-!
# Rearranging rows

Removing and moving rows. No index these commands compute lies outside the rows, a
removal takes off the totals exactly what the removed rows account for, and the other two only
permute the rows.
-/

namespace DarkReNamer

open Std

/-! ### Selected rows -/

namespace LegacyList

theorem mem_normalizedIndices {indices : List ℕ} {length i : ℕ} :
    i ∈ normalizedIndices indices length ↔ i ∈ indices ∧ i < length := by
  rw [normalizedIndices, ExtTreeSet.mem_toList, ExtTreeSet.mem_ofList]
  simp

theorem normalizedIndices_pairwise (indices : List ℕ) (length : ℕ) :
    (normalizedIndices indices length).Pairwise (· < ·) :=
  ExtTreeSet.ordered_toList.imp fun hab => Nat.compare_eq_lt.1 hab

/-- Unless the first row is selected, no selected row is the first one. -/
theorem pos_of_mem_normalizedIndices {indices : List ℕ} {length i : ℕ}
    (hfirst : (normalizedIndices indices length).head? ≠ some 0)
    (hi : i ∈ normalizedIndices indices length) : 0 < i := by
  have hsorted := normalizedIndices_pairwise indices length
  cases hrows : normalizedIndices indices length with
  | nil => simp [hrows] at hi
  | cons row rows =>
      rw [hrows] at hfirst hi hsorted
      have hrow : row ≠ 0 := by simpa using hfirst
      rcases List.mem_cons.1 hi with rfl | hi
      · omega
      · have hlt := (List.pairwise_cons.1 hsorted).1 i hi
        omega

/-- Unless the last row is selected, every selected row has one after it. -/
theorem succ_lt_of_mem_normalizedIndices {indices : List ℕ} {length i : ℕ}
    (hlast : ¬(normalizedIndices indices length).getLast?.any fun index => index + 1 = length)
    (hi : i ∈ normalizedIndices indices length) : i + 1 < length := by
  have hsorted := normalizedIndices_pairwise indices length
  have hlt := (mem_normalizedIndices.1 hi).2
  cases hrows : (normalizedIndices indices length).getLast? with
  | none => simp [List.getLast?_eq_none_iff.1 hrows] at hi
  | some last =>
      obtain ⟨front, hfront⟩ := List.getLast?_eq_some_iff.1 hrows
      have hmem : last ∈ normalizedIndices indices length := by simp [hfront]
      have hlastlt := (mem_normalizedIndices.1 hmem).2
      have hne : last + 1 ≠ length := by simpa [hrows] using hlast
      rw [hfront] at hi hsorted
      rcases List.mem_append.1 hi with hi | hi
      · have := (List.pairwise_append.1 hsorted).2.2 i hi last (by simp)
        omega
      · obtain rfl : i = last := by simpa using hi
        omega

/-! ### Removing rows -/

theorem retainRows_spec (row : ℕ) (selected : List ℕ) (items : List LegacyListItem)
    (removed : RemovedUnits) (hnames : removed.names + nameUnits items ≤ usizeMax)
    (hpaths : removed.paths + pathUnits items ≤ usizeMax) :
    ∃ kept total, retainRows row selected items removed = some (kept, total) ∧
      kept.Sublist items ∧ total.names + nameUnits kept = removed.names + nameUnits items ∧
      total.paths + pathUnits kept = removed.paths + pathUnits items := by
  induction items generalizing row selected removed with
  | nil => exact ⟨[], removed, by rw [retainRows], .slnil, rfl, rfl⟩
  | cons item rest ih =>
      rw [nameUnits_cons] at hnames
      rw [pathUnits_cons] at hpaths
      rw [retainRows]
      split
      · have hitem : item.plannedPath.len = item.destinationParent.len +
            destinationSeparatorUnits item.destinationParent.units + item.proposedName.len :=
          item.plannedPath_len
        have hadd : checkedAdd usizeMax removed.names item.proposedName.len =
            some (removed.names + item.proposedName.len) :=
          checkedAdd_eq_some.2 ⟨by omega, rfl⟩
        have hsaturate : saturatingAdd usizeMax removed.paths (saturatingAdd usizeMax
            (saturatingAdd usizeMax item.destinationParent.len
              (destinationSeparatorUnits item.destinationParent.units)) item.proposedName.len) =
            removed.paths + item.plannedPath.len := by
          rw [saturatingAdd_eq (a := item.destinationParent.len) (by omega),
            saturatingAdd_eq (b := item.proposedName.len) (by omega), ← hitem,
            saturatingAdd_eq (by omega)]
        obtain ⟨kept, total, hkept, hsub, hn, hp⟩ := ih (row + 1) selected.tail
          ⟨removed.names + item.proposedName.len, removed.paths + item.plannedPath.len⟩
          (by simp only; omega) (by simp only; omega)
        refine ⟨kept, total, ?_, hsub.cons item, ?_, ?_⟩
        · simp only [hadd, hsaturate, Option.bind_eq_bind, Option.bind_some, hkept]
        · rw [hn, nameUnits_cons]
          simp only
          omega
        · rw [hp, pathUnits_cons]
          simp only
          omega
      · obtain ⟨kept, total, hkept, hsub, hn, hp⟩ :=
          ih (row + 1) selected removed (by omega) (by omega)
        refine ⟨item :: kept, total, ?_, hsub.cons_cons item, ?_, ?_⟩
        · simp only [hkept, Option.bind_eq_bind, Option.bind_some]
        · rw [nameUnits_cons, nameUnits_cons]
          omega
        · rw [pathUnits_cons, pathUnits_cons]
          omega

theorem removeRows_spec {list : LegacyList} (h : Tallied list) (fresh : ℕ) (selected : List ℕ) :
    list.removeRows fresh selected = some (0, list) ∨
      ∃ count items, items.Sublist list.items ∧ list.removeRows fresh selected =
        some (count, (list.withItems items).invalidateSourceIndex fresh) := by
  unfold removeRows
  dsimp only
  split
  · exact .inl rfl
  · obtain ⟨kept, total, hkept, hsub, hn, hp⟩ := retainRows_spec 0
      (normalizedIndices selected list.items.length) list.items ⟨0, 0⟩
      (by simpa using h.nameUnits_le) (by simpa using h.pathUnits_le)
    simp only [Nat.zero_add] at hn hp
    have hnames : checkedSub list.proposedNameUtf16Units total.names = some (nameUnits kept) :=
      checkedSub_eq_some.2 ⟨by rw [h.names]; omega, by rw [h.names]; omega⟩
    have hpaths : checkedSub list.plannedPathUtf16Units total.paths = some (pathUnits kept) :=
      checkedSub_eq_some.2 ⟨by rw [h.paths]; omega, by rw [h.paths]; omega⟩
    refine .inr ⟨(normalizedIndices selected list.items.length).length, kept, hsub, ?_⟩
    simp only [hkept, hnames, hpaths, Option.bind_eq_bind, Option.bind_some, withItems]

end LegacyList

/-! ### Permuting rows -/

section Swap

variable {α β : Type}

theorem swapRows_eq_some {items items' : List α} {i j : ℕ} :
    swapRows items i j = some items' ↔
      ∃ a b, items[i]? = some a ∧ items[j]? = some b ∧ items' = (items.set i b).set j a := by
  simp only [swapRows, Option.bind_eq_bind, Option.bind_eq_some_iff, Option.some_inj]
  constructor
  · rintro ⟨a, ha, b, hb, rfl⟩
    exact ⟨a, b, ha, hb, rfl⟩
  · rintro ⟨a, b, ha, hb, rfl⟩
    exact ⟨a, ha, b, hb, rfl⟩

theorem exists_swapRows (items : List α) {i j : ℕ} (hi : i < items.length)
    (hj : j < items.length) : ∃ items', swapRows items i j = some items' ∧ items'.Perm items := by
  refine ⟨(items.set i items[j]).set j items[i], ?_, List.set_set_perm hi hj⟩
  simp [swapRows, List.getElem?_eq_getElem hi, List.getElem?_eq_getElem hj]

/-- A fold whose steps succeed and keep a property succeeds and keeps it. -/
theorem exists_foldlM {f : β → α → Option β} {P : β → Prop} {l : List α}
    (hstep : ∀ b, P b → ∀ a ∈ l, ∃ b', f b a = some b' ∧ P b') {b : β} (hb : P b) :
    ∃ b', l.foldlM f b = some b' ∧ P b' := by
  induction l generalizing b with
  | nil => exact ⟨b, rfl, hb⟩
  | cons a l ih =>
      obtain ⟨b₁, hb₁, hP⟩ := hstep b hb a (by simp)
      obtain ⟨b₂, hb₂, hP'⟩ := ih (fun b hb a ha => hstep b hb a (by simp [ha])) hP
      exact ⟨b₂, by simp [hb₁, hb₂], hP'⟩

end Swap

namespace LegacyList

theorem withItems_of_perm {list : LegacyList} (h : Tallied list) {items : List LegacyListItem}
    (hperm : items.Perm list.items) : { list with items := items } = list.withItems items := by
  rw [withItems, nameUnits_perm hperm, pathUnits_perm hperm, ← h.names, ← h.paths]

end LegacyList

end DarkReNamer
