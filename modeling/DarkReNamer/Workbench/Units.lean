import DarkReNamer.Workbench.LegacyList
import Mathlib.Algebra.BigOperators.Group.List.Basic
import Mathlib.Algebra.Ring.Nat
import Mathlib.Data.List.Forall2

/-!
# Totals and changed rows

The exact totals of a list, as sums over its rows, and the rows at which two lists differ. A
planned path is its parent, a separator where one is needed, and the name, so that a change of
names changes both totals by the same amount.
-/

namespace DarkReNamer

/-! ### Sums over the rows -/

def nameUnits (items : List LegacyListItem) : ℕ :=
  (items.map fun item => item.proposedName.len).sum

/-- Exact total of the planned paths. -/
def pathUnits (items : List LegacyListItem) : ℕ :=
  (items.map fun item => item.plannedPath.len).sum

/-- The part of the planned paths in front of the names. -/
def parentUnits (items : List LegacyListItem) : ℕ :=
  (items.map fun item => plannedPathUnits item.destinationParent.units 0).sum

section Sums

variable (item : LegacyListItem) (items items' : List LegacyListItem)

@[simp] theorem nameUnits_nil : nameUnits [] = 0 := rfl

@[simp] theorem pathUnits_nil : pathUnits [] = 0 := rfl

@[simp] theorem parentUnits_nil : parentUnits [] = 0 := rfl

@[simp] theorem nameUnits_cons :
    nameUnits (item :: items) = item.proposedName.len + nameUnits items := by
  simp [nameUnits]

@[simp] theorem pathUnits_cons :
    pathUnits (item :: items) = item.plannedPath.len + pathUnits items := by
  simp [pathUnits]

@[simp] theorem parentUnits_cons : parentUnits (item :: items) =
    plannedPathUnits item.destinationParent.units 0 + parentUnits items := by
  simp [parentUnits]

@[simp] theorem nameUnits_append :
    nameUnits (items ++ items') = nameUnits items + nameUnits items' := by
  simp [nameUnits]

@[simp] theorem pathUnits_append :
    pathUnits (items ++ items') = pathUnits items + pathUnits items' := by
  simp [pathUnits]

theorem pathUnits_eq : pathUnits items = parentUnits items + nameUnits items := by
  induction items with
  | nil => rfl
  | cons item items ih =>
      rw [pathUnits_cons, parentUnits_cons, nameUnits_cons, ih, item.plannedPath_len]
      unfold plannedPathUnits
      omega

variable {items items'}

theorem nameUnits_perm (h : items.Perm items') : nameUnits items = nameUnits items' :=
  (h.map _).sum_eq

theorem pathUnits_perm (h : items.Perm items') : pathUnits items = pathUnits items' :=
  (h.map _).sum_eq

theorem nameUnits_sublist (h : items.Sublist items') : nameUnits items ≤ nameUnits items' := by
  induction h with
  | slnil => exact le_rfl
  | cons item _ ih => exact ih.trans (by simp)
  | cons_cons item _ ih => simpa using ih

theorem pathUnits_sublist (h : items.Sublist items') : pathUnits items ≤ pathUnits items' := by
  induction h with
  | slnil => exact le_rfl
  | cons item _ ih => exact ih.trans (by simp)
  | cons_cons item _ ih => simpa using ih

theorem nameUnits_le_pathUnits : nameUnits items ≤ pathUnits items := by
  rw [pathUnits_eq]
  omega

end Sums

/-! ### Renamed rows -/

/-- Only proposed names differ. -/
def Renames (items items' : List LegacyListItem) : Prop :=
  List.Forall₂ (fun item item' => item' = { item with proposedName := item'.proposedName })
    items items'

theorem Renames.refl (items : List LegacyListItem) : Renames items items :=
  List.forall₂_same.2 fun _ _ => rfl

theorem Renames.map (items : List LegacyListItem) (proposal : LegacyListItem → LegacyText) :
    Renames items (items.map fun item => { item with proposedName := proposal item }) := by
  rw [Renames, List.forall₂_map_right_iff]
  exact List.forall₂_same.2 fun _ _ => rfl

theorem Renames.parentUnits {items items' : List LegacyListItem} (h : Renames items items') :
    parentUnits items' = parentUnits items := by
  induction h with
  | nil => rfl
  | cons hitem _ ih => rw [parentUnits_cons, parentUnits_cons, ih, hitem]

theorem Renames.sourcePaths {items items' : List LegacyListItem} (h : Renames items items') :
    items'.map (·.sourcePath) = items.map (·.sourcePath) := by
  induction h with
  | nil => rfl
  | cons hitem _ ih => rw [List.map_cons, List.map_cons, ih, hitem]

/-- The row `index` with what stands in front of and behind it. -/
theorem exists_split {α : Type} {items : List α} {index : ℕ} {item : α}
    (h : items[index]? = some item) :
    ∃ front back, items = front ++ item :: back ∧ front.length = index := by
  obtain ⟨hlt, rfl⟩ := List.getElem?_eq_some_iff.1 h
  refine ⟨items.take index, items.drop (index + 1), ?_, by simp; omega⟩
  rw [← List.drop_eq_getElem_cons hlt, List.take_append_drop]

/-! ### Rows that differ -/

section Differ

variable {α β : Type} [DecidableEq β] (field : α → β)

/-- The positions, counted from `row`, at which `field` differs. -/
def differFrom : ℕ → List α → List α → List ℕ
  | row, a :: before, b :: after =>
    if field a ≠ field b then row :: differFrom (row + 1) before after
    else differFrom (row + 1) before after
  | _, _, _ => []

/-- The rows at which `field` differs. -/
def differingRows (before after : List α) : List ℕ :=
  (List.range before.length).filter fun row => (before[row]?).map field ≠ (after[row]?).map field

theorem differFrom_eq_filter (row : ℕ) {before after : List α}
    (h : before.length = after.length) :
    differFrom field row before after = ((List.range before.length).filter fun i =>
      (before[i]?).map field ≠ (after[i]?).map field).map (row + ·) := by
  induction before generalizing row after with
  | nil => simp [differFrom]
  | cons a before ih =>
      cases after with
      | nil => simp at h
      | cons b after =>
          rw [List.length_cons, List.range_succ_eq_map, List.filter_cons, List.filter_map,
            differFrom, ih (row + 1) (by simpa using h)]
          have hshift (i : ℕ) : row + 1 + i = row + (i + 1) := by omega
          by_cases hab : field a = field b
          · simp [hab, Function.comp_def, hshift]
          · simp [hab, Function.comp_def, hshift]

theorem differFrom_zero {before after : List α} (h : before.length = after.length) :
    differFrom field 0 before after = differingRows field before after := by
  rw [differFrom_eq_filter field 0 h]
  simp [differingRows]

theorem differFrom_self (row : ℕ) (items : List α) : differFrom field row items items = [] := by
  induction items generalizing row with
  | nil => rfl
  | cons a items ih => simp [differFrom, ih]

end Differ

/-! ### Lists with exact totals -/

namespace LegacyList

/-- The list with other rows and the exact totals of those. -/
def withItems (list : LegacyList) (items : List LegacyListItem) : LegacyList :=
  { list with
    items := items
    proposedNameUtf16Units := nameUnits items
    plannedPathUtf16Units := pathUnits items }

@[simp] theorem withItems_items (list : LegacyList) (items : List LegacyListItem) :
    (list.withItems items).items = items := rfl

@[simp] theorem invalidateSourceIndex_items (list : LegacyList) (fresh : ℕ) :
    (list.invalidateSourceIndex fresh).items = list.items := by
  unfold invalidateSourceIndex
  split <;> rfl

/-- The totals are the exact sums over the rows, and within their budgets. -/
structure Exact (list : LegacyList) : Prop where
  names : list.proposedNameUtf16Units = nameUnits list.items
  paths : list.plannedPathUtf16Units = pathUnits list.items
  name_le : ∀ item ∈ list.items, item.proposedName.len ≤ maxProposedNameUtf16Units
  names_le : list.proposedNameUtf16Units ≤ maxTotalProposedNameUtf16Units
  paths_le : list.plannedPathUtf16Units ≤ maxTotalPlannedPathUtf16Units

/-- The totals are the exact sums over the rows, which need not keep any budget. -/
structure Tallied (list : LegacyList) : Prop where
  names : list.proposedNameUtf16Units = nameUnits list.items
  paths : list.plannedPathUtf16Units = pathUnits list.items
  paths_le : list.plannedPathUtf16Units ≤ usizeMax

namespace Tallied

variable {list : LegacyList}

theorem withItems_eq (h : Tallied list) : list.withItems list.items = list := by
  rw [withItems, ← h.names, ← h.paths]

theorem pathUnits_le (h : Tallied list) : pathUnits list.items ≤ usizeMax :=
  h.paths ▸ h.paths_le

theorem nameUnits_le (h : Tallied list) : nameUnits list.items ≤ usizeMax :=
  nameUnits_le_pathUnits.trans h.pathUnits_le

theorem withItems {items : List LegacyListItem} (hpaths : pathUnits items ≤ usizeMax) :
    Tallied (list.withItems items) := ⟨rfl, rfl, hpaths⟩

theorem invalidate (h : Tallied list) (fresh : ℕ) :
    Tallied (list.invalidateSourceIndex fresh) := by
  unfold invalidateSourceIndex
  split
  · exact ⟨h.names, h.paths, h.paths_le⟩
  · exact ⟨h.names, h.paths, h.paths_le⟩

end Tallied

namespace Exact

variable {list : LegacyList}

theorem tallied (h : Exact list) : Tallied list :=
  ⟨h.names, h.paths, h.paths_le.trans (by decide)⟩

/-- Other rows with as short names and smaller totals. -/
theorem withItems {items : List LegacyListItem}
    (hname : ∀ item ∈ items, item.proposedName.len ≤ maxProposedNameUtf16Units)
    (hnames : nameUnits items ≤ maxTotalProposedNameUtf16Units)
    (hpaths : pathUnits items ≤ maxTotalPlannedPathUtf16Units) :
    Exact (list.withItems items) := ⟨rfl, rfl, hname, hnames, hpaths⟩

theorem invalidate (h : Exact list) (fresh : ℕ) : Exact (list.invalidateSourceIndex fresh) := by
  unfold invalidateSourceIndex
  split
  · exact ⟨h.names, h.paths, h.name_le, h.names_le, h.paths_le⟩
  · exact ⟨h.names, h.paths, h.name_le, h.names_le, h.paths_le⟩

end Exact

end LegacyList

end DarkReNamer
