import DarkReNamer.Workbench.Parents
import DarkReNamer.Workbench.Units
import Mathlib.Order.Nat

/-!
# Rows with other parents

Proposing parents changes neither names nor sources. Both commands stage the exact total of the
planned paths that they leave, and report the rows whose parent is another one afterwards.
-/

namespace DarkReNamer

open Interaction

/-- The rows with the parents that `f` proposes for them. -/
def reparented (f : LegacyListItem → LegacyText) (items : List LegacyListItem) :
    List LegacyListItem :=
  items.map fun item => writeParent item (f item)

section Reparented

variable (f : LegacyListItem → LegacyText) (items : List LegacyListItem)

theorem zipWith_writeParent :
    List.zipWith writeParent items (items.map f) = reparented f items := by
  induction items with
  | nil => rfl
  | cons item items ih => simpa [reparented] using ih

theorem nameUnits_reparented : nameUnits (reparented f items) = nameUnits items := by
  induction items with
  | nil => rfl
  | cons item items ih =>
      rw [reparented, List.map_cons, nameUnits_cons, nameUnits_cons]
      exact congrArg _ ih

theorem sourcePaths_reparented :
    (reparented f items).map (·.sourcePath) = items.map (·.sourcePath) := by
  simp [reparented, writeParent, Function.comp_def]

theorem pathUnits_reparented : pathUnits (reparented f items) =
    (items.map fun item => plannedPathUnits (f item).units item.proposedName.len).sum := by
  simp [pathUnits, reparented, LegacyListItem.plannedPath_len, writeParent, Function.comp_def]

theorem changedParents_eq (row : ℕ) : changedParents row items (items.map f) =
    differFrom (·.destinationParent) row items (reparented f items) := by
  induction items generalizing row with
  | nil => rfl
  | cons item items ih =>
      simp only [reparented, List.map_cons, changedParents, differFrom] at ih ⊢
      rw [ih]
      rfl

end Reparented

/-! ### One parent for all rows -/

/-- A separator that is kept stands at the end of the normalized parent. -/
theorem isSeparator_of_preserves {parent : List UInt16}
    (h : (normalizedDestinationParentLen parent).2 = true) :
    ∃ front last, parent.take (normalizedDestinationParentLen parent).1 = front ++ [last] ∧
      isSeparator last = true := by
  unfold normalizedDestinationParentLen at h ⊢
  dsimp only at h ⊢
  cases hlast : rposition (fun unit => !isSeparator unit) parent with
  | none =>
      cases parent with
      | nil => simp [hlast] at h
      | cons unit parent =>
          have hall := rposition_eq_none.1 hlast unit (by simp)
          exact ⟨[], unit, by simp, by simpa using hall⟩
  | some index =>
      obtain ⟨front, unit, back, rfl, rfl, -, hback⟩ := exists_of_rposition_eq_some hlast
      cases back with
      | nil => simp [hlast] at h
      | cons last back =>
          have hne : front.length + 1 ≠ (front ++ unit :: last :: back).length := by simp
          rw [hlast] at h
          simp only [hne, if_false] at h ⊢
          rw [if_pos h]
          refine ⟨front ++ [unit], last, ?_, by simpa using hback last (by simp)⟩
          have hsplit : front ++ unit :: last :: back =
              (front ++ [unit] ++ [last]) ++ back := by simp
          rw [hsplit]
          exact List.take_left' (by simp)

theorem normalizedDestinationParentLen_le (parent : List UInt16) :
    (normalizedDestinationParentLen parent).1 ≤ parent.length := by
  unfold normalizedDestinationParentLen
  dsimp only
  cases hlast : rposition (fun unit => !isSeparator unit) parent with
  | none =>
      cases parent with
      | nil => simp
      | cons unit parent => simp
  | some index =>
      obtain ⟨front, unit, back, rfl, rfl, -, -⟩ := exists_of_rposition_eq_some hlast
      cases back with
      | nil => simp
      | cons last back =>
          simp
          split
          · omega
          · omega

/-- The normalized parent is as long as it was counted, and ends in a separator as it did. -/
theorem plannedPathUnits_normalized (parent : List UInt16) (units : ℕ) :
    plannedPathUnits (normalizedDestinationParent parent) units =
      (normalizedDestinationParentLen parent).1 + destinationSeparatorUnits
        (parent.take (normalizedDestinationParentLen parent).1) + units := by
  have hlength : (parent.take (normalizedDestinationParentLen parent).1).length =
      (normalizedDestinationParentLen parent).1 :=
    List.length_take_of_le (normalizedDestinationParentLen_le parent)
  unfold plannedPathUnits normalizedDestinationParent
  dsimp only
  split
  · rename_i h
    obtain ⟨front, last, htake, hlast⟩ := isSeparator_of_preserves h.1
    rw [htake] at hlength ⊢
    have hbackslash : isSeparator backslash = true := rfl
    simp [destinationSeparatorUnits, hlast, hbackslash, ← hlength]
  · rw [hlength]

theorem stages_stageUnify (list : LegacyList) (parent : LegacyText)
    (hnames : list.proposedNameUtf16Units = nameUnits list.items) :
    Stages (fun r => r.1 = pathUnits (reparented (fun _ => r.2) list.items) ∧
      r.1 ≤ maxTotalPlannedPathUtf16Units) (stageUnify list parent) := by
  unfold stageUnify
  dsimp only
  refine Tries.bind (stages_any _) fun _ _ => ?_
  refine Tries.bind (Stages.okOr fun perRow h => checkedAdd_eq_some.1 h) ?_
  rintro perRow ⟨-, hperRow⟩
  refine Tries.bind (Stages.okOr (q := fun units =>
    units = perRow * list.items.length + list.proposedNameUtf16Units) ?_) ?_
  · intro units h
    simp only [Option.bind_eq_bind, Option.bind_eq_some_iff, checkedMul_eq_some,
      checkedAdd_eq_some] at h
    obtain ⟨_, ⟨-, rfl⟩, -, rfl⟩ := h
    rfl
  · rintro units rfl
    refine Stages.unless fun hpaths => ?_
    refine Tries.bind (stages_any _) fun _ _ => ?_
    refine Tries.bind (stages_any _) fun _ _ => ?_
    refine Tries.pure ⟨?_, Nat.not_lt.1 hpaths⟩
    rw [pathUnits_reparented, hnames, nameUnits]
    simp only [plannedPathUnits_normalized, ← hperRow]
    induction list.items with
    | nil => simp
    | cons item items ih =>
        simp only [List.map_cons, List.sum_cons, List.length_cons, Nat.mul_add] at ih ⊢
        omega

/-! ### The source parent of every row -/

def sourceParent (item : LegacyListItem) : LegacyText :=
  ⟨sourceParentUnits item.sourcePath.units⟩

theorem sourceParentPathUnits_eq_ok {items : List LegacyListItem} {total units : ℕ}
    (h : sourceParentPathUnits items total = .ok units) :
    units = total + pathUnits (reparented sourceParent items) := by
  induction items generalizing total with
  | nil =>
      cases h
      rfl
  | cons item items ih =>
      simp only [sourceParentPathUnits, bind_eq_ok_iff, okOr_eq_ok_iff, checkedAdd_eq_some] at h
      obtain ⟨itemUnits, hitem, _, ⟨-, rfl⟩, hrest⟩ := h
      have hcons : reparented sourceParent (item :: items) =
          writeParent item (sourceParent item) :: reparented sourceParent items := rfl
      rw [ih hrest, checkedPlannedPathUnits_eq_some hitem, hcons, pathUnits_cons,
        LegacyListItem.plannedPath_len, ← Nat.add_assoc]
      rfl

theorem stages_shareParents (items : List LegacyListItem) (shared : List (List UInt16))
    (aggregateUnits : ℕ) :
    Stages (fun parents => parents = items.map sourceParent)
      (shareParents items shared aggregateUnits) := by
  induction items generalizing shared aggregateUnits with
  | nil => exact Tries.pure rfl
  | cons item items ih =>
      rw [shareParents]
      refine Tries.bind (stages_any _) fun _ _ => ?_
      split
      · refine Tries.bind (ih _ _) ?_
        rintro parents rfl
        exact Tries.pure rfl
      · refine Tries.bind (stages_any _) fun aggregateUnits _ => ?_
        refine Stages.unless fun _ => ?_
        refine Tries.bind (m := fun parent => parent = sourceParent item) ?_ ?_
        · refine Tries.bind (stages_any _) fun _ _ => ?_
          exact Tries.pure rfl
        · rintro parent rfl
          refine Tries.bind (ih _ _) ?_
          rintro parents rfl
          exact Tries.pure rfl

theorem stages_stageReset (list : LegacyList) :
    Stages (fun r => r.2 = list.items.map sourceParent ∧
      r.1 = pathUnits (reparented sourceParent list.items) ∧
      r.1 ≤ maxTotalPlannedPathUtf16Units) (stageReset list) := by
  unfold stageReset
  refine Tries.bind (Stages.ofExcept fun units h => sourceParentPathUnits_eq_ok h) ?_
  intro units hunits
  refine Stages.unless fun hpaths => ?_
  refine Tries.bind (stages_any _) fun _ _ => ?_
  refine Tries.bind (stages_any _) fun _ _ => ?_
  refine Tries.bind (stages_any _) fun _ _ => ?_
  refine Tries.bind (stages_shareParents _ _ _) ?_
  rintro parents rfl
  exact Tries.pure ⟨rfl, by simpa using hunits, Nat.not_lt.1 hpaths⟩

namespace LegacyList

/-- An error and an untouched list, or the reported rows with other parents. -/
def ReparentsOrRefuses (list : LegacyList)
    (r : Except DestinationParentMutationError (List ℕ) × LegacyList) : Prop :=
  match r.1 with
  | .error _ => r.2 = list
  | .ok rows => ∃ f, pathUnits (reparented f list.items) ≤ maxTotalPlannedPathUtf16Units ∧
      rows = differingRows (·.destinationParent) list.items (reparented f list.items) ∧
      r.2 = list.withItems (reparented f list.items)

theorem withParents_eq {list : LegacyList}
    (hnames : list.proposedNameUtf16Units = nameUnits list.items) {units : ℕ}
    {f : LegacyListItem → LegacyText} (hunits : units = pathUnits (reparented f list.items)) :
    list.withParents units (list.items.map f) =
      (differingRows (·.destinationParent) list.items (reparented f list.items),
        list.withItems (reparented f list.items)) := by
  rw [withParents, changedParents_eq, zipWith_writeParent,
    differFrom_zero _ (by simp [reparented]), withItems, nameUnits_reparented, ← hnames, hunits]

theorem unifyDestinationParentChanged_spec {list : LegacyList}
    (hnames : list.proposedNameUtf16Units = nameUnits list.items) (parent : LegacyText) :
    Confined (fun _ => True) (ReparentsOrRefuses list)
      (list.unifyDestinationParentChanged parent) := by
  unfold unifyDestinationParentChanged
  refine Confined.bind (stages_stageUnify list parent hnames) fun r hr => ?_
  cases r with
  | error error => exact rfl
  | ok staged =>
      obtain ⟨hunits, hle⟩ := hr _ rfl
      have hparents : List.replicate list.items.length staged.2 =
          list.items.map fun _ => staged.2 := by simp
      refine ⟨fun _ => staged.2, hunits ▸ hle, ?_, ?_⟩
      · rw [hparents]
        exact congrArg Prod.fst (withParents_eq hnames hunits)
      · rw [hparents]
        exact congrArg Prod.snd (withParents_eq hnames hunits)

theorem resetDestinationParents_spec {list : LegacyList}
    (hnames : list.proposedNameUtf16Units = nameUnits list.items) :
    Confined (fun _ => True) (ReparentsOrRefuses list) list.resetDestinationParents := by
  unfold resetDestinationParents
  refine Confined.bind (stages_stageReset list) fun r hr => ?_
  cases r with
  | error error => exact rfl
  | ok staged =>
      obtain ⟨hparents, hunits, hle⟩ := hr _ rfl
      refine ⟨sourceParent, hunits ▸ hle, ?_, ?_⟩
      · rw [hparents]
        exact congrArg Prod.fst (withParents_eq hnames hunits)
      · rw [hparents]
        exact congrArg Prod.snd (withParents_eq hnames hunits)

end LegacyList

end DarkReNamer
