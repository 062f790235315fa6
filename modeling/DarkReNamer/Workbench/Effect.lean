import DarkReNamer.Workbench.Change

/-!
# Commands within their budgets

From a list whose totals are exact and within their budgets, every command that records moves
only of rows that move cleanly leaves such a list. Later proofs are case analyses over `Effect`.
-/

namespace DarkReNamer

open Interaction LegacyList

/-- What a command leaves of `list`, with the outcome it returns. -/
inductive Effect (fresh : ℕ) (list : LegacyList) : Outcome → LegacyList → Prop
  | refused {outcome : Outcome} (h : outcome.isError = true) : Effect fresh list outcome list
  | idle {outcome : Outcome}
      (h : outcome.isPlain = true ∨ outcome = .changedProposals []) :
      Effect fresh list outcome list
  | reordered {outcome : Outcome} {items : List LegacyListItem} (h : outcome.isPlain = true)
      (perm : items.Perm list.items) : Effect fresh list outcome (list.withItems items)
  | renamed {outcome : Outcome} {items : List LegacyListItem} {rows : List ℕ}
      (h : outcome.isPlain = true ∨ outcome = .changedProposals rows)
      (renames : RenamedTo list items rows) : Effect fresh list outcome (list.withItems items)
  | reparented {f : LegacyListItem → LegacyText}
      (paths_le : pathUnits (reparented f list.items) ≤ maxTotalPlannedPathUtf16Units) :
      Effect fresh list (.changedParents
        (differingRows (·.destinationParent) list.items (DarkReNamer.reparented f list.items)))
        (list.withItems (DarkReNamer.reparented f list.items))
  | removed {outcome : Outcome} {items : List LegacyListItem} (h : outcome.isPlain = true)
      (sublist : items.Sublist list.items) :
      Effect fresh list outcome ((list.withItems items).invalidateSourceIndex fresh)
  | moved {index : ℕ} {item : LegacyListItem} (hitem : list.items[index]? = some item)
      (clean : MovesCleanly item) : Effect fresh list (.changed true)
        ((list.withItems (list.items.set index (movedItem item))).invalidateSourceIndex fresh)

/-- A move is recorded only for a row that moves cleanly. -/
def Command.Admissible (list : LegacyList) : Command → Prop
  | .recordMoveSuccess index => ∀ item, list.items[index]? = some item → MovesCleanly item
  | _ => True

/-- A program that ends, without leaving `usize` or the rows, in an effect of the list. -/
abbrev HasEffect (fresh : ℕ) (list : LegacyList)
    (program : Program Reservation Granted (Option (Outcome × LegacyList))) : Prop :=
  Confined (fun _ => True)
    (fun r => ∃ outcome list', r = some (outcome, list') ∧ Effect fresh list outcome list') program

/-- A change within the budgets. -/
theorem Change.effect {fresh : ℕ} {list : LegacyList} (h : list.Exact) {command : Command}
    (hadmissible : command.Admissible list) {outcome : Outcome} {list' : LegacyList}
    (hchange : Change fresh list command outcome list') : Effect fresh list outcome list' := by
  cases hchange with
  | refused herror => exact .refused herror
  | idle hidle => exact .idle hidle
  | reordered hplain perm => exact .reordered hplain perm
  | renamed houtcome renames => exact .renamed houtcome (renames.budget h)
  | reparented paths_le => exact .reparented paths_le
  | removed hplain sublist => exact .removed hplain sublist
  | @moved index item hcommand hitem =>
      subst hcommand
      have hclean := hadmissible _ hitem
      have hpaths := (hclean.units_set hitem).2
      have heq : list.movedAt index item =
          list.withItems (list.items.set index (movedItem item)) := by
        rw [movedAt, withItems, hpaths, ← h.paths]
      rw [heq]
      exact .moved hitem hclean

theorem perform_hasEffect (alg : Slices.Algorithms) (fresh : ℕ) {list : LegacyList}
    (h : Exact list) {command : Command} (hadmissible : command.Admissible list) :
    HasEffect fresh list (command.perform alg fresh list) := by
  refine (perform_hasChange alg fresh h.tallied command).mono fun r hr => ?_
  obtain ⟨outcome, list', rfl, hchange⟩ := hr
  exact ⟨outcome, list', rfl, hchange.effect h hadmissible⟩

end DarkReNamer
