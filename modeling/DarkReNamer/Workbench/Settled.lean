import DarkReNamer.Core.WindowsLeafName
import DarkReNamer.Workbench.Activation
import DarkReNamer.Workbench.Totals

/-!
# Settled rows

As long as every move that was recorded settled its row, the totals of a list are exact. From
there the next move keeps them exact exactly when it settles its row too, and that it does
exactly when the last backslash of the planned path follows no other separator.
-/

namespace DarkReNamer

open Interaction LegacyList

/-- A recorded move settles its row. -/
def Command.Settles (list : LegacyList) : Command → Prop
  | .recordMoveSuccess index => ∀ item, list.items[index]? = some item → settlesOnMove item = true
  | _ => True

/-- The lists that are built by operations whose recorded moves settle their rows. -/
inductive Settled (alg : Slices.Algorithms) : LegacyList → Prop
  | new (fresh : ℕ) : Settled alg (new fresh)
  | clone {list : LegacyList} (past : Settled alg list) (fresh : ℕ) :
      Settled alg (list.clone fresh)
  | perform {list list' : LegacyList} {command : Command} {fresh : ℕ} {outcome : Outcome}
      {trace : List (Event Reservation Granted)} (past : Settled alg list)
      (settles : command.Settles list)
      (run : Runs allocator (command.perform alg fresh list) () trace
        (some (some (outcome, list'))) ()) : Settled alg list'
  | append {list : LegacyList} {compareText : LegacyText → LegacyText → Ordering} {fresh : ℕ}
      {index : LegacyAppendIndex} {items : List LegacyListItem} {appended : Appended}
      {trace : List (Event Reservation Granted)} (past : Settled alg list)
      (run : Runs allocator (appendBatchIndexed alg compareText fresh index items list) () trace
        (some appended) ()) : Settled alg appended.list

theorem Command.Admissible.settles {list : LegacyList} {command : Command}
    (h : command.Admissible list) : command.Settles list := by
  cases command with
  | recordMoveSuccess index => exact fun item hitem => (h item hitem).settles
  | _ => trivial

theorem Reached.settled {alg : Slices.Algorithms} {list : LegacyList} (h : Reached alg list) :
    Settled alg list := by
  induction h with
  | new fresh => exact .new fresh
  | clone _ fresh ih => exact .clone ih fresh
  | perform _ admissible run ih => exact .perform ih admissible.settles run
  | append _ run ih => exact .append ih run

/-! ### Totals -/

theorem Change.tallied {fresh : ℕ} {list list' : LegacyList} {command : Command}
    {outcome : Outcome} (h : list.Tallied) (hsettles : command.Settles list)
    (hchange : Change fresh list command outcome list') : list'.Tallied := by
  have hbudget : maxTotalPlannedPathUtf16Units ≤ usizeMax := by decide
  have hpaths := h.pathUnits_le
  cases hchange with
  | refused => exact h
  | idle => exact h
  | reordered _ perm => exact .withItems (pathUnits_perm perm ▸ hpaths)
  | renamed _ renames => exact .withItems (renames.paths_le.trans (max_le hpaths hbudget))
  | reparented paths_le => exact .withItems (paths_le.trans hbudget)
  | removed _ sublist =>
      exact (Tallied.withItems ((pathUnits_sublist sublist).trans hpaths)).invalidate fresh
  | moved hcommand hitem =>
      subst hcommand
      exact ((h.movedAt_iff hitem).2 (hsettles _ hitem)).invalidate fresh

theorem Settled.tallied {alg : Slices.Algorithms} {list : LegacyList} (h : Settled alg list) :
    list.Tallied := by
  induction h with
  | new fresh => exact ⟨rfl, rfl, Nat.zero_le _⟩
  | clone past fresh ih => exact ⟨ih.names, ih.paths, ih.paths_le⟩
  | perform past settles run ih =>
      obtain ⟨outcome, list', heq, hchange⟩ :=
        Confined.of_runs (perform_hasChange alg _ ih _) run
      cases heq
      exact hchange.tallied ih settles
  | @append list _ fresh _ _ appended _ past run ih =>
      have heffect := Confined.of_runs (appendBatchIndexed_effect alg _ fresh ih _ _) run
      unfold AppendEffect at heffect
      split at heffect
      · exact heffect ▸ ih
      · rcases heffect with hsame | ⟨rows, units, happend, hlist⟩
        · exact hsame ▸ ih
        · rw [hlist]
          refine (Tallied.withItems ?_).invalidate fresh
          rw [← happend.paths_eq]
          exact happend.paths_le.trans (by decide)

/-! ### Moves -/

/-- A row at rest: it plans nothing, its next intent goes nowhere. -/
structure AtRest (list : LegacyList) (index : ℕ) (item : LegacyListItem) : Prop where
  path : item.plannedPath = item.sourcePath
  kind : item.plannedChangeKind = .none
  intent : ∀ revision intent, (buildPlanRequest list revision).entries[index]? = some intent →
    intent.changes = false

/-- The totals of the list are the exact sums over its rows. -/
def ExactTotals (list : LegacyList) : Prop :=
  list.proposedNameUtf16Units = nameUnits list.items ∧
    list.plannedPathUtf16Units = pathUnits list.items

theorem atRest_iff {list : LegacyList} {index : ℕ} {item : LegacyListItem}
    (hitem : list.items[index]? = some item) (hunits : item.plannedPath.len ≤ usizeMax) :
    AtRest list index item ↔ item.plannedPath = item.sourcePath := by
  refine ⟨fun h => h.path, fun hpath => ⟨hpath, ?_, fun revision intent hintent => ?_⟩⟩
  · rw [LegacyListItem.plannedChangeKind, if_pos ((plannedPathMatchesSource_iff hunits).2 hpath)]
  · rw [getElem?_buildPlanRequest, hitem, Option.map_some, Option.some_inj] at hintent
    subst hintent
    have hsource : (rowIntent index item).source = item.sourcePath := rfl
    rw [RenameIntent.changes, destination_rowIntent, hsource, hpath]
    simp

theorem exactTotals_invalidate {list : LegacyList} {fresh : ℕ} :
    ExactTotals (list.invalidateSourceIndex fresh) ↔ ExactTotals list := by
  unfold invalidateSourceIndex
  split <;> rfl

theorem exactTotals_movedAt {list : LegacyList} {index : ℕ} {item : LegacyListItem}
    (h : list.Tallied) (hitem : list.items[index]? = some item) :
    ExactTotals (list.movedAt index item) ↔ settlesOnMove item = true := by
  rw [← h.movedAt_iff hitem]
  exact ⟨fun hexact => ⟨hexact.1, hexact.2, h.paths_le⟩, fun h => ⟨h.names, h.paths⟩⟩

/-- In every list whose recorded moves all settled their rows, the next one leaves its row at
rest and both totals exact exactly when it settles its row. -/
theorem recordMoveSuccess_settles {alg : Slices.Algorithms} {list : LegacyList}
    (h : Settled alg list) (fresh index : ℕ) (item : LegacyListItem)
    (hitem : list.items[index]? = some item) :
    ∃ list' item', list.recordMoveSuccess fresh index = some (true, list') ∧
      list'.items[index]? = some item' ∧ item'.sourcePath = item.plannedPath ∧
      (AtRest list' index item' ∧ ExactTotals list' ↔ settlesOnMove item = true) := by
  have htallied := h.tallied
  have hlt := (List.getElem?_eq_some_iff.1 hitem).1
  have hmoved : ((list.movedAt index item).invalidateSourceIndex fresh).items[index]? =
      some (movedItem item) := by
    rw [invalidateSourceIndex_items]
    exact List.getElem?_set_self hlt
  refine ⟨_, movedItem item, htallied.recordMoveSuccess fresh hitem, hmoved, rfl, ?_⟩
  rw [exactTotals_invalidate, exactTotals_movedAt htallied hitem]
  refine ⟨fun h => h.2, fun hsettles => ⟨(atRest_iff hmoved ?_).2 ?_, hsettles⟩⟩
  · obtain ⟨hname, hpath⟩ := units_le hitem
    have hle := htallied.pathUnits_le
    rw [(settlesOnMove_iff_len item).1 hsettles]
    omega
  · exact (settlesOnMove_iff item).1 hsettles

/-! ### A doubled separator -/

/-- A file whose path was spelled with three separators behind the drive. -/
def tripleItem : LegacyListItem := .newWithActualSize (.ofAscii "C:\\\\\\a") false 0 0 0 0

def tripleSeparator : LegacyList :=
  ((appendBatchIndexed .reference compareUnits 1 .new [tripleItem] (.new 0)).run
    (fun _ _ => (true, ())) ()).1.list

theorem settled_tripleSeparator : Settled .reference tripleSeparator :=
  .append (.new 0) (Runs.of_run (fun _ _ => trivial) _ _)

/-- Its parent ends in two separators. The move goes below it, the new parent has but one, and the
row plans another path than the one it has just got. -/
theorem recordMoveSuccess_unsettled :
    Settled .reference tripleSeparator ∧ tripleSeparator.items[0]? = some tripleItem ∧
      validateWindowsLeafName tripleItem.proposedName = .ok () ∧
      ∃ list' item', tripleSeparator.recordMoveSuccess 2 0 = some (true, list') ∧
        list'.items[0]? = some item' ∧ item'.sourcePath = .ofAscii "C:\\\\a" ∧
        item'.plannedPath = .ofAscii "C:\\a" ∧ item'.plannedChangeKind.isChanged = true ∧
        list'.plannedPathUtf16Units = 5 ∧ pathUnits list'.items = 4 := by
  have hitem : tripleSeparator.items[0]? = some tripleItem := by decide +kernel
  refine ⟨settled_tripleSeparator, hitem, by decide, _, movedItem tripleItem,
    settled_tripleSeparator.tallied.recordMoveSuccess 2 hitem, ?_, ?_, ?_, ?_, ?_, ?_⟩
  all_goals decide +kernel

/-- Of three files the one with the longer name is moved, and comes to rest with exact totals. -/
theorem recordMoveSuccess_settles_threeFiles : ∃ list list' item',
    renamedFiles = some (.changedProposals [1], list) ∧
      list.recordMoveSuccess 5 1 = some (true, list') ∧ list'.items[1]? = some item' ∧
      item'.sourcePath = .ofAscii "C:\\long.txt" ∧ AtRest list' 1 item' ∧ ExactTotals list' := by
  have hoccurs : renamedFiles.map (·.1) = some (.changedProposals [1]) := by decide +kernel
  obtain ⟨⟨outcome, list⟩, hrenamed, rfl⟩ := Option.map_eq_some_iff.1 hoccurs
  have hsecond : ((renamedFiles.bind fun r => r.2.items[1]?).map fun item =>
      (item.plannedPath, settlesOnMove item)) = some (.ofAscii "C:\\long.txt", true) := by
    decide +kernel
  rw [hrenamed, Option.bind_some] at hsecond
  obtain ⟨item, hitem, hvalues⟩ := Option.map_eq_some_iff.1 hsecond
  obtain ⟨hpath, hsettles⟩ := Prod.mk.inj hvalues
  obtain ⟨list', item', hmoved, hitem', hsource, hrest⟩ :=
    recordMoveSuccess_settles (reached_renamedFiles hrenamed).settled 5 1 item hitem
  obtain ⟨hatRest, hexact⟩ := hrest.2 hsettles
  exact ⟨list, list', item', hrenamed, hmoved, hitem', hsource.trans hpath, hatRest, hexact⟩

end DarkReNamer
