import DarkReNamer.Workbench.MoveRows
import DarkReNamer.Workbench.Moved
import DarkReNamer.Workbench.Renaming
import DarkReNamer.Workbench.Reparented
import DarkReNamer.Workbench.Sort.Correct

/-!
# What a command can do

Every command, from a list with exact totals, ends in one of a few ways: it is refused or finds
nothing to do, it permutes, renames or reparents the rows, it removes rows, or it records a
move. Only the last two make an index stale, and only the last may leave a total that is no
longer exact. Later proofs are case analyses over `Change`.
-/

namespace DarkReNamer

open Interaction LegacyList

/-- The outcomes that are no error and report no rows as changed. -/
def Outcome.isPlain : Outcome → Bool
  | .changed _ | .count _ | .moved _ => true
  | _ => false

/-- Other names at the reported rows, shorter ones or some within the budgets. -/
structure RenamedRows (list : LegacyList) (items : List LegacyListItem) (rows : List ℕ) :
    Prop where
  renames : Renames list.items items
  rows_eq : rows = differingRows (·.proposedName) list.items items
  paths_le : pathUnits items ≤ max (pathUnits list.items) maxTotalPlannedPathUtf16Units
  budget : list.Exact → RenamedTo list items rows

/-- What a command leaves of `list`, with the outcome it returns. -/
inductive Change (fresh : ℕ) (list : LegacyList) (command : Command) : Outcome → LegacyList → Prop
  | refused {outcome : Outcome} (h : outcome.isError = true) :
      Change fresh list command outcome list
  | idle {outcome : Outcome}
      (h : outcome.isPlain = true ∨ outcome = .changedProposals []) :
      Change fresh list command outcome list
  | reordered {outcome : Outcome} {items : List LegacyListItem} (h : outcome.isPlain = true)
      (perm : items.Perm list.items) : Change fresh list command outcome (list.withItems items)
  | renamed {outcome : Outcome} {items : List LegacyListItem} {rows : List ℕ}
      (h : outcome.isPlain = true ∨ outcome = .changedProposals rows)
      (renames : RenamedRows list items rows) :
      Change fresh list command outcome (list.withItems items)
  | reparented {f : LegacyListItem → LegacyText}
      (paths_le : pathUnits (reparented f list.items) ≤ maxTotalPlannedPathUtf16Units) :
      Change fresh list command (.changedParents
        (differingRows (·.destinationParent) list.items (DarkReNamer.reparented f list.items)))
        (list.withItems (DarkReNamer.reparented f list.items))
  | removed {outcome : Outcome} {items : List LegacyListItem} (h : outcome.isPlain = true)
      (sublist : items.Sublist list.items) :
      Change fresh list command outcome ((list.withItems items).invalidateSourceIndex fresh)
  | moved {index : ℕ} {item : LegacyListItem} (hcommand : command = .recordMoveSuccess index)
      (hitem : list.items[index]? = some item) :
      Change fresh list command (.changed true)
        ((list.movedAt index item).invalidateSourceIndex fresh)

/-- A program that ends, without leaving `usize` or the rows, in a change of the list. -/
abbrev HasChange (fresh : ℕ) (list : LegacyList) (command : Command)
    (program : Program Reservation Granted (Option (Outcome × LegacyList))) : Prop :=
  Confined (fun _ => True)
    (fun r => ∃ outcome list', r = some (outcome, list') ∧
      Change fresh list command outcome list') program

section

variable {fresh : ℕ} {list : LegacyList} {command : Command}

theorem HasChange.performed {α : Type} {outcome : α → Outcome} {a : α} {l : LegacyList}
    {result : Option (α × LegacyList)} (h : result = some (a, l))
    (hchange : Change fresh list command (outcome a) l) :
    HasChange fresh list command (performed outcome result) := by
  subst h
  exact ⟨outcome a, l, rfl, hchange⟩

theorem RenamedRows.of_within {items : List LegacyListItem} {rows : List ℕ}
    (h : RenamedTo list items rows) : RenamedRows list items rows :=
  ⟨h.renames, h.rows_eq, h.paths_le.trans (le_max_right _ _), fun _ => h⟩

/-- A renaming that finds nothing to do, or that may be refused. -/
def Attempts (list : LegacyList) (r : Except ProposalMutationError (List ℕ) × LegacyList) :
    Prop :=
  r = (.ok [], list) ∨ RenamesOrRefuses list r

theorem HasChange.ofProposals
    {program : Program Reservation Granted (Except ProposalMutationError (List ℕ) × LegacyList)}
    (h : Confined (fun _ => True) (Attempts list) program) :
    HasChange fresh list command (attempted .ofProposals program) := by
  refine Confined.bind h ?_
  rintro ⟨result, list'⟩ hr
  refine ⟨.ofProposals result, list', rfl, ?_⟩
  rcases hr with hidle | hr
  · cases hidle
    exact .idle (.inr rfl)
  · cases result with
    | error error =>
        obtain rfl : list' = list := hr
        exact .refused rfl
    | ok rows =>
        obtain ⟨items, hrenamed, hlist⟩ := hr
        obtain rfl : list' = list.withItems items := hlist
        exact .renamed (.inr rfl) (.of_within hrenamed)

theorem HasChange.renames
    {program : Program Reservation Granted (Except ProposalMutationError (List ℕ) × LegacyList)}
    (h : Confined (fun _ => True) (RenamesOrRefuses list) program) :
    HasChange fresh list command (attempted .ofProposals program) :=
  .ofProposals (h.mono fun _ => .inr)

theorem HasChange.ofParents {program :
      Program Reservation Granted (Except DestinationParentMutationError (List ℕ) × LegacyList)}
    (h : Confined (fun _ => True) (ReparentsOrRefuses list) program) :
    HasChange fresh list command (attempted .ofParents program) := by
  refine Confined.bind h ?_
  rintro ⟨result, list'⟩ hr
  refine ⟨.ofParents result, list', rfl, ?_⟩
  cases result with
  | error error =>
      obtain rfl : list' = list := hr
      exact .refused rfl
  | ok rows =>
      obtain ⟨f, hle, hrows, hlist⟩ := hr
      obtain rfl : list' = list.withItems (reparented f list.items) := hlist
      obtain rfl : rows = _ := hrows
      exact .reparented hle

/-- A transform that cannot fail. -/
theorem change_changedProposals {proposal : LegacyListItem → LegacyText}
    (hshort : ∀ item, (proposal item).len ≤ item.proposedName.len) {outcome : Outcome}
    (houtcome : outcome = .changedProposals
      (differingRows (·.proposedName) list.items (renamed proposal list.items))) :
    Change fresh list command outcome (list.withItems (renamed proposal list.items)) :=
  .renamed (.inr houtcome) ⟨Renames.map _ _, rfl,
    (pathUnits_renamed_le hshort _).trans (le_max_left _ _), fun h => .of_shorter h hshort⟩

/-- A name set by hand. -/
theorem renamedRows_manual {front back : List LegacyListItem} {current : LegacyListItem}
    {name : LegacyText} (hsplit : list.items = front ++ current :: back)
    (hname : name.len ≤ maxProposedNameUtf16Units)
    (hnames : nameUnits (front ++ { current with proposedName := name } :: back) ≤
      maxTotalProposedNameUtf16Units)
    (hpaths : pathUnits (front ++ { current with proposedName := name } :: back) ≤
      maxTotalPlannedPathUtf16Units) :
    RenamedRows list (front ++ { current with proposedName := name } :: back)
      (differingRows (·.proposedName) list.items
        (front ++ { current with proposedName := name } :: back)) where
  renames := by
    rw [hsplit]
    exact List.rel_append (Renames.refl front) (.cons rfl (Renames.refl back))
  rows_eq := rfl
  paths_le := hpaths.trans (le_max_right _ _)
  budget h :=
    { renames := by
        rw [hsplit]
        exact List.rel_append (Renames.refl front) (.cons rfl (Renames.refl back))
      len_le := by
        intro item hitem
        rcases List.mem_append.1 hitem with hitem | hitem
        · exact h.name_le item (by simp [hsplit, hitem])
        · rcases List.mem_cons.1 hitem with rfl | hitem
          · exact hname
          · exact h.name_le item (by simp [hsplit, hitem])
      names_le := hnames
      paths_le := hpaths
      rows_eq := rfl }

theorem refused_spec (list : LegacyList) (error : ProposalMutationError) :
    Confined (fun _ => True) (RenamesOrRefuses list) (list.refused error) := rfl

theorem padDigitRunChanged_spec (list : LegacyList) (width : ℕ)
    (findRun : List UInt16 → Option (ℕ × ℕ)) :
    Confined (fun _ => True) (RenamesOrRefuses list) (list.padDigitRunChanged width findRun) := by
  unfold padDigitRunChanged
  split
  · exact refused_spec list _
  · exact list.tryChangedProposals_spec _

theorem addSequenceByChanged_spec (list : LegacyList) (width : ℕ) (start : Int32)
    (mode : LegacySequenceMode) (compareText : LegacyText → LegacyText → Ordering) :
    Confined (fun _ => True) (RenamesOrRefuses list)
      (list.addSequenceByChanged width start mode compareText) := by
  unfold addSequenceByChanged
  split
  · exact refused_spec list _
  · exact list.tryChangedProposalsOptional_spec _ _

theorem withNormalizedExtension_spec (list : LegacyList) (extension : LegacyText)
    (proposal : LegacyText → ℕ → LegacyListItem → Staging ProposalMutationError LegacyText) :
    Confined (fun _ => True) (Attempts list)
      (list.withNormalizedExtension extension proposal) := by
  unfold withNormalizedExtension
  refine Confined.bind (stages_any _) fun r _ => ?_
  cases r with
  | error error => exact (refused_spec list error).mono fun _ => .inr
  | ok extension =>
      cases extension with
      | none => exact .inl rfl
      | some extension => exact (list.tryChangedProposals_spec _).mono fun _ => .inr

end

theorem perform_hasChange (alg : Slices.Algorithms) (fresh : ℕ) {list : LegacyList}
    (h : Tallied list) (command : Command) :
    HasChange fresh list command (command.perform alg fresh list) := by
  cases command with
  | clear =>
      refine HasChange.performed (a := (list.clear fresh).1) (l := (list.clear fresh).2) rfl ?_
      unfold clear
      dsimp only
      split
      · rename_i hempty
        have hself := h.withItems_eq
        rw [List.isEmpty_iff.1 hempty] at hself
        have hsame : { list with
            items := [], proposedNameUtf16Units := 0, plannedPathUtf16Units := 0 } = list := hself
        rw [hsame]
        exact .idle (.inl rfl)
      · exact .removed rfl (List.nil_sublist _)
  | removeRows selected =>
      rcases removeRows_spec h fresh selected with hidle | ⟨count, items, hsub, hremoved⟩
      · exact HasChange.performed hidle (.idle (.inl rfl))
      · exact HasChange.performed hremoved (.removed rfl hsub)
  | moveRowsEarlier selected =>
      obtain ⟨outcome, items, hperm, hmoved⟩ := list.moveRowsEarlierChanged_perm selected
      rw [withItems_of_perm h hperm] at hmoved
      exact HasChange.performed hmoved (.reordered rfl hperm)
  | moveRowsLater selected =>
      obtain ⟨outcome, items, hperm, hmoved⟩ := list.moveRowsLaterChanged_perm selected
      rw [withItems_of_perm h hperm] at hmoved
      exact HasChange.performed hmoved (.reordered rfl hperm)
  | resetProposals => exact .renames (list.tryChangedProposals_spec _)
  | manualChange index name =>
      refine HasChange.performed (a := (list.setManualProposal index name).1)
        (l := (list.setManualProposal index name).2) rfl ?_
      rcases setManualProposal_spec h index name with
        hsame | ⟨isChanged, front, current, back, hsplit, hname, hnames, hpaths, heq⟩
      · rw [hsame]
        cases (list.setManualProposal index name).1 with
        | error error => exact .refused rfl
        | ok isChanged => exact .idle (.inl rfl)
      · rw [heq]
        exact .renamed (.inl rfl) (renamedRows_manual hsplit hname hnames hpaths)
  | recordMoveSuccess index =>
      cases hitem : list.items[index]? with
      | none =>
          refine HasChange.performed (a := false) (l := list) ?_ (.idle (.inl rfl))
          simp [recordMoveSuccess, hitem]
      | some item => exact HasChange.performed (h.recordMoveSuccess fresh hitem) (.moved rfl hitem)
  | replaceComplete source target =>
      exact .renames (list.tryChangedProposalsOptional_spec _ _)
  | prefixComplete front =>
      refine .ofProposals ?_
      unfold prefixCompleteChanged
      split
      · exact .inl rfl
      · exact (list.tryChangedProposals_spec _).mono fun _ => .inr
  | suffixBeforeExtension suffix =>
      refine .ofProposals ?_
      unfold suffixBeforeExtensionChanged
      split
      · exact .inl rfl
      · exact (list.tryChangedProposals_spec _).mono fun _ => .inr
  | clearName =>
      exact HasChange.performed (changedProposals_eq h clearNameProposal_len_le)
        (change_changedProposals clearNameProposal_len_le rfl)
  | deleteFrontRange start finish =>
      by_cases hzero : start = 0 ∧ finish = 0
      · exact HasChange.performed (if_pos hzero) (.idle (.inr rfl))
      by_cases hreversed : finish > 0 ∧ max start 1 > finish
      · exact HasChange.performed ((if_neg hzero).trans (if_pos hreversed)) (.refused rfl)
      have hshort (item : LegacyListItem) :=
        deleteFrontRangeProposal_len_le item (max start 1) finish (by omega)
      refine HasChange.performed (a := .ok _)
        ((if_neg hzero).trans ((if_neg hreversed).trans ?_))
        (change_changedProposals hshort rfl)
      rw [changedProposals_eq h hshort]
      rfl
  | deleteLast count =>
      by_cases hzero : count = 0
      · exact HasChange.performed (if_pos hzero) (.idle (.inr rfl))
      · have hshort (item : LegacyListItem) := deleteLastProposal_len_le item count
        exact HasChange.performed ((if_neg hzero).trans (changedProposals_eq h hshort))
          (change_changedProposals hshort rfl)
  | deleteFirstDelimited start finish =>
      cases hstart : start.units.head? with
      | none =>
          refine HasChange.performed (a := .error .emptyDelimiter) (l := list) ?_ (.refused rfl)
          simp [deleteFirstDelimitedChanged, hstart]
      | some startUnit =>
          cases hfinish : finish.units.head? with
          | none =>
              refine HasChange.performed (a := .error .emptyDelimiter) (l := list) ?_
                (.refused rfl)
              simp [deleteFirstDelimitedChanged, hstart, hfinish]
          | some finishUnit =>
              have hshort (item : LegacyListItem) :=
                deleteFirstDelimitedProposal_len_le item startUnit finishUnit
              refine HasChange.performed (a := .ok _) ?_ (change_changedProposals hshort rfl)
              simp [deleteFirstDelimitedChanged, hstart, hfinish, changedProposals_eq h hshort]
  | keepAsciiDigits =>
      exact HasChange.performed (changedProposals_eq h keepAsciiDigitsProposal_len_le)
        (change_changedProposals keepAsciiDigitsProposal_len_le rfl)
  | padLastDigitRun width => exact .renames (padDigitRunChanged_spec list width _)
  | padFirstDigitRun width => exact .renames (padDigitRunChanged_spec list width _)
  | addSequence width start mode compareText =>
      exact .renames (addSequenceByChanged_spec list width start mode compareText)
  | deleteExtension =>
      exact HasChange.performed (changedProposals_eq h deleteExtensionProposal_len_le)
        (change_changedProposals deleteExtensionProposal_len_le rfl)
  | addExtension extension => exact .ofProposals (withNormalizedExtension_spec list extension _)
  | replaceExtension extension => exact .ofProposals (withNormalizedExtension_spec list extension _)
  | prefixParentFolder => exact .renames (list.tryChangedProposals_spec _)
  | suffixParentFolder => exact .renames (list.tryChangedProposals_spec _)
  | unifyDestinationParent parent =>
      exact .ofParents (unifyDestinationParentChanged_spec h.names parent)
  | resetDestinationParents => exact .ofParents (resetDestinationParents_spec h.names)
  | sort mode semantics compareText =>
      obtain ⟨outcome, items, hperm, hsorted⟩ :=
        sortByWithSemanticsChanged_spec alg list mode semantics compareText
      rw [withItems_of_perm h hperm] at hsorted
      exact HasChange.performed hsorted (.reordered rfl hperm)
  | importNames text => exact .renames (list.tryChangedProposalsOptional_spec _ _)

end DarkReNamer
