import DarkReNamer.Workbench.Append
import DarkReNamer.Workbench.Parents
import DarkReNamer.Workbench.Sort

/-!
# The commands of the list

Every public operation that may change a list, as a program that asks the allocator. The
operations that return less are these with part of their result dropped, and those that take no
index use a new one.
-/

namespace DarkReNamer

open Interaction

/-- Placement and parent-folder reset behavior for legacy sequence numbering. -/
inductive LegacySequenceMode where
  | append
  | prepend
  | appendRestartPerFolder
  | prependRestartPerFolder
  deriving DecidableEq

namespace LegacySequenceMode

def restarts : LegacySequenceMode → Bool
  | .appendRestartPerFolder | .prependRestartPerFolder => true
  | _ => false

def appends : LegacySequenceMode → Bool
  | .append | .appendRestartPerFolder => true
  | _ => false

end LegacySequenceMode

/-- The number of a row and the counter after it. -/
def sequenceProposal (width : ℕ) (start : Int32) (mode : LegacySequenceMode)
    (compareText : LegacyText → LegacyText → Ordering) : Proposal Int32 :=
  fun current items row item => do
    let isRestart := row > 0 && mode.restarts && (items[row - 1]?).any fun previous =>
      compareText previous.destinationParent item.destinationParent != .eq
    let current := if isRestart then start else current
    let (stem, extension) := stemExtensionUnits item
    let value := (LegacyText.ofAscii (toString current.toInt)).units
    let numberUnits := max width value.length
    let requestedUnits ← checkedSum [stem.length, numberUnits, extension.length]
    let number := List.replicate (numberUnits - value.length) digitZero ++ value
    let proposal ← tryBuildProposal row requestedUnits
      ((if mode.appends then stem ++ number else number ++ stem) ++ extension)
    return (some proposal, current + 1)

namespace LegacyList

variable (list : LegacyList)

abbrev Renaming : Type :=
  Program Reservation Granted (Except ProposalMutationError (List ℕ) × LegacyList)

/-- A command that is refused before it looks at the rows. -/
def refused (error : ProposalMutationError) : Renaming := return (.error error, list)

def resetProposalsChanged : Renaming :=
  list.tryChangedProposals fun _ item => tryCloneText item.currentName

def replaceCompleteChanged (source target : LegacyText) : Renaming :=
  list.tryChangedProposalsOptional () fun _ _ row item => do
    return (← replacedUnits row item.proposedName.units source.units target.units, ())

def prefixCompleteChanged (front : LegacyText) : Renaming :=
  if front.isEmpty then
    return (.ok [], list)
  else
    list.tryChangedProposals fun row item => do
      let requestedUnits ← checkedSum [front.len, item.proposedName.len]
      tryBuildProposal row requestedUnits (front.units ++ item.proposedName.units)

def suffixBeforeExtensionChanged (suffix : LegacyText) : Renaming :=
  if suffix.isEmpty then
    return (.ok [], list)
  else
    list.tryChangedProposals fun row item => do
      let (stem, extension) := stemExtensionUnits item
      let requestedUnits ← checkedSum [stem.length, suffix.len, extension.length]
      tryBuildProposal row requestedUnits (stem ++ suffix.units ++ extension)

def clearNameChanged : Option (List ℕ × LegacyList) := list.changedProposals clearNameProposal

def deleteFrontRangeChanged (start finish : ℕ) :
    Option (Except LegacyInputError (List ℕ) × LegacyList) :=
  if start = 0 ∧ finish = 0 then
    some (.ok [], list)
  else if finish > 0 ∧ max start 1 > finish then
    some (.error .reversedPositionRange, list)
  else do
    let (changed, list) ← list.changedProposals (deleteFrontRangeProposal (max start 1) finish)
    some (.ok changed, list)

def deleteLastChanged (count : ℕ) : Option (List ℕ × LegacyList) :=
  if count = 0 then some ([], list) else list.changedProposals (deleteLastProposal count)

def deleteFirstDelimitedChanged (start finish : LegacyText) :
    Option (Except LegacyInputError (List ℕ) × LegacyList) :=
  match start.units.head?, finish.units.head? with
  | some start, some finish => do
    let (changed, list) ← list.changedProposals (deleteFirstDelimitedProposal start finish)
    some (.ok changed, list)
  | _, _ => some (.error .emptyDelimiter, list)

def keepAsciiDigitsChanged : Option (List ℕ × LegacyList) :=
  list.changedProposals keepAsciiDigitsProposal

/-- The checks of a digit width, before any row is looked at. -/
def validateWidth (width : ℕ) : Except ProposalMutationError Unit :=
  if width = 0 then .error (.invalidInput .nonPositiveWidth) else validateProposalUnits 0 width

def padDigitRunChanged (width : ℕ) (findRun : List UInt16 → Option (ℕ × ℕ)) : Renaming :=
  match validateWidth width with
  | .error error => list.refused error
  | .ok () => list.tryChangedProposals fun row item =>
      paddedDigitRunProposal item row width findRun

def padLastDigitRunChanged (width : ℕ) : Renaming := list.padDigitRunChanged width lastDigitRun

def padFirstDigitRunChanged (width : ℕ) : Renaming := list.padDigitRunChanged width firstDigitRun

def addSequenceByChanged (width : ℕ) (start : Int32) (mode : LegacySequenceMode)
    (compareText : LegacyText → LegacyText → Ordering) : Renaming :=
  match validateWidth width with
  | .error error => list.refused error
  | .ok () =>
    list.tryChangedProposalsOptional (max start 0)
      (sequenceProposal width (max start 0) mode compareText)

def deleteExtensionChanged : Option (List ℕ × LegacyList) :=
  list.changedProposals deleteExtensionProposal

/-- Changes the names with an extension, unless it is empty or refused. -/
def withNormalizedExtension (extension : LegacyText)
    (proposal : LegacyText → ℕ → LegacyListItem → Staging ProposalMutationError LegacyText) :
    Renaming := do
  match ← (tryNormalizedExtension extension).run with
  | .error error => list.refused error
  | .ok none => return (.ok [], list)
  | .ok (some extension) => list.tryChangedProposals (proposal extension)

def addExtensionChanged (extension : LegacyText) : Renaming :=
  list.withNormalizedExtension extension fun extension row item => do
    let requestedUnits ← checkedSum [item.proposedName.len, extension.len]
    tryBuildProposal row requestedUnits (item.proposedName.units ++ extension.units)

def replaceExtensionChanged (extension : LegacyText) : Renaming :=
  list.withNormalizedExtension extension fun extension row item => do
    let (stem, _) := stemExtensionUnits item
    let requestedUnits ← checkedSum [stem.length, extension.len]
    tryBuildProposal row requestedUnits (stem ++ extension.units)

def prefixParentFolderChanged : Renaming :=
  list.tryChangedProposals fun row item =>
    match parentFolderUnits item.destinationParent with
    | some folder => do
      let requestedUnits ← checkedSum [folder.length, 1, item.proposedName.len]
      tryBuildProposal row requestedUnits (folder ++ underscore :: item.proposedName.units)
    | none => tryBuildProposal row item.proposedName.len item.proposedName.units

def suffixParentFolderChanged : Renaming :=
  list.tryChangedProposals fun row item =>
    match parentFolderUnits item.destinationParent with
    | some folder => do
      let (stem, extension) := stemExtensionUnits item
      let requestedUnits ← checkedSum [stem.length, 1, folder.length, extension.length]
      tryBuildProposal row requestedUnits (stem ++ underscore :: folder ++ extension)
    | none => tryBuildProposal row item.proposedName.len item.proposedName.units

/-- Imports names in list order; a row without a line keeps its name. -/
def importNamesChanged (text : LegacyText) : Renaming :=
  list.tryChangedProposalsOptional
    ((trimmedImportUnitSlices text).take list.items.length)
    fun lines _ row item =>
      match lines with
      | [] => do
        let proposal ← tryBuildProposal row item.proposedName.len item.proposedName.units
        return (some proposal, [])
      | units :: lines => do
        let proposal ← tryBuildProposal row units.length units
        return (some proposal, lines)

end LegacyList

/-- What a command returns. -/
inductive Outcome where
  | changed (isChanged : Bool)
  | count (rows : ℕ)
  | changedProposals (rows : List ℕ)
  | changedParents (rows : List ℕ)
  | moved (outcome : MoveRowsOutcome)
  | invalidInput (error : LegacyInputError)
  | proposalError (error : ProposalMutationError)
  | parentError (error : DestinationParentMutationError)
  deriving DecidableEq

namespace Outcome

def isError : Outcome → Bool
  | .invalidInput _ | .proposalError _ | .parentError _ => true
  | _ => false

def ofProposals : Except ProposalMutationError (List ℕ) → Outcome
  | .ok rows => .changedProposals rows
  | .error error => .proposalError error

def ofInput : Except LegacyInputError (List ℕ) → Outcome
  | .ok rows => .changedProposals rows
  | .error error => .invalidInput error

def ofParents : Except DestinationParentMutationError (List ℕ) → Outcome
  | .ok rows => .changedParents rows
  | .error error => .parentError error

def ofManual : Except ProposalMutationError (Option Bool) → Outcome
  | .ok isChanged => .changed (isChanged.getD false)
  | .error error => .proposalError error

end Outcome

inductive Command where
  | clear
  | removeRows (selected : List ℕ)
  | moveRowsEarlier (selected : List ℕ)
  | moveRowsLater (selected : List ℕ)
  | resetProposals
  | manualChange (index : ℕ) (proposedName : LegacyText)
  | recordMoveSuccess (index : ℕ)
  | replaceComplete (source target : LegacyText)
  | prefixComplete (front : LegacyText)
  | suffixBeforeExtension (suffix : LegacyText)
  | clearName
  | deleteFrontRange (start finish : ℕ)
  | deleteLast (count : ℕ)
  | deleteFirstDelimited (start finish : LegacyText)
  | keepAsciiDigits
  | padLastDigitRun (width : ℕ)
  | padFirstDigitRun (width : ℕ)
  | addSequence (width : ℕ) (start : Int32) (mode : LegacySequenceMode)
      (compareText : LegacyText → LegacyText → Ordering)
  | deleteExtension
  | addExtension (extension : LegacyText)
  | replaceExtension (extension : LegacyText)
  | prefixParentFolder
  | suffixParentFolder
  | unifyDestinationParent (destinationParent : LegacyText)
  | resetDestinationParents
  | sort (mode : LegacySortMode) (semantics : SortSemantics)
      (compareText : LegacyText → LegacyText → Ordering)
  | importNames (text : LegacyText)

/-- A command that asks nothing of the allocator. -/
def performed {α : Type} (outcome : α → Outcome) (result : Option (α × LegacyList)) :
    Program Reservation Granted (Option (Outcome × LegacyList)) :=
  return result.map fun r => (outcome r.1, r.2)

/-- A command that may be refused. -/
def attempted {ε : Type} (outcome : Except ε (List ℕ) → Outcome)
    (program : Program Reservation Granted (Except ε (List ℕ) × LegacyList)) :
    Program Reservation Granted (Option (Outcome × LegacyList)) := do
  let (result, list) ← program
  return some (outcome result, list)

/-- Performs a command; `fresh` is the identity that a new one would be given. -/
def Command.perform (alg : Slices.Algorithms) (fresh : ℕ) (list : LegacyList) :
    Command → Program Reservation Granted (Option (Outcome × LegacyList))
  | .clear => performed .changed (some (list.clear fresh))
  | .removeRows selected => performed .count (list.removeRows fresh selected)
  | .moveRowsEarlier selected => performed .moved (list.moveRowsEarlierChanged selected)
  | .moveRowsLater selected => performed .moved (list.moveRowsLaterChanged selected)
  | .resetProposals => attempted .ofProposals list.resetProposalsChanged
  | .manualChange index proposedName =>
      performed .ofManual (some (list.setManualProposal index proposedName))
  | .recordMoveSuccess index => performed .changed (list.recordMoveSuccess fresh index)
  | .replaceComplete source target =>
      attempted .ofProposals (list.replaceCompleteChanged source target)
  | .prefixComplete front => attempted .ofProposals (list.prefixCompleteChanged front)
  | .suffixBeforeExtension suffix =>
      attempted .ofProposals (list.suffixBeforeExtensionChanged suffix)
  | .clearName => performed .changedProposals list.clearNameChanged
  | .deleteFrontRange start finish =>
      performed .ofInput (list.deleteFrontRangeChanged start finish)
  | .deleteLast count => performed .changedProposals (list.deleteLastChanged count)
  | .deleteFirstDelimited start finish =>
      performed .ofInput (list.deleteFirstDelimitedChanged start finish)
  | .keepAsciiDigits => performed .changedProposals list.keepAsciiDigitsChanged
  | .padLastDigitRun width => attempted .ofProposals (list.padLastDigitRunChanged width)
  | .padFirstDigitRun width => attempted .ofProposals (list.padFirstDigitRunChanged width)
  | .addSequence width start mode compareText =>
      attempted .ofProposals (list.addSequenceByChanged width start mode compareText)
  | .deleteExtension => performed .changedProposals list.deleteExtensionChanged
  | .addExtension extension => attempted .ofProposals (list.addExtensionChanged extension)
  | .replaceExtension extension => attempted .ofProposals (list.replaceExtensionChanged extension)
  | .prefixParentFolder => attempted .ofProposals list.prefixParentFolderChanged
  | .suffixParentFolder => attempted .ofProposals list.suffixParentFolderChanged
  | .unifyDestinationParent parent =>
      attempted .ofParents (list.unifyDestinationParentChanged parent)
  | .resetDestinationParents => attempted .ofParents list.resetDestinationParents
  | .sort mode semantics compareText =>
      performed .changed (list.sortByWithSemanticsChanged alg mode semantics compareText)
  | .importNames text => attempted .ofProposals (list.importNamesChanged text)

end DarkReNamer
