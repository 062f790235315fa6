import DarkReNamer.Workbench.LegacyList
import DarkReNamer.Workbench.SourceChunks

/-!
# Appending rows

`LegacyAppendIndex` follows the sources of one list. While it is current, duplicates are looked
for in its chunks, else in chunks rebuilt from the rows. Nothing of the list or the index is
written before all sizes have been checked; an insertion into the index that runs out of memory
clears it.
-/

namespace DarkReNamer

open Interaction

/-- A reusable, comparator-bound index for duplicate checks during list append. -/
structure LegacyAppendIndex where
  modelIdentity : Option ℕ
  sourceRevision : ℕ
  chunks : List (List LegacyText)

namespace LegacyAppendIndex

def new : LegacyAppendIndex := ⟨none, 0, []⟩

def isCurrentFor (index : LegacyAppendIndex) (list : LegacyList) : Bool :=
  index.sourceRevision = list.sourceRevision && index.modelIdentity = some list.identity

def bindTo (index : LegacyAppendIndex) (list : LegacyList) : LegacyAppendIndex :=
  { index with modelIdentity := some list.identity, sourceRevision := list.sourceRevision }

def clearBinding (_ : LegacyAppendIndex) : LegacyAppendIndex := ⟨none, 0, []⟩

end LegacyAppendIndex

/-- An incoming row with its position in the batch. -/
abbrev Accepted : Type := ℕ × LegacyListItem

/-- What an append has computed when it starts to write. -/
structure StagedAppend where
  rebuilt : Option (List (List LegacyText))
  accepted : List Accepted
  units : StagedUnits
  sources : List LegacyText

section Append

variable (alg : Slices.Algorithms) (compareText : LegacyText → LegacyText → Ordering)

def cloneSources : List LegacyListItem → Staging ProposalMutationError (List LegacyText)
  | [] => return []
  | item :: items => do
    let source ← tryCloneText item.sourcePath
    let sources ← cloneSources items
    return source :: sources

/-- The chunks of the sources of a list. -/
def rebuildChunks (items : List LegacyListItem) :
    Staging ProposalMutationError (List (List LegacyText)) := do
  reserving .allocationFailed (.tryReserveExact items.length)
  let sources ← cloneSources items
  tryChunkSortedSources (alg.sortUnstableBy compareText sources)

/-- The incoming rows whose sources `chunks` does not contain, numbered from `position`. -/
def acceptRows (chunks : List (List LegacyText)) :
    ℕ → List LegacyListItem → Staging ProposalMutationError (List Accepted)
  | _, [] => return []
  | position, item :: items => do
    if sourceChunksContain alg compareText chunks item.sourcePath then
      acceptRows chunks position items
    else
      reserving .allocationFailed (.tryReserve 1)
      let accepted ← acceptRows chunks (position + 1) items
      return (position, item) :: accepted

/-- By source; equal sources in descending order of their positions. -/
def compareAccepted (left right : Accepted) : Ordering :=
  (compareText left.2.sourcePath right.2.sourcePath).then (compare right.1 left.1)

/-- The totals after rows are appended to `length` others, the first as number `batchRow`. -/
def appendedUnits (length : ℕ) :
    ℕ → List LegacyListItem → StagedUnits → Except ProposalMutationError StagedUnits
  | _, [], units => return units
  | batchRow, item :: items, units => do
    let row ← okOr .arithmeticOverflow (checkedAdd usizeMax length batchRow)
    validateProposalUnits row item.proposedName.len
    let names ← okOr .arithmeticOverflow
      (checkedAdd usizeMax units.names item.proposedName.len)
    let pathUnits ← okOr .arithmeticOverflow
      (checkedPlannedPathUnits item.destinationParent.units item.proposedName.len)
    let paths ← okOr .arithmeticOverflow (checkedAdd usizeMax units.paths pathUnits)
    appendedUnits length (batchRow + 1) items ⟨names, paths⟩

/-- The checks of the totals of an append. -/
def validateAppend (list : LegacyList) (items : List LegacyListItem) :
    Except ProposalMutationError StagedUnits := do
  let units ← appendedUnits list.items.length 0 items
    ⟨list.proposedNameUtf16Units, list.plannedPathUtf16Units⟩
  if units.names > maxTotalProposedNameUtf16Units then
    throw (.aggregateBudgetExceeded units.names maxTotalProposedNameUtf16Units)
  if units.paths > maxTotalPlannedPathUtf16Units then
    throw (.plannedPathAggregateBudgetExceeded units.paths maxTotalPlannedPathUtf16Units)
  return units

/-- The chunks to look in, and those rebuilt for it when the index is not current. -/
def currentChunks (index : LegacyAppendIndex) (list : LegacyList) :
    Staging ProposalMutationError (Option (List (List LegacyText))) := do
  if index.isCurrentFor list then return none
  else return some (← rebuildChunks alg compareText list.items)

/-- All that may be refused before anything is written; `none` where no row is accepted. -/
def stageAppend (index : LegacyAppendIndex) (items : List LegacyListItem) (list : LegacyList) :
    Staging ProposalMutationError (Option (List (List LegacyText)) × Option StagedAppend) := do
  let rebuilt ← currentChunks alg compareText index list
  let accepted ← acceptRows alg compareText (rebuilt.getD index.chunks) 0 items
  if accepted.isEmpty then
    return (rebuilt, none)
  let accepted := alg.sortUnstableBy (compareAccepted compareText) accepted
  let units ← validateAppend list (accepted.map (·.2))
  reserving .allocationFailed (.tryReserveExact accepted.length)
  let sources ← cloneSources (accepted.map (·.2))
  reserving .allocationFailed (.tryReserveExact accepted.length)
  return (rebuilt, some ⟨rebuilt, accepted, units, sources⟩)

/-- The list and the index that an append leaves, with the number of rows it added. -/
structure Appended where
  result : Except ProposalMutationError ℕ
  index : LegacyAppendIndex
  list : LegacyList

/-- Writes a staged append. -/
def commitAppend (fresh : ℕ) (index : LegacyAppendIndex) (staged : StagedAppend)
    (list : LegacyList) : Program Reservation Granted Appended := do
  let chunks := staged.rebuilt.getD index.chunks
  match ← (insertSources alg compareText chunks staged.sources).run with
  | .error error => return ⟨.error error, index.clearBinding, list⟩
  | .ok chunks =>
    let extended : LegacyList :=
      { list.invalidateSourceIndex fresh with
        items := list.items ++ staged.accepted.map (·.2)
        proposedNameUtf16Units := staged.units.names
        plannedPathUtf16Units := staged.units.paths }
    return ⟨.ok staged.accepted.length, { index with chunks := chunks }.bindTo extended, extended⟩

def appendBatchIndexed (fresh : ℕ) (index : LegacyAppendIndex) (items : List LegacyListItem)
    (list : LegacyList) : Program Reservation Granted Appended := do
  match ← (stageAppend alg compareText index items list).run with
  | .error error => return ⟨.error error, index, list⟩
  | .ok (none, none) => return ⟨.ok 0, index, list⟩
  | .ok (some rebuilt, none) => return ⟨.ok 0, { index with chunks := rebuilt }.bindTo list, list⟩
  | .ok (_, some staged) => commitAppend alg compareText fresh index staged list

end Append

end DarkReNamer
