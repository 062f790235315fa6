import DarkReNamer.Workbench.LegacyList

/-!
# Destination parents

One parent can be proposed for all rows, and every row can be sent back to the parent it came
from. Both compute the total of the planned paths anew before they write a row.
-/

namespace DarkReNamer

open Interaction

/-- The length of a parent without its trailing separators, and whether one of them belongs to
a root and is kept. -/
def normalizedDestinationParentLen (parent : List UInt16) : ℕ × Bool :=
  let trimmedLen := match rposition (fun unit => !isSeparator unit) parent with
    | none => 0
    | some index => index + 1
  if trimmedLen = parent.length then
    (trimmedLen, false)
  else
    let preservesRootSeparator :=
      trimmedLen == 0 || (parent.take trimmedLen).getLast?.any (· == 58)
    (trimmedLen + if preservesRootSeparator then 1 else 0, preservesRootSeparator)

/-- The normalized parent; a kept separator becomes a backslash. -/
def normalizedDestinationParent (parent : List UInt16) : List UInt16 :=
  let (normalizedLen, preservesRootSeparator) := normalizedDestinationParentLen parent
  let normalized := parent.take normalizedLen
  if preservesRootSeparator ∧ normalized ≠ [] then normalized.dropLast ++ [backslash]
  else normalized

/-- The rows whose destination parent is not the one it is to become. -/
def changedParents : ℕ → List LegacyListItem → List LegacyText → List ℕ
  | row, item :: items, parent :: parents =>
    let later := changedParents (row + 1) items parents
    if item.destinationParent ≠ parent then row :: later else later
  | _, _, _ => []

/-- What `unify` may refuse: the total of the planned paths, and the new parent. -/
def stageUnify (list : LegacyList) (destinationParent : LegacyText) :
    Staging DestinationParentMutationError (ℕ × LegacyText) := do
  let (normalizedLen, _) := normalizedDestinationParentLen destinationParent.units
  validateDestinationParentUnits normalizedLen
  let normalizedUnits := destinationParent.units.take normalizedLen
  let perRowUnits ← okOr DestinationParentMutationError.arithmeticOverflow
    (checkedAdd usizeMax normalizedLen (destinationSeparatorUnits normalizedUnits))
  let requestedUnits ← okOr DestinationParentMutationError.arithmeticOverflow do
    let units ← checkedMul usizeMax perRowUnits list.items.length
    checkedAdd usizeMax units list.proposedNameUtf16Units
  if requestedUnits > maxTotalPlannedPathUtf16Units then
    throw (.plannedPathAggregateBudgetExceeded requestedUnits maxTotalPlannedPathUtf16Units)
  let _ ← tryCloneDestinationParent destinationParent
  reserving .allocationFailed (.tryReserveExact list.items.length)
  return (requestedUnits, ⟨normalizedDestinationParent destinationParent.units⟩)

def writeParent (item : LegacyListItem) (parent : LegacyText) : LegacyListItem :=
  { item with destinationParent := parent }

/-- The total of the planned paths with every row in its source parent. -/
def sourceParentPathUnits :
    List LegacyListItem → ℕ → Except DestinationParentMutationError ℕ
  | [], total => return total
  | item :: items, total => do
    let units ← okOr .arithmeticOverflow
      (checkedPlannedPathUnits (sourceParentUnits item.sourcePath.units) item.proposedName.len)
    let total ← okOr .arithmeticOverflow (checkedAdd usizeMax total units)
    sourceParentPathUnits items total

/-- The source parents of the rows; each is allocated, and counted, when it is first met. -/
def shareParents : List LegacyListItem → List (List UInt16) → ℕ →
    Staging DestinationParentMutationError (List LegacyText)
  | [], _, _ => return []
  | item :: items, shared, aggregateUnits => do
    let sourceParent := sourceParentUnits item.sourcePath.units
    validateDestinationParentUnits sourceParent.length
    if sourceParent ∈ shared then
      let parents ← shareParents items shared aggregateUnits
      return ⟨sourceParent⟩ :: parents
    else
      let aggregateUnits ← okOr DestinationParentMutationError.arithmeticOverflow
        (checkedAdd usizeMax aggregateUnits sourceParent.length)
      if aggregateUnits > maxTotalDestinationParentUtf16Units then
        throw (.aggregateBudgetExceeded aggregateUnits maxTotalDestinationParentUtf16Units)
      let parent ← tryCloneDestinationParentUnits sourceParent
      let parents ← shareParents items (sourceParent :: shared) aggregateUnits
      return parent :: parents

def stageReset (list : LegacyList) :
    Staging DestinationParentMutationError (ℕ × List LegacyText) := do
  let requestedUnits ← sourceParentPathUnits list.items 0
  if requestedUnits > maxTotalPlannedPathUtf16Units then
    throw (.plannedPathAggregateBudgetExceeded requestedUnits maxTotalPlannedPathUtf16Units)
  reserving .allocationFailed (.tryReserve list.items.length)
  reserving .allocationFailed (.tryReserveExact list.items.length)
  reserving .allocationFailed (.tryReserveExact list.items.length)
  let parents ← shareParents list.items [] 0
  return (requestedUnits, parents)

namespace LegacyList

/-- The list with the given parents and total, and the rows this changes. -/
def withParents (list : LegacyList) (requestedUnits : ℕ) (parents : List LegacyText) :
    List ℕ × LegacyList :=
  (changedParents 0 list.items parents,
    { list with
      items := List.zipWith writeParent list.items parents
      plannedPathUtf16Units := requestedUnits })

def unifyDestinationParentChanged (list : LegacyList) (destinationParent : LegacyText) :
    Program Reservation Granted (Except DestinationParentMutationError (List ℕ) × LegacyList) := do
  match ← (stageUnify list destinationParent).run with
  | .error error => return (.error error, list)
  | .ok (requestedUnits, parent) =>
    let (changed, unified) :=
      list.withParents requestedUnits (List.replicate list.items.length parent)
    return (.ok changed, unified)

def resetDestinationParents (list : LegacyList) :
    Program Reservation Granted (Except DestinationParentMutationError (List ℕ) × LegacyList) := do
  match ← (stageReset list).run with
  | .error error => return (.error error, list)
  | .ok (requestedUnits, parents) =>
    let (changed, reset) := list.withParents requestedUnits parents
    return (.ok changed, reset)

end LegacyList

end DarkReNamer
