import DarkReNamer.Core.NatSets
import DarkReNamer.Workbench.Names

/-!
# The list

`LegacyList` keeps its rows, the total lengths of their proposed names and planned paths, and
what tells an append index whether the set of sources is still the one it knows: an identity,
which no other list shares, and a revision. `none` stands for arithmetic that leaves `usize`,
and for an index outside the rows.
-/

namespace DarkReNamer

open Interaction

/-- Ordered, cumulative list state. -/
structure LegacyList where
  items : List LegacyListItem
  proposedNameUtf16Units : ℕ
  plannedPathUtf16Units : ℕ
  identity : ℕ
  sourceRevision : ℕ
  deriving DecidableEq

namespace LegacyList

/-- An empty list. `fresh` is the identity that the allocation of its own one gives it. -/
def new (fresh : ℕ) : LegacyList := ⟨[], 0, 0, fresh, 0⟩

/-- A copy of the rows and totals, with an identity of its own. -/
def clone (list : LegacyList) (fresh : ℕ) : LegacyList :=
  { list with identity := fresh, sourceRevision := 0 }

/-- Makes every index bound to the sources so far stale. -/
def invalidateSourceIndex (list : LegacyList) (fresh : ℕ) : LegacyList :=
  match checkedAdd u64Max list.sourceRevision 1 with
  | some next => { list with sourceRevision := next }
  | none => { list with identity := fresh, sourceRevision := 0 }

def clear (list : LegacyList) (fresh : ℕ) : Bool × LegacyList :=
  let cleared :=
    { list with items := [], proposedNameUtf16Units := 0, plannedPathUtf16Units := 0 }
  if list.items.isEmpty then (false, cleared) else (true, cleared.invalidateSourceIndex fresh)

/-- The selected rows that exist, each once and in order. -/
def normalizedIndices (indices : List ℕ) (length : ℕ) : List ℕ :=
  (Std.ExtTreeSet.ofList (indices.filter (· < length)) compare).toList

/-! ### Removing and moving rows -/

/-- The units of the names and of the planned paths of removed rows. -/
structure RemovedUnits where
  names : ℕ
  paths : ℕ

/-- What is left of the rows from `row` on, and what the removed ones add to `removed`. -/
def retainRows : ℕ → List ℕ → List LegacyListItem → RemovedUnits →
    Option (List LegacyListItem × RemovedUnits)
  | _, _, [], removed => some ([], removed)
  | row, selected, item :: rest, removed =>
    if selected.head? = some row then do
      let names ← checkedAdd usizeMax removed.names item.proposedName.len
      let paths := saturatingAdd usizeMax removed.paths (saturatingAdd usizeMax
        (saturatingAdd usizeMax item.destinationParent.len
          (destinationSeparatorUnits item.destinationParent.units)) item.proposedName.len)
      retainRows (row + 1) selected.tail rest ⟨names, paths⟩
    else do
      let (kept, removed) ← retainRows (row + 1) selected rest removed
      some (item :: kept, removed)

def removeRows (list : LegacyList) (fresh : ℕ) (selected : List ℕ) : Option (ℕ × LegacyList) :=
  let selected := normalizedIndices selected list.items.length
  if selected.length = 0 then
    some (0, list)
  else do
    let (items, removed) ← retainRows 0 selected list.items ⟨0, 0⟩
    let units ← checkedSub list.proposedNameUtf16Units removed.names
    let pathUnits ← checkedSub list.plannedPathUtf16Units removed.paths
    let remaining : LegacyList :=
      { list with
        items := items
        proposedNameUtf16Units := units
        plannedPathUtf16Units := pathUnits }
    some (selected.length, remaining.invalidateSourceIndex fresh)

end LegacyList

/-- `slice::swap`. -/
def swapRows {α : Type} (items : List α) (i j : ℕ) : Option (List α) := do
  let a ← items[i]?
  let b ← items[j]?
  some ((items.set i b).set j a)

/-- Exact outcome of moving selected rows while preserving legacy row results. -/
structure MoveRowsOutcome where
  rows : List ℕ
  changed : Bool
  deriving DecidableEq

namespace LegacyList

def moveRowsEarlierChanged (list : LegacyList) (selected : List ℕ) :
    Option (MoveRowsOutcome × LegacyList) := do
  let selected := normalizedIndices selected list.items.length
  if selected.head? = some 0 then
    return (⟨selected, false⟩, list)
  let items ← selected.foldlM (fun items index => do
    swapRows items (← checkedSub index 1) index) list.items
  let rows ← selected.mapM (checkedSub · 1)
  return (⟨rows, !selected.isEmpty⟩, { list with items := items })

def moveRowsLaterChanged (list : LegacyList) (selected : List ℕ) :
    Option (MoveRowsOutcome × LegacyList) := do
  let selected := normalizedIndices selected list.items.length
  if selected.getLast?.any fun index => index + 1 = list.items.length then
    return (⟨selected, false⟩, list)
  let items ← selected.reverse.foldlM (fun items index => swapRows items index (index + 1))
    list.items
  return (⟨selected.map (· + 1), !selected.isEmpty⟩, { list with items := items })

/-! ### Proposals -/

/-- Applies a transform row by row from `index` on: the rows it changed, all rows, and the units
of all names. -/
def changeRows (proposal : LegacyListItem → LegacyText) :
    ℕ → List LegacyListItem → ℕ → Option (List ℕ × List LegacyListItem × ℕ)
  | _, [], totalUnits => some ([], [], totalUnits)
  | index, item :: rest, totalUnits => do
    let next := proposal item
    let totalUnits ← checkedAdd usizeMax totalUnits next.len
    let (changed, items, totalUnits) ← changeRows proposal (index + 1) rest totalUnits
    if item.proposedName ≠ next then
      some (index :: changed, { item with proposedName := next } :: items, totalUnits)
    else
      some (changed, item :: items, totalUnits)

def changedProposals (list : LegacyList) (proposal : LegacyListItem → LegacyText) :
    Option (List ℕ × LegacyList) := do
  let (changed, items, totalUnits) ← changeRows proposal 0 list.items 0
  let removedUnits := list.proposedNameUtf16Units - totalUnits
  let pathUnits ← checkedSub list.plannedPathUtf16Units removedUnits
  some (changed,
    { list with
      items := items
      proposedNameUtf16Units := totalUnits
      plannedPathUtf16Units := pathUnits })

end LegacyList

structure StagedProposal where
  row : ℕ
  value : LegacyText

structure StagedUnits where
  names : ℕ
  paths : ℕ

/-- A proposal for a row: it sees all rows, and may carry something from row to row. -/
abbrev Proposal (σ : Type) : Type :=
  σ → List LegacyListItem → ℕ → LegacyListItem →
    Staging ProposalMutationError (Option LegacyText × σ)

/-- Stages a row, and returns the totals with it. -/
def stageProposal {σ : Type} (proposal : Proposal σ) (s : σ) (items : List LegacyListItem)
    (row : ℕ) (item : LegacyListItem) (units : StagedUnits) :
    Staging ProposalMutationError (Option StagedProposal × σ × StagedUnits) := do
  let (next, s) ← proposal s items row item
  let nextLen := next.elim item.proposedName.len LegacyText.len
  validateProposalUnits row nextLen
  let names ← okOr ProposalMutationError.arithmeticOverflow
    (checkedAdd usizeMax units.names nextLen)
  if names > maxTotalProposedNameUtf16Units then
    throw (.aggregateBudgetExceeded names maxTotalProposedNameUtf16Units)
  let pathUnits ← okOr ProposalMutationError.arithmeticOverflow
    (checkedPlannedPathUnits item.destinationParent.units nextLen)
  let paths ← okOr ProposalMutationError.arithmeticOverflow
    (checkedAdd usizeMax units.paths pathUnits)
  match next.filter fun next => item.proposedName ≠ next with
  | none => return (none, s, ⟨names, paths⟩)
  | some value =>
    reserving .allocationFailed (.tryReserve 1)
    return (some ⟨row, value⟩, s, ⟨names, paths⟩)

/-- Stages the rows from `row` on; `rest` are those rows. -/
def stageProposals {σ : Type} (proposal : Proposal σ) (items : List LegacyListItem) :
    σ → ℕ → List LegacyListItem → StagedUnits →
      Staging ProposalMutationError (List StagedProposal × StagedUnits)
  | _, _, [], units => return ([], units)
  | s, row, item :: rest, units => do
    let (staged, s, units) ← stageProposal proposal s items row item units
    let (later, units) ← stageProposals proposal items s (row + 1) rest units
    return (staged.toList ++ later, units)

/-- Everything that may be refused before the rows change. -/
def stageChanges {σ : Type} (items : List LegacyListItem) (s : σ) (proposal : Proposal σ) :
    Staging ProposalMutationError (List StagedProposal × StagedUnits) := do
  let (staged, units) ← stageProposals proposal items s 0 items ⟨0, 0⟩
  if units.paths > maxTotalPlannedPathUtf16Units then
    throw (.plannedPathAggregateBudgetExceeded units.paths maxTotalPlannedPathUtf16Units)
  reserving .allocationFailed (.tryReserveExact staged.length)
  return (staged, units)

/-- Writes a staged proposal into its row. -/
def writeProposal (items : List LegacyListItem) (update : StagedProposal) :
    List LegacyListItem :=
  items.modify update.row fun item => { item with proposedName := update.value }

namespace LegacyList

def tryChangedProposalsOptional {σ : Type} (list : LegacyList) (s : σ) (proposal : Proposal σ) :
    Program Reservation Granted (Except ProposalMutationError (List ℕ) × LegacyList) := do
  match ← (stageChanges list.items s proposal).run with
  | .error error => return (.error error, list)
  | .ok (staged, units) =>
    return (.ok (staged.map (·.row)),
      { list with
        items := staged.foldl writeProposal list.items
        proposedNameUtf16Units := units.names
        plannedPathUtf16Units := units.paths })

/-- A proposal for every row, without anything carried from row to row. -/
def tryChangedProposals (list : LegacyList)
    (proposal : ℕ → LegacyListItem → Staging ProposalMutationError LegacyText) :
    Program Reservation Granted (Except ProposalMutationError (List ℕ) × LegacyList) :=
  list.tryChangedProposalsOptional () fun _ _ row item => do
    return (some (← proposal row item), ())

/-! ### One row -/

/-- The totals after the proposal of `current` becomes `proposedName`. -/
def manualUnits (list : LegacyList) (index : ℕ) (current : LegacyListItem)
    (proposedName : LegacyText) : Except ProposalMutationError StagedUnits := do
  validateProposalUnits index proposedName.len
  let totalUnits ← okOr ProposalMutationError.arithmeticOverflow do
    let total ← checkedSub list.proposedNameUtf16Units current.proposedName.len
    checkedAdd usizeMax total proposedName.len
  if totalUnits > maxTotalProposedNameUtf16Units then
    throw (.aggregateBudgetExceeded totalUnits maxTotalProposedNameUtf16Units)
  let currentUnits ← okOr ProposalMutationError.arithmeticOverflow
    (checkedPlannedPathUnits current.destinationParent.units current.proposedName.len)
  let nextUnits ← okOr ProposalMutationError.arithmeticOverflow
    (checkedPlannedPathUnits current.destinationParent.units proposedName.len)
  let pathUnits ← okOr ProposalMutationError.arithmeticOverflow do
    let total ← checkedSub list.plannedPathUtf16Units currentUnits
    checkedAdd usizeMax total nextUnits
  if pathUnits > maxTotalPlannedPathUtf16Units then
    throw (.plannedPathAggregateBudgetExceeded pathUnits maxTotalPlannedPathUtf16Units)
  return ⟨totalUnits, pathUnits⟩

/-- Directly changes one proposal: `none` for an invalid row, else whether its value changed. -/
def setManualProposal (list : LegacyList) (index : ℕ) (proposedName : LegacyText) :
    Except ProposalMutationError (Option Bool) × LegacyList :=
  match list.items[index]? with
  | none => (.ok none, list)
  | some current =>
    match list.manualUnits index current proposedName with
    | .error error => (.error error, list)
    | .ok units =>
      (.ok (some (current.proposedName != proposedName)),
        { list with
          items := writeProposal list.items ⟨index, proposedName⟩
          proposedNameUtf16Units := units.names
          plannedPathUtf16Units := units.paths })

/-- The row after its move to the planned path. -/
def movedItem (item : LegacyListItem) : LegacyListItem :=
  let newPath := item.plannedPath
  let currentName := pathName newPath
  { item with
    destinationParent :=
      if sourceParentUnits newPath.units ≠ item.destinationParent.units then pathRoot newPath
      else item.destinationParent
    sourcePath := newPath
    proposedName := currentName
    currentName := currentName }

/-- Records one successful move; the total of the planned paths is left as it is. -/
def recordMoveSuccess (list : LegacyList) (fresh index : ℕ) : Option (Bool × LegacyList) :=
  match list.items[index]? with
  | none => some (false, list)
  | some item => do
    let units ← checkedSub list.proposedNameUtf16Units item.proposedName.len
    let units ← checkedAdd usizeMax units (movedItem item).proposedName.len
    let moved : LegacyList :=
      { list with
        items := list.items.set index (movedItem item)
        proposedNameUtf16Units := units }
    some (true, moved.invalidateSourceIndex fresh)

end LegacyList

end DarkReNamer
