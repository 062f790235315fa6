import DarkReNamer.Core.ListItem
import DarkReNamer.Core.MachineInteger
import DarkReNamer.Interaction.Loop
import DarkReNamer.Rename.Model
import Mathlib.Order.Nat

/-!
# Source admission

The bounded iterative collection of sources (`admission.rs`). The adapter is whatever
answers the calls below, each time anew, so nothing it says about a path has to agree with
what it said before. Paths are of any type `P`; whether one is absolute and how two compare
are parameters.
-/

namespace DarkReNamer

open Interaction

def maxAdmittedSources : ℕ := 10000

def maxAdmissionDepth : ℕ := 256

def maxAdmittedPathBytes : ℕ := 4 * 1024 * 1024

/-- `size_of::<u16>()`. -/
def sizeOfU16 : ℕ := 2

inductive PathBudgetReservation where
  | reserved
  | exhausted
  deriving DecidableEq

/-- Remaining aggregate budget for source paths; never above the application's. -/
structure PathBudget where
  remainingBytes : ℕ
  remainingBytes_le : remainingBytes ≤ maxAdmittedPathBytes

namespace PathBudget

def new : PathBudget := ⟨maxAdmittedPathBytes, le_rfl⟩

/-- What is left after `bytes` of it. -/
def spend (budget : PathBudget) (bytes : ℕ) : PathBudget :=
  ⟨budget.remainingBytes - bytes, (Nat.sub_le _ _).trans budget.remainingBytes_le⟩

/-- A path that does not fit takes all that is left. -/
def reserveUtf16Units (budget : PathBudget) (units : ℕ) : PathBudgetReservation × PathBudget :=
  match checkedMul usizeMax units sizeOfU16 with
  | none => (.exhausted, budget.spend budget.remainingBytes)
  | some bytes =>
    if bytes > budget.remainingBytes then
      (.exhausted, budget.spend budget.remainingBytes)
    else
      (.reserved, budget.spend bytes)

/-- A path is reserved exactly when its bytes fit. -/
theorem reserveUtf16Units_of_le {budget : PathBudget} {units : ℕ}
    (h : units * sizeOfU16 ≤ budget.remainingBytes) :
    budget.reserveUtf16Units units = (.reserved, budget.spend (units * sizeOfU16)) := by
  have hmax : maxAdmittedPathBytes ≤ usizeMax := by decide
  have hbytes : checkedMul usizeMax units sizeOfU16 = some (units * sizeOfU16) :=
    checkedMul_eq_some.2 ⟨(h.trans budget.remainingBytes_le).trans hmax, rfl⟩
  simp [reserveUtf16Units, hbytes, Nat.not_lt.2 h]

theorem reserveUtf16Units_of_lt {budget : PathBudget} {units : ℕ}
    (h : budget.remainingBytes < units * sizeOfU16) :
    budget.reserveUtf16Units units = (.exhausted, budget.spend budget.remainingBytes) := by
  unfold reserveUtf16Units
  split
  · rfl
  · rename_i bytes hbytes
    obtain ⟨-, rfl⟩ := checkedMul_eq_some.1 hbytes
    rw [if_pos h]

end PathBudget

inductive AdmissionMode where
  | direct
  | recurse
  deriving DecidableEq

inductive AdmissionIssueKind where
  | relativePath
  | metadata
  | readDirectory
  | reparsePoint
  | limitReached
  | repeatedDirectory
  | depthExceeded
  | pathBudgetExceeded
  deriving DecidableEq

inductive AdmissionOperation where
  | validation
  | metadata
  | readDirectory
  deriving DecidableEq

structure AdmissionAdapterError where
  operation : AdmissionOperation
  code : Option UInt32
  deriving DecidableEq

structure AdmissionIssue (P : Type) where
  path : P
  kind : AdmissionIssueKind
  operation : Option AdmissionOperation
  code : Option UInt32

structure AdmissionMetadata where
  isDirectory : Bool
  isReparsePoint : Bool
  directoryIdentity : Option EntryIdentity
  actualSize : UInt64
  created : UInt64
  modified : UInt64

structure AdmissionChildren (P : Type) where
  paths : List P
  hadErrors : Bool
  truncated : Bool
  pathBudgetExhausted : Bool

structure AdmissionReadBudget where
  pathLimit : ℕ
  remainingPathBytes : ℕ

structure AdmissionCancelled where

inductive AdmissionReadError where
  | cancelled
  | adapter (error : AdmissionAdapterError)

structure AdmissionReport (P : Type) where
  items : List LegacyListItem := []
  issues : List (AdmissionIssue P) := []

/-- The cancellation probe, the progress observer and the methods of the adapter. -/
inductive AdmissionCall (P : Type) where
  | cancellationRequested
  | inspectionStarted (count : ℕ)
  | validatePath (path : P)
  | metadata (path : P)
  | readChildrenCancellable (path : P) (budget : AdmissionReadBudget)
  | legacyPath (path : P)
  | pathUtf16Units (path : P)

/-- `path_utf16_units` answers any `usize`. -/
@[reducible] def AdmissionAnswer {P : Type} : AdmissionCall P → Type
  | .cancellationRequested => Bool
  | .inspectionStarted _ => Unit
  | .validatePath _ => Except AdmissionAdapterError Unit
  | .metadata _ => Except AdmissionAdapterError AdmissionMetadata
  | .readChildrenCancellable _ _ => Except AdmissionReadError (AdmissionChildren P)
  | .legacyPath _ => LegacyText
  | .pathUtf16Units _ => Usize

abbrev Admission (P α : Type) : Type :=
  ExceptT AdmissionCancelled (Program (AdmissionCall P) AdmissionAnswer) α

namespace Admission

variable {P : Type}

def issue (path : P) (kind : AdmissionIssueKind) (error : Option AdmissionAdapterError) :
    AdmissionIssue P :=
  ⟨path, kind, error.map (·.operation), error.bind (·.code)⟩

/-- One call with its answer. -/
def call (c : AdmissionCall P) : Admission P (AdmissionAnswer c) := liftM (Program.ask c)

def cancelled {α : Type} : Admission P α := throw ⟨⟩

/-- One probe of cooperative cancellation. -/
def poll : Admission P Unit := do
  let requested ← call .cancellationRequested
  if requested then cancelled else pure ()

section SortPaths

variable (comparePaths : P → P → Ordering)

/-- Two sorted runs become one, with a probe for each path moved. -/
def mergeRuns : List P → List P → Admission P (List P)
  | [], [] => pure []
  | a :: left, [] => do
    poll
    return a :: (← mergeRuns left [])
  | [], b :: right => do
    poll
    return b :: (← mergeRuns [] right)
  | a :: left, b :: right => do
    poll
    if comparePaths a b ≠ .gt then
      return a :: (← mergeRuns left (b :: right))
    else
      return b :: (← mergeRuns (a :: left) right)
termination_by left right => left.length + right.length

/-- All pairs of neighbouring runs of one width. -/
def mergePass (width : ℕ) (paths : List P) : Admission P (List P) :=
  if _h : paths = [] ∨ width = 0 then
    pure paths
  else do
    let merged ← mergeRuns comparePaths (paths.take width) ((paths.drop width).take width)
    let rest ← mergePass width ((paths.drop width).drop width)
    return merged ++ rest
termination_by paths.length
decreasing_by
  have hlength : paths.length ≠ 0 := fun hnil => _h (.inl (List.length_eq_zero_iff.1 hnil))
  simp only [List.length_drop]
  omega

/-- Passes of doubling width until one run is left. -/
def mergePasses (len width : ℕ) (paths : List P) : Admission P (List P) :=
  if _h : width < len ∧ width ≠ 0 then do
    let merged ← mergePass comparePaths width paths
    mergePasses len (width * 2) merged
  else
    pure paths
termination_by len - width

def sortPathsCancellable (paths : List P) : Admission P (List P) := do
  if paths.length < 2 then
    poll
    return paths
  let sorted ← mergePasses comparePaths paths.length 1 paths
  poll
  return sorted

end SortPaths

/-- A path waiting for inspection, with its depth and the bytes counted for it. -/
structure QueuedPath (P : Type) where
  path : P
  depth : ℕ
  pathBytes : ℕ

/-- The variables of the traversal. The top of the stack is the head of the list. -/
structure Collector (P : Type) where
  stack : List (QueuedPath P) := []
  stackPathBytes : ℕ := 0
  seenDirectories : List EntryIdentity := []
  inspected : ℕ := 0
  pathBudget : PathBudget
  report : AdmissionReport P := {}

namespace Collector

def pushIssue (c : Collector P) (path : P) (kind : AdmissionIssueKind)
    (error : Option AdmissionAdapterError := none) : Collector P :=
  { c with report := { c.report with issues := c.report.issues ++ [issue path kind error] } }

def pushItem (c : Collector P) (item : LegacyListItem) : Collector P :=
  { c with report := { c.report with items := c.report.items ++ [item] } }

def push (c : Collector P) (path : P) (depth pathBytes : ℕ) : Collector P :=
  { c with
    stack := ⟨path, depth, pathBytes⟩ :: c.stack
    stackPathBytes := saturatingAdd usizeMax c.stackPathBytes pathBytes }

/-- The collector without the top of its stack. -/
def pop (c : Collector P) (entry : QueuedPath P) (rest : List (QueuedPath P)) : Collector P :=
  { c with stack := rest, stackPathBytes := c.stackPathBytes - entry.pathBytes }

end Collector

/-- Queues paths at one depth, the last one first, so that the first ends up on top. -/
def pushPaths (depth : ℕ) : List P → Collector P → Admission P (Collector P)
  | [], c => pure c
  | path :: paths, c => do
    poll
    let units ← call (.pathUtf16Units path)
    pushPaths depth paths (c.push path depth (saturatingMul usizeMax units.val sizeOfU16))

/-- How many children fit the bytes, and whether one did not. -/
def verifyChildren (remainingPathBytes : ℕ) : List P → ℕ → ℕ → Admission P (ℕ × Bool)
  | [], _, verifiedLen => pure (verifiedLen, false)
  | child :: children, verifiedPathBytes, verifiedLen => do
    let units ← call (.pathUtf16Units child)
    match checkedMul usizeMax units.val sizeOfU16 with
    | none => pure (verifiedLen, true)
    | some childBytes =>
      match checkedAdd usizeMax verifiedPathBytes childBytes with
      | none => pure (verifiedLen, true)
      | some nextBytes =>
        if nextBytes > remainingPathBytes then
          pure (verifiedLen, true)
        else
          verifyChildren remainingPathBytes children nextBytes (verifiedLen + 1)

section Collect

variable (isAbsolute : P → Bool) (comparePaths : P → P → Ordering) (mode : AdmissionMode)
  (capacity : ℕ)

/-- Queues the children that a directory read returned, as far as they fit. -/
def takeChildren (entry : QueuedPath P) (readBudget : AdmissionReadBudget)
    (children : AdmissionChildren P) (c : Collector P) : Admission P (Collector P) := do
  let overfull := decide (children.paths.length > readBudget.pathLimit)
  let paths := children.paths.take readBudget.pathLimit
  let (verifiedLen, exceeded) ← verifyChildren readBudget.remainingPathBytes paths 0 0
  let sorted ← sortPathsCancellable comparePaths (paths.take verifiedLen)
  let c ← pushPaths (entry.depth + 1) sorted.reverse c
  let c := if children.hadErrors then c.pushIssue entry.path .readDirectory else c
  let c := if children.truncated || overfull then c.pushIssue entry.path .limitReached else c
  return if children.pathBudgetExhausted || exceeded then
    c.pushIssue entry.path .pathBudgetExceeded
  else
    c

/-- Reads a directory within what the count and the bytes leave. -/
def enumerate (entry : QueuedPath P) (c : Collector P) :
    Admission P (Control (Collector P)) := do
  if entry.depth ≥ maxAdmissionDepth then
    return .next (c.pushIssue entry.path .depthExceeded)
  let remaining := capacity - c.inspected - c.stack.length
  if remaining = 0 then
    return .done (c.pushIssue entry.path .limitReached)
  let readBudget : AdmissionReadBudget :=
    ⟨remaining, c.pathBudget.remainingBytes - c.stackPathBytes⟩
  let answer ← call (.readChildrenCancellable entry.path readBudget)
  match answer with
  | .ok children => return .next (← takeChildren comparePaths entry readBudget children c)
  | .error .cancelled => cancelled
  | .error (.adapter error) =>
    return .next (c.pushIssue entry.path .readDirectory (some error))

/-- Admits the entry itself, if its path fits the budget. -/
def admitEntry (entry : QueuedPath P) (metadata : AdmissionMetadata) (c : Collector P) :
    Admission P (Control (Collector P)) := do
  let legacyPath ← call (.legacyPath entry.path)
  let (reservation, pathBudget) := c.pathBudget.reserveUtf16Units legacyPath.units.length
  let c := { c with pathBudget := pathBudget }
  match reservation with
  | .exhausted => return .done (c.pushIssue entry.path .pathBudgetExceeded)
  | .reserved =>
    return .next (c.pushItem (LegacyListItem.newWithActualSize legacyPath metadata.isDirectory
      metadata.actualSize.toUInt32 metadata.actualSize metadata.created metadata.modified))

/-- What is done with an entry whose metadata is known. -/
def settle (entry : QueuedPath P) (metadata : AdmissionMetadata) (c : Collector P) :
    Admission P (Control (Collector P)) := do
  if metadata.isReparsePoint then
    return .next (c.pushIssue entry.path .reparsePoint)
  if metadata.isDirectory then
    if metadata.directoryIdentity.any (c.seenDirectories.contains ·) then
      return .next (c.pushIssue entry.path .repeatedDirectory)
    let c := { c with
      seenDirectories := metadata.directoryIdentity.toList ++ c.seenDirectories }
    match mode with
    | .recurse => enumerate comparePaths capacity entry c
    | .direct => admitEntry entry metadata c
  else
    admitEntry entry metadata c

/-- One round of the traversal: the entry on top of the stack is taken and inspected. -/
def inspect (c : Collector P) : Admission P (Control (Collector P)) := do
  match c.stack with
  | [] => return .done c
  | entry :: rest =>
    let c := c.pop entry rest
    poll
    if c.inspected ≥ capacity then
      return .done (c.pushIssue entry.path .limitReached)
    let c := { c with inspected := c.inspected + 1 }
    let _ ← call (.inspectionStarted c.inspected)
    if !isAbsolute entry.path then
      return .next (c.pushIssue entry.path .relativePath)
    let validated ← call (.validatePath entry.path)
    match validated with
    | .error error => return .next (c.pushIssue entry.path .metadata (some error))
    | .ok _ =>
      poll
      let observed ← call (.metadata entry.path)
      match observed with
      | .error error => return .next (c.pushIssue entry.path .metadata (some error))
      | .ok metadata =>
        poll
        settle comparePaths mode capacity entry metadata c

/-- The collector before the first round: the roots are cut to the capacity and queued. -/
def queueRoots (roots : List P) (pathBudget : PathBudget) : Admission P (Collector P) := do
  let c : Collector P := { pathBudget := pathBudget }
  poll
  let c := match roots[capacity]? with
    | some root => c.pushIssue root .limitReached
    | none => c
  let sorted ← sortPathsCancellable comparePaths (roots.take capacity)
  pushPaths 0 sorted.reverse c

/-- The smaller of the requested capacity and the application's. -/
def admissionCapacity (capacity : ℕ) : ℕ := min capacity maxAdmittedSources

/-- The traversal, stopped after `rounds` rounds; nothing is returned when that stops it. -/
def collectAdmissionCancellableWithBudgetAndProgress (rounds : ℕ) (roots : List P)
    (pathBudget : PathBudget) : Admission P (Option (AdmissionReport P)) := do
  let capacity := admissionCapacity capacity
  let c ← queueRoots comparePaths capacity roots pathBudget
  let last ← loop (inspect isAbsolute comparePaths mode capacity) rounds c
  return last.map (·.report)

end Collect

end Admission

end DarkReNamer
