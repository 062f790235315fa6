import DarkReNamer.Rename.Journal.Capacity
import DarkReNamer.Rename.Schedule

/-!
# The executor

`executeWithControl` revalidates a confirmed plan, journals its manifest and applies
the steps of its schedule, or rolls the completed ones back (`rename/executor.rs`).
Whatever is refused before the manifest is journalled is an `ExecuteError`; afterwards
every result is a report with the state of each entry.

The entries of a report are kept beside an index by identifier, as in the source.
-/

namespace DarkReNamer

open Std Interaction

/-- Why execution refused a confirmed plan before any mutation. -/
inductive ExecuteErrorKind where
  | cancelled
  | invalidSchedule
  | unauthorizedMove
  | staleSource
  | staleParent
  | destinationChanged
  | temporaryOccupied
  | temporaryExhausted
  | backend (error : BackendError)
  | journal (error : JournalError)
  | journalCapacity (error : JournalCapacityError)
  deriving DecidableEq, Repr

structure ExecuteError where
  entry : Option EntryId
  kind : ExecuteErrorKind
  deriving DecidableEq, Repr

/-- Failure that interrupted forward execution after journalling began. -/
inductive ExecutionFailure where
  | cancelled (step : ℕ)
  | backend (step : ℕ) (error : BackendError)
  | journal (step : ℕ) (error : JournalError)
  deriving DecidableEq, Repr

/-- A rollback operation that did not complete durably. -/
inductive RollbackFailure where
  | backend (step : ℕ) (error : BackendError)
  | journal (step : ℕ) (error : JournalError)
  deriving DecidableEq, Repr

inductive ExecutionOutcome where
  | completed
  | rolledBack (failure : ExecutionFailure)
  | recoveryRequired (failure : ExecutionFailure) (rollbackFailures : List RollbackFailure)
  deriving DecidableEq, Repr

/-- Reconciled logical state of one plan entry. -/
inductive RenameState where
  | applied
  | restored
  | indeterminate
  deriving DecidableEq, Repr

structure EntryExecution where
  entry : EntryId
  state : RenameState
  deriving DecidableEq, Repr

/-- The states of the entries, in plan order, with the position of each identifier. -/
structure IndexedEntryExecutions where
  values : List EntryExecution
  byId : ExtTreeMap EntryId ℕ

namespace IndexedEntryExecutions

/-- Adds the entries of the rows; a repeated identifier is refused. -/
def fromRows : List PlanRow → IndexedEntryExecutions →
    Except ExecuteError IndexedEntryExecutions
  | [], indexed => .ok indexed
  | entry :: entries, indexed =>
      if indexed.byId.contains entry.id then .error ⟨some entry.id, .invalidSchedule⟩
      else
        fromRows entries
          ⟨indexed.values ++ [⟨entry.id, .restored⟩],
            indexed.byId.insert entry.id indexed.values.length⟩

def fromPlan (entries : List PlanRow) : Except ExecuteError IndexedEntryExecutions :=
  fromRows entries ⟨[], ∅⟩

def validateSchedule (indexed : IndexedEntryExecutions) :
    List ScheduleStep → Except ExecuteError Unit
  | [] => .ok ()
  | step :: schedule =>
      if indexed.byId.contains step.entry then indexed.validateSchedule schedule
      else .error ⟨some step.entry, .invalidSchedule⟩

def planRow (indexed : IndexedEntryExecutions) (entries : List PlanRow)
    (entry : EntryId) : Option PlanRow :=
  indexed.byId[entry]?.bind fun index => entries[index]?

def setState (indexed : IndexedEntryExecutions) (entry : EntryId) (state : RenameState) :
    IndexedEntryExecutions :=
  match indexed.byId[entry]? with
  | none => indexed
  | some index =>
      { indexed with values := indexed.values.modify index fun result => { result with state } }

end IndexedEntryExecutions

/-- Complete result once journalling or mutation began. -/
structure ExecutionReport where
  plan : PlanId
  outcome : ExecutionOutcome
  entries : List EntryExecution
  deriving DecidableEq, Repr

/-- The move of a step. -/
def forwardOperation (step : ScheduleStep) : RenameOperation :=
  .withAuthorization step.source step.destination step.identity step.sourceParent
    step.destinationParent step.kind step.scope

/-- The move that takes a step back. -/
def reverseOperation (step : ScheduleStep) : RenameOperation :=
  .withAuthorization step.destination step.source step.identity step.destinationParent
    step.sourceParent step.kind step.scope

def journalStep (step : ScheduleStep) : JournalStep :=
  (JournalStep.new step.entry step.source step.destination step.identity step.sourceParent
    step.destinationParent step.temporaryPhase).withMoveAuthorization step.kind step.scope

def forwardState : TemporaryPhase → RenameState
  | .none | .fromTemporary => .applied
  | .intoTemporary => .indeterminate

def rollbackState : TemporaryPhase → RenameState
  | .none | .intoTemporary => .restored
  | .fromTemporary => .indeterminate

def cancelledBeforeBegin : ExecuteError := ⟨none, .cancelled⟩

def scheduleError : ScheduleError → ExecuteError
  | .cancelled => cancelledBeforeBegin
  | .invalid => ⟨none, .invalidSchedule⟩
  | .backend error => ⟨none, .backend error⟩
  | .staleParent entry => ⟨some entry, .staleParent⟩
  | .temporaryExhausted entry => ⟨some entry, .temporaryExhausted⟩

namespace Executor

def checkCancelled : ExceptT ExecuteError Engine Unit := do
  if ← cancellationRequested then throw cancelledBeforeBegin else pure ()

/-- Builds the manifest, with one cancellation check for each step. -/
def buildManifest : List ScheduleStep → ExceptT ExecuteError Engine (List JournalStep)
  | [] => pure []
  | step :: schedule => do
      checkCancelled
      let manifest ← buildManifest schedule
      pure (journalStep step :: manifest)

/-- Compares the source of a row with its planned snapshot. -/
def freezeSource (entry : PlanRow) : ExceptT ExecuteError Engine Unit := do
  checkCancelled
  match ← resolveSource entry.source with
  | .error error => throw ⟨some entry.id, .backend error⟩
  | .ok currentSource => do
      checkCancelled
      if currentSource.snapshot.parent ≠ entry.sourceSnapshot.parent then
        throw ⟨some entry.id, .staleParent⟩
      else if currentSource.snapshot.entry ≠ entry.sourceSnapshot.entry ∨
          currentSource.path ≠ entry.source ∨
          currentSource.entryKey ≠ some entry.sourceEntryKey then
        throw ⟨some entry.id, .staleSource⟩
      else if currentSource.snapshot.entry.map ObservedEntry.kind ≠ some entry.kind then
        throw ⟨some entry.id, .unauthorizedMove⟩
      else pure ()

/-- Compares the destination of a row with its planned snapshot. -/
def freezeDestination (entry : PlanRow) : ExceptT ExecuteError Engine Unit := do
  match ← observe entry.destination with
  | .error error => throw ⟨some entry.id, .backend error⟩
  | .ok currentDestination => do
      checkCancelled
      if currentDestination.parent ≠ entry.destinationSnapshot.parent then
        throw ⟨some entry.id, .staleParent⟩
      else if currentDestination.entry ≠ entry.destinationSnapshot.entry then
        throw ⟨some entry.id, .destinationChanged⟩
      else pure ()

def freezeRows : List PlanRow → ExceptT ExecuteError Engine Unit
  | [] => pure ()
  | entry :: entries => do
      freezeSource entry
      freezeDestination entry
      freezeRows entries

/-- Checks that a temporary endpoint is still free, in the parent of its row. -/
def freezeTemporary (entries : List PlanRow) (indexed : IndexedEntryExecutions)
    (step : ScheduleStep) : ExceptT ExecuteError Engine Unit := do
  checkCancelled
  match ← observe step.destination with
  | .error error => throw ⟨some step.entry, .backend error⟩
  | .ok temporary => do
      checkCancelled
      match indexed.planRow entries step.entry with
      | none => throw ⟨some step.entry, .invalidSchedule⟩
      | some planned =>
          if temporary.parent ≠ planned.sourceSnapshot.parent then
            throw ⟨some step.entry, .staleParent⟩
          else if temporary.entry.isSome then throw ⟨some step.entry, .temporaryOccupied⟩
          else pure ()

def freezeTemporaries (entries : List PlanRow) (indexed : IndexedEntryExecutions) :
    List ScheduleStep → ExceptT ExecuteError Engine Unit
  | [] => pure ()
  | step :: schedule => do
      if step.temporaryPhase = .intoTemporary then freezeTemporary entries indexed step
      freezeTemporaries entries indexed schedule

def authorizeSteps : List ScheduleStep → Except ExecuteError Unit
  | [] => .ok ()
  | step :: schedule =>
      if (forwardOperation step).authorizationError.isSome then
        .error ⟨some step.entry, .unauthorizedMove⟩
      else authorizeSteps schedule

def freeze (entries : List PlanRow) (schedule : List ScheduleStep)
    (indexed : IndexedEntryExecutions) : ExceptT ExecuteError Engine Unit := do
  freezeRows entries
  freezeTemporaries entries indexed schedule
  ExceptT.mk (pure (authorizeSteps schedule))

/-- The reverse loop of `rollback`, over the completed steps, the last one first. -/
def restoreLoop (total : ℕ) : List (ℕ × ScheduleStep) → ℕ → IndexedEntryExecutions →
    Engine (IndexedEntryExecutions × List RollbackFailure)
  | [], _, entries => pure (entries, [])
  | (stepIndex, step) :: rest, restored, entries => do
      match ← prepared stepIndex .rollback with
      | .error error =>
          pure (entries.setState step.entry .indeterminate, [.journal stepIndex error])
      | .ok _ =>
          match ← renameNoReplace (reverseOperation step) with
          | .error error =>
              if error.certainty = .notApplied then
                match ← notApplied stepIndex .rollback with
                | .error journalError =>
                    pure (entries.setState step.entry .indeterminate,
                      [.journal stepIndex journalError, .backend stepIndex error])
                | .ok _ =>
                    pure (entries.setState step.entry .indeterminate,
                      [.backend stepIndex error])
              else
                pure (entries.setState step.entry .indeterminate, [.backend stepIndex error])
          | .ok _ =>
              let entries := entries.setState step.entry (rollbackState step.temporaryPhase)
              match ← completed stepIndex .rollback with
              | .error error =>
                  pure (entries.setState step.entry .indeterminate,
                    [.journal stepIndex error])
              | .ok _ => do
                  progress .rollback (restored + 1) total
                  restoreLoop total rest (restored + 1) entries

def rollback (plan : PlanId) (failure : ExecutionFailure)
    (completed : List (ℕ × ScheduleStep)) (entries : IndexedEntryExecutions) :
    Engine ExecutionReport := do
  progress .rollback 0 completed.length
  let (entries, rollbackFailures) ← restoreLoop completed.length completed.reverse 0 entries
  if rollbackFailures = [] then
    match ← terminal .rolledBack with
    | .ok _ => do
        progress .terminal completed.length completed.length
        pure ⟨plan, .rolledBack failure, entries.values⟩
    | .error error =>
        pure ⟨plan, .recoveryRequired failure [.journal completed.length error],
          entries.values⟩
  else
    pure ⟨plan, .recoveryRequired failure rollbackFailures, entries.values⟩

/-- The end of forward execution. -/
def finalize (plan : PlanId) (total : ℕ) (done : List (ℕ × ScheduleStep))
    (entries : IndexedEntryExecutions) : Engine ExecutionReport := do
  progress .finalizing total total
  if ← cancellationRequested then rollback plan (.cancelled total) done entries
  else
    match ← terminal .committed with
    | .error error =>
        pure ⟨plan, .recoveryRequired (.journal total error) [], entries.values⟩
    | .ok _ => do
        progress .terminal total total
        pure ⟨plan, .completed, entries.values⟩

/-- The forward loop from the step `stepIndex` on. -/
def forwardLoop (plan : PlanId) (total : ℕ) : List ScheduleStep → ℕ →
    List (ℕ × ScheduleStep) → IndexedEntryExecutions → Engine ExecutionReport
  | [], _, done, entries => finalize plan total done entries
  | step :: steps, stepIndex, done, entries => do
      if ← cancellationRequested then rollback plan (.cancelled stepIndex) done entries
      else
        match ← prepared stepIndex .forward with
        | .error error =>
            if error.certainty = .mayHaveAppended then
              pure ⟨plan, .recoveryRequired (.journal stepIndex error) [], entries.values⟩
            else rollback plan (.journal stepIndex error) done entries
        | .ok _ =>
            match ← renameNoReplace (forwardOperation step) with
            | .error error =>
                if error.certainty = .mayHaveApplied then
                  pure ⟨plan, .recoveryRequired (.backend stepIndex error) [],
                    (entries.setState step.entry .indeterminate).values⟩
                else
                  match ← notApplied stepIndex .forward with
                  | .error journalError =>
                      pure ⟨plan, .recoveryRequired (.backend stepIndex error)
                        [.journal stepIndex journalError], entries.values⟩
                  | .ok _ => rollback plan (.backend stepIndex error) done entries
            | .ok _ =>
                let entries := entries.setState step.entry (forwardState step.temporaryPhase)
                match ← completed stepIndex .forward with
                | .error error =>
                    pure ⟨plan, .recoveryRequired (.journal stepIndex error) [],
                      (entries.setState step.entry .indeterminate).values⟩
                | .ok _ => do
                    let done := done ++ [(stepIndex, step)]
                    progress .forward done.length total
                    forwardLoop plan total steps (stepIndex + 1) done entries

/-- Everything that happens before the first mutation: the schedule, its manifest, and
the comparison with the planned snapshots. -/
def prepare (plan : RenamePlan) : ExceptT ExecuteError Engine
    (List ScheduleStep × List JournalStep × IndexedEntryExecutions) := do
  checkCancelled
  let entries ← ExceptT.mk (pure (IndexedEntryExecutions.fromPlan plan.entries))
  let schedule ← ExceptT.mk ((Except.mapError scheduleError) <$> (buildSchedule plan).run)
  ExceptT.mk (pure (entries.validateSchedule schedule))
  let manifest ← buildManifest schedule
  let _ ← ExceptT.mk (pure ((journalRequirements manifest).mapError fun error =>
    ⟨none, .journalCapacity error⟩))
  freeze plan.entries schedule entries
  checkCancelled
  pure (schedule, manifest, entries)

/-- The journalled transaction; an empty schedule needs none. -/
def transact (plan : PlanId) (schedule : List ScheduleStep) (manifest : List JournalStep)
    (entries : IndexedEntryExecutions) : ExceptT ExecuteError Engine ExecutionReport := do
  progress .ready 0 schedule.length
  if schedule = [] then pure ⟨plan, .completed, entries.values⟩
  else do
    if ← beginTransaction then
      match ← journalBegin plan manifest with
      | .error error =>
          if error.certainty = .mayHaveAppended then
            pure ⟨plan, .recoveryRequired (.journal 0 error) [], entries.values⟩
          else throw ⟨none, .journal error⟩
      | .ok _ => liftM (forwardLoop plan schedule.length schedule 0 [] entries)
    else throw cancelledBeforeBegin

/-- Revalidates and executes the plan consumed by confirmation. -/
def executeWithControl (confirmed : ConfirmedPlan) :
    ExceptT ExecuteError Engine ExecutionReport := do
  let (schedule, manifest, entries) ← prepare confirmed.plan
  transact confirmed.plan.id schedule manifest entries

end Executor

end DarkReNamer
