import DarkReNamer.Rename.Journal.Replay
import DarkReNamer.Rename.Ports

/-!
# Startup recovery

`Recovery.rollback` reconciles the retained journal with the filesystem and then
reverses every forward step in effect (`rename/recovery.rs`). The sets of
completed steps are read from the records a second time, by `transitionSets`;
the replay only decides whether the records can be trusted.

Indexing a manifest out of its bounds panics in the source. The replay refuses
such records before, and here the index gives `journalCorrupt`.
-/

namespace DarkReNamer

open Std Interaction

/-- A condition that prevents recovery from making any mutation. -/
inductive RecoveryBlockKind where
  | journalCorrupt
  | unauthorizedOperation
  | stateMismatch
  | parentChanged
  | backend (error : BackendError)
  | journal (error : JournalError)
  deriving DecidableEq, Repr

/-- A failure after recovery began appending records. -/
inductive RecoveryFailure where
  | backend (error : BackendError)
  | journal (error : JournalError)
  deriving DecidableEq, Repr

/-- Observable recovery outcome. -/
inductive RecoveryOutcome where
  | notRequired
  | recovered (plan : PlanId) (restoredSteps : ℕ)
  | blocked (plan : Option PlanId) (reason : RecoveryBlockKind)
  | recoveryRequired (plan : PlanId) (reason : RecoveryFailure)
  deriving DecidableEq, Repr

namespace Recovery

/-- The occupant of every endpoint of a manifest, by entry key. -/
abbrev EndpointMap : Type := ExtTreeMap PathKey (Option EntryIdentity)

structure PreparedState where
  step : ℕ
  direction : JournalDirection
  applied : Bool
  deriving DecidableEq, Repr

structure TransitionState where
  forward : ExtTreeSet ℕ
  rollback : ExtTreeSet ℕ
  prepared : Option PreparedState

/-- The move of a journalled step, or its reverse. -/
def operation (step : JournalStep) (reverse : Bool) : RenameOperation :=
  let (source, destination, sourceParent, destinationParent) :=
    if reverse then
      (step.destination, step.source, step.expectedDestinationParent,
        step.expectedSourceParent)
    else
      (step.source, step.destination, step.expectedSourceParent,
        step.expectedDestinationParent)
  match step.kind with
  | some kind =>
      .withAuthorization source destination step.expectedSource sourceParent
        destinationParent kind step.scope
  | none =>
      .withLegacySameParentAuthorization source destination step.expectedSource
        sourceParent destinationParent

def reverseOperation (step : JournalStep) : RenameOperation := operation step true

def forwardOperation (step : JournalStep) : RenameOperation := operation step false

def endpointKey (path : LegacyText) (parent : EntryIdentity) :
    ExceptT RecoveryBlockKind Engine PathKey := do
  match ← plannedEntryKey parent (pathLeaf path) with
  | .ok key => pure key
  | .error error => throw (.backend error)

/-- Adds the endpoints of the steps; the first step of an entry also places it. -/
def initialOccupancyFrom : List JournalStep → EndpointMap → ExtTreeSet EntryId →
    ExceptT RecoveryBlockKind Engine EndpointMap
  | [], occupancy, _ => pure occupancy
  | step :: steps, occupancy, seenEntries => do
      let sourceKey ← endpointKey step.source step.expectedSourceParent
      let destinationKey ← endpointKey step.destination step.expectedDestinationParent
      let occupancy := (occupancy.insertIfNew sourceKey none).insertIfNew destinationKey none
      if seenEntries.contains step.entry then
        initialOccupancyFrom steps occupancy seenEntries
      else if occupancy[sourceKey]?.any fun entry =>
          entry.any fun entry => entry != step.expectedSource then
        throw .journalCorrupt
      else
        initialOccupancyFrom steps (occupancy.insert sourceKey (some step.expectedSource))
          (seenEntries.insert step.entry)

def initialOccupancy (steps : List JournalStep) :
    ExceptT RecoveryBlockKind Engine EndpointMap :=
  initialOccupancyFrom steps ∅ ∅

def applyStep (occupancy : EndpointMap) (step : JournalStep) (reverse : Bool) :
    ExceptT RecoveryBlockKind Engine EndpointMap := do
  let (source, sourceParent, destination, destinationParent) :=
    if reverse then
      (step.destination, step.expectedDestinationParent, step.source,
        step.expectedSourceParent)
    else
      (step.source, step.expectedSourceParent, step.destination,
        step.expectedDestinationParent)
  let sourceKey ← endpointKey source sourceParent
  let destinationKey ← endpointKey destination destinationParent
  if occupancy[sourceKey]? != some (some step.expectedSource) ||
      occupancy[destinationKey]? != some none then
    throw .journalCorrupt
  else
    pure ((occupancy.insert sourceKey none).insert destinationKey (some step.expectedSource))

def observeEndpoint (path : LegacyText) (expectedParent expectedSource : EntryIdentity)
    (expectedKind : Option EntryKind) (observed : EndpointMap) :
    ExceptT RecoveryBlockKind Engine EndpointMap := do
  match ← observe path with
  | .error error => throw (.backend error)
  | .ok snapshot =>
      if snapshot.parent != expectedParent then throw .parentChanged
      else if snapshot.entry.any fun entry => entry.isReparsePoint then
        throw .stateMismatch
      else if snapshot.entry.any fun entry =>
          entry.identity == expectedSource &&
            expectedKind.any fun kind => entry.kind != kind then
        throw .stateMismatch
      else do
        let key ← endpointKey path expectedParent
        let identity := snapshot.entry.map ObservedEntry.identity
        if observed[key]?.any fun previous => previous != identity then
          throw .stateMismatch
        else pure (observed.insert key identity)

def observeFrom : List JournalStep → EndpointMap →
    ExceptT RecoveryBlockKind Engine EndpointMap
  | [], observed => pure observed
  | step :: steps, observed => do
      let observed ← observeEndpoint step.source step.expectedSourceParent
        step.expectedSource step.kind observed
      let observed ← observeEndpoint step.destination step.expectedDestinationParent
        step.expectedSource step.kind observed
      observeFrom steps observed

def observeAll (steps : List JournalStep) : ExceptT RecoveryBlockKind Engine EndpointMap :=
  observeFrom steps ∅

def occupancyMatches (expected observed : EndpointMap) : Bool := expected == observed

/-- The completed steps of both directions and the last prepared step. -/
structure TransitionSets where
  forward : ExtTreeSet ℕ
  rollback : ExtTreeSet ℕ
  prepared : Option (ℕ × JournalDirection)

def TransitionSets.initial : TransitionSets := ⟨∅, ∅, none⟩

/-- One record of the first loop of `transition_state`. -/
def TransitionSets.read (sets : TransitionSets) : JournalRecord → TransitionSets
  | .prepared step direction => { sets with prepared := some (step, direction) }
  | .completed step .forward =>
      { sets with forward := sets.forward.insert step, prepared := none }
  | .completed step .rollback =>
      { sets with rollback := sets.rollback.insert step, prepared := none }
  | .notApplied _ _ => { sets with prepared := none }
  | .intent _ _ => sets
  | .terminal _ => sets

def transitionSets (records : List JournalRecord) : TransitionSets :=
  (records.drop 1).foldl TransitionSets.read .initial

/-- The second loop of `transition_state`: the completed moves, in journal order. -/
def replayOccupancy (steps : List JournalStep) : List JournalRecord → EndpointMap →
    ExceptT RecoveryBlockKind Engine EndpointMap
  | [], expected => pure expected
  | .completed step direction :: records, expected =>
      match steps[step]? with
      | none => throw .journalCorrupt
      | some journalStep => do
          let expected ← applyStep expected journalStep (direction == .rollback)
          replayOccupancy steps records expected
  | _ :: records, expected => replayOccupancy steps records expected

def transitionState (records : List JournalRecord) (steps : List JournalStep) :
    ExceptT RecoveryBlockKind Engine TransitionState := do
  let sets := transitionSets records
  let initial ← initialOccupancy steps
  let expected ← replayOccupancy steps (records.drop 1) initial
  let observed ← observeAll steps
  match sets.prepared with
  | some (stepIndex, direction) =>
      match steps[stepIndex]? with
      | none => throw .journalCorrupt
      | some step => do
          let appliedCandidate ← applyStep expected step (direction == .rollback)
          match occupancyMatches expected observed,
              occupancyMatches appliedCandidate observed with
          | true, false =>
              pure ⟨sets.forward, sets.rollback, some ⟨stepIndex, direction, false⟩⟩
          | false, true =>
              pure ⟨sets.forward, sets.rollback, some ⟨stepIndex, direction, true⟩⟩
          | _, _ => throw .stateMismatch
  | none =>
      if occupancyMatches expected observed then
        pure ⟨sets.forward, sets.rollback, none⟩
      else throw .stateMismatch

/-- The sets once the prepared step is journalled as applied or not applied. -/
def TransitionState.resolve (transitions : TransitionState) (prepared : PreparedState) :
    TransitionState :=
  match prepared.direction, prepared.applied with
  | .forward, true => { transitions with forward := transitions.forward.insert prepared.step }
  | .rollback, true => { transitions with rollback := transitions.rollback.insert prepared.step }
  | _, _ => transitions

/-- The steps still to be reversed, the last one first. -/
def TransitionState.remaining (transitions : TransitionState) : List ℕ :=
  (transitions.forward.toList.filter fun step =>
    !transitions.rollback.contains step).reverse

/-- The reverse loop and the terminal record after it. -/
def restore (plan : PlanId) (steps : List JournalStep) (restoredSteps : ℕ) :
    List ℕ → Engine RecoveryOutcome
  | [] => do
      match ← terminal .rolledBack with
      | .error error => pure (.recoveryRequired plan (.journal error))
      | .ok _ => pure (.recovered plan restoredSteps)
  | stepIndex :: remaining =>
      match steps[stepIndex]? with
      | none => pure (.blocked (some plan) .journalCorrupt)
      | some step => do
          match ← prepared stepIndex .rollback with
          | .error error => pure (.recoveryRequired plan (.journal error))
          | .ok _ =>
              match ← renameNoReplace (reverseOperation step) with
              | .error error =>
                  if error.certainty = .notApplied then
                    match ← notApplied stepIndex .rollback with
                    | .error journalError =>
                        pure (.recoveryRequired plan (.journal journalError))
                    | .ok _ => pure (.recoveryRequired plan (.backend error))
                  else pure (.recoveryRequired plan (.backend error))
              | .ok _ =>
                  match ← completed stepIndex .rollback with
                  | .error error => pure (.recoveryRequired plan (.journal error))
                  | .ok _ => restore plan steps restoredSteps remaining

def restoreRemaining (plan : PlanId) (steps : List JournalStep)
    (transitions : TransitionState) : Engine RecoveryOutcome :=
  restore plan steps transitions.remaining.length transitions.remaining

/-- Journals how the prepared step ended, before any step is reversed. -/
def reconcile (plan : PlanId) (steps : List JournalStep)
    (transitions : TransitionState) : Engine RecoveryOutcome :=
  match transitions.prepared with
  | none => restoreRemaining plan steps transitions
  | some resolved => do
      match ← (if resolved.applied then completed resolved.step resolved.direction
        else notApplied resolved.step resolved.direction) with
      | .error error => pure (.recoveryRequired plan (.journal error))
      | .ok _ => restoreRemaining plan steps (transitions.resolve resolved)

/-- Recovery from the loaded records. -/
def recoverRecords (records : List JournalRecord) : Engine RecoveryOutcome :=
  match replayJournal records with
  | .clean => pure .notRequired
  | .recoveryRequired plan _ _ (.corrupt _) => pure (.blocked plan .journalCorrupt)
  | .recoveryRequired _ _ _ _ =>
      match records with
      | .intent plan steps :: _ =>
          if steps.any fun step => (forwardOperation step).authorizationError.isSome then
            pure (.blocked (some plan) .unauthorizedOperation)
          else do
            match ← (transitionState records steps).run with
            | .error reason => pure (.blocked (some plan) reason)
            | .ok transitions => reconcile plan steps transitions
      | _ => pure (.blocked none .journalCorrupt)

/-- Loads and reconciles the retained journal before performing reverse moves. -/
def rollback : Engine RecoveryOutcome := do
  match ← journalSnapshot with
  | .error error => pure (.blocked none (.journal error))
  | .ok records => recoverRecords records

end Recovery

end DarkReNamer
