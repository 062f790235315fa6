import DarkReNamer.Core.NatSets
import DarkReNamer.Rename.Ports

/-!
# Schedule construction

`buildSchedule` turns a plan into a list of primitive steps (`rename/schedule.rs`).
A row whose destination is the source of another row waits for that row; the rows
that wait for nobody are taken from the front of a ready set, and when there is
none the first remaining row is moved to a temporary name, which opens its cycle.

The two loops carry a bound on their rounds, one more than the number of rows. The
bound is never reached (`Schedule/Bounds.lean`). Indices are always in range; the
branches for an index out of range, which panic in the source, give `invalid`.
-/

namespace DarkReNamer

open Std Interaction

/-- Maximum temporary-name probes for one cycle pivot. -/
def maxTempCandidates : ℕ := 32

structure ScheduleStep where
  entry : EntryId
  source : LegacyText
  destination : LegacyText
  identity : EntryIdentity
  sourceParent : EntryIdentity
  destinationParent : EntryIdentity
  kind : EntryKind
  scope : MoveScope
  temporaryPhase : TemporaryPhase
  deriving DecidableEq, Repr

inductive ScheduleError where
  | cancelled
  | invalid
  | backend (error : BackendError)
  | staleParent (entry : EntryId)
  | temporaryExhausted (entry : EntryId)
  deriving DecidableEq, Repr

/-- A lower-case hexadecimal digit. -/
def hexDigit (digit : ℕ) : UInt16 :=
  if digit < 10 then (48 + digit).toUInt16 else (87 + digit).toUInt16

/-- The last `width` hexadecimal digits of a number. -/
def hexUnits : ℕ → ℕ → List UInt16
  | 0, _ => []
  | width + 1, value => hexUnits width (value / 16) ++ [hexDigit (value % 16)]

/-- The leaf of one temporary candidate. -/
def temporaryLeaf (plan : PlanId) (nonce : BitVec 128) (pivot : EntryId) (ordinal : ℕ) :
    LegacyText :=
  ⟨(LegacyText.ofAscii ".__darknamer_").units ++ hexUnits 16 plan.fingerprint.toNat ++
    (LegacyText.ofAscii "_").units ++ hexUnits 32 nonce.toNat ++
    (LegacyText.ofAscii "_").units ++ hexUnits 8 pivot.value.toNat ++
    (LegacyText.ofAscii "_").units ++ hexUnits 2 ordinal ++
    (LegacyText.ofAscii ".tmp").units⟩

namespace Schedule

def checkCancelled : ExceptT ScheduleError Engine Unit := do
  if ← cancellationRequested then throw .cancelled else pure ()

def sourceIdentity (entry : PlanRow) : Except ScheduleError EntryIdentity :=
  match entry.sourceSnapshot.entry with
  | some source => .ok source.identity
  | none => .error .invalid

/-- The step of a row that goes straight to its destination. -/
def straightStep (entry : PlanRow) (identity : EntryIdentity) (scope : MoveScope) :
    ScheduleStep :=
  { entry := entry.id
    source := entry.source
    destination := entry.destination
    identity
    sourceParent := entry.sourceSnapshot.parent
    destinationParent := entry.destinationSnapshot.parent
    kind := entry.kind
    scope
    temporaryPhase := .none }

def directStep (entry : PlanRow) (scope : MoveScope) : Except ScheduleError ScheduleStep :=
  (sourceIdentity entry).map fun identity => straightStep entry identity scope

/-- The step that opens a cycle. -/
def intoTemporaryStep (entry : PlanRow) (temporary : LegacyText) (identity : EntryIdentity)
    (scope : MoveScope) : ScheduleStep :=
  { entry := entry.id
    source := entry.source
    destination := temporary
    identity
    sourceParent := entry.sourceSnapshot.parent
    destinationParent := entry.sourceSnapshot.parent
    kind := entry.kind
    scope
    temporaryPhase := .intoTemporary }

/-- The step that closes a cycle. -/
def fromTemporaryStep (entry : PlanRow) (temporary : LegacyText) (identity : EntryIdentity)
    (scope : MoveScope) : ScheduleStep :=
  { entry := entry.id
    source := temporary
    destination := entry.destination
    identity
    sourceParent := entry.sourceSnapshot.parent
    destinationParent := entry.destinationSnapshot.parent
    kind := entry.kind
    scope
    temporaryPhase := .fromTemporary }

/-- The candidate path of a leaf beside the pivot. -/
def temporaryPath (pivot : PlanRow) (leaf : LegacyText) : LegacyText :=
  ⟨beforeLastSeparator pivot.source.units ++ backslash :: leaf.units⟩

/-- The probe of the candidates from `ordinal` on, `count` of them. -/
def probeTemporary (plan : RenamePlan) (pivot : PlanRow) (nonce : BitVec 128)
    (reserved : ExtTreeSet PathKey) (ordinal : ℕ) :
    ℕ → ExceptT ScheduleError Engine (LegacyText × ExtTreeSet PathKey)
  | 0 => throw (.temporaryExhausted pivot.id)
  | count + 1 => do
      checkCancelled
      let leaf := temporaryLeaf plan.id nonce pivot.id ordinal
      let path := temporaryPath pivot leaf
      match ← plannedEntryKey pivot.sourceSnapshot.parent leaf with
      | .error error => throw (.backend error)
      | .ok key =>
          if reserved.contains key then
            probeTemporary plan pivot nonce reserved (ordinal + 1) count
          else
            match ← observe path with
            | .error error => throw (.backend error)
            | .ok snapshot =>
                if snapshot.parent ≠ pivot.sourceSnapshot.parent then
                  throw (.staleParent pivot.id)
                else if snapshot.entry.isNone then pure (path, reserved.insert key)
                else probeTemporary plan pivot nonce reserved (ordinal + 1) count

def uniqueTemporaryPath (plan : RenamePlan) (pivot : PlanRow)
    (reserved : ExtTreeSet PathKey) :
    ExceptT ScheduleError Engine (LegacyText × ExtTreeSet PathKey) := do
  checkCancelled
  match ← nextTransactionNonce with
  | .error error => throw (.backend error)
  | .ok nonce => probeTemporary plan pivot nonce reserved 0 maxTempCandidates

/-- One cancellation check for every element. -/
def checkEach {α : Type} : List α → ExceptT ScheduleError Engine Unit
  | [] => pure ()
  | _ :: rest => do
      checkCancelled
      checkEach rest

/-- Inserts the keys, one check for each. -/
def reserveKeys : List PathKey → ExtTreeSet PathKey →
    ExceptT ScheduleError Engine (ExtTreeSet PathKey)
  | [], reserved => pure reserved
  | key :: keys, reserved => do
      checkCancelled
      reserveKeys keys (reserved.insert key)

/-- The row that owns each source key. -/
def ownersFrom : List PathKey → ℕ → ExtTreeMap PathKey ℕ →
    ExceptT ScheduleError Engine (ExtTreeMap PathKey ℕ)
  | [], _, owners => pure owners
  | key :: keys, index, owners => do
      checkCancelled
      if owners.contains key then throw .invalid
      else ownersFrom keys (index + 1) (owners.insert key index)

/-- For each row the row it waits for, and for each row the row that waits for it. -/
structure Dependencies where
  dependencies : List (Option ℕ)
  predecessors : List (Option ℕ)

def dependenciesFrom (owners : ExtTreeMap PathKey ℕ) : List PathKey → ℕ → Dependencies →
    ExceptT ScheduleError Engine Dependencies
  | [], _, deps => pure deps
  | destination :: destinations, index, deps => do
      checkCancelled
      match owners[destination]? with
      | none => dependenciesFrom owners destinations (index + 1) deps
      | some owner =>
          if deps.predecessors[owner]?.join.isSome then throw .invalid
          else
            dependenciesFrom owners destinations (index + 1)
              ⟨deps.dependencies.set index (some owner),
                deps.predecessors.set owner (some index)⟩

/-- The indices of all rows and of those that wait for nobody. -/
def readyFrom : List (Option ℕ) → ℕ → ExtTreeSet ℕ → ExtTreeSet ℕ →
    ExceptT ScheduleError Engine (ExtTreeSet ℕ × ExtTreeSet ℕ)
  | [], _, remainingIndices, ready => pure (remainingIndices, ready)
  | dependency :: rest, index, remainingIndices, ready => do
      checkCancelled
      readyFrom rest (index + 1) (remainingIndices.insert index)
        (if dependency.isNone then ready.insert index else ready)

/-- The variables of the main loop. -/
structure LoopState where
  pending : List Bool
  remaining : ℕ
  remainingIndices : ExtTreeSet ℕ
  ready : ExtTreeSet ℕ
  reserved : ExtTreeSet PathKey
  schedule : List ScheduleStep

namespace LoopState

/-- Whether a row is still to be scheduled. -/
def isPending (st : LoopState) (index : ℕ) : Bool := st.pending.getD index false

/-- Takes a row off the remaining ones. -/
def finish (st : LoopState) (index : ℕ) : Except ScheduleError LoopState :=
  if st.remainingIndices.contains index then
    .ok { st with
      pending := st.pending.set index false
      remaining := st.remaining - 1
      remainingIndices := st.remainingIndices.erase index }
  else .error .invalid

def push (st : LoopState) (step : ScheduleStep) : LoopState :=
  { st with schedule := st.schedule ++ [step] }

end LoopState

/-- Schedules a row straight to its destination. -/
def scheduleDirect (plan : RenamePlan) (st : LoopState) (index : ℕ) :
    Except ScheduleError LoopState :=
  match plan.entries[index]? with
  | none => .error .invalid
  | some entry =>
      if !st.isPending index then .error .invalid
      else do
        let step ← directStep entry plan.scope
        (st.push step).finish index

/-- The rows of the cycle of `pivot`, from the predecessor of `freed` on. -/
def cycleRows (plan : RenamePlan) (predecessors : List (Option ℕ)) (pivot : ℕ) :
    ℕ → ℕ → LoopState → ExceptT ScheduleError Engine LoopState
  | 0, _, _ => throw .invalid
  | rounds + 1, freed, st =>
      match predecessors[freed]?.join with
      | none => pure st
      | some index => do
          checkCancelled
          if index = pivot then pure st
          else do
            let st ← ExceptT.mk (pure (scheduleDirect plan st index))
            cycleRows plan predecessors pivot rounds index st

/-- Schedules the cycle of the first remaining row through a temporary name. -/
def scheduleCycle (plan : RenamePlan) (predecessors : List (Option ℕ)) (st : LoopState) :
    ExceptT ScheduleError Engine LoopState :=
  match firstIndex st.remainingIndices with
  | none => throw .invalid
  | some pivot =>
      match plan.entries[pivot]? with
      | none => throw .invalid
      | some entry => do
          let (temporary, reserved) ← uniqueTemporaryPath plan entry st.reserved
          let identity ← ExceptT.mk (pure (sourceIdentity entry))
          let st := { st with reserved }
          let st ← cycleRows plan predecessors pivot (plan.entries.length + 1) pivot
            (st.push (intoTemporaryStep entry temporary identity plan.scope))
          ExceptT.mk (pure
            ((st.push (fromTemporaryStep entry temporary identity plan.scope)).finish pivot))

/-- Schedules a row that waits for nobody. -/
def scheduleReady (plan : RenamePlan) (predecessors : List (Option ℕ)) (st : LoopState)
    (index : ℕ) : Except ScheduleError LoopState := do
  let st ← scheduleDirect plan { st with ready := st.ready.erase index } index
  match predecessors[index]?.join with
  | some predecessor =>
      if st.isPending predecessor then
        pure { st with ready := st.ready.insert predecessor }
      else pure st
  | none => pure st

def mainLoop (plan : RenamePlan) (predecessors : List (Option ℕ)) :
    ℕ → LoopState → ExceptT ScheduleError Engine (List ScheduleStep)
  | 0, _ => throw .invalid
  | rounds + 1, st =>
      if st.remaining = 0 then pure st.schedule
      else do
        checkCancelled
        match firstIndex st.ready with
        | some index => do
            let st ← ExceptT.mk (pure (scheduleReady plan predecessors st index))
            mainLoop plan predecessors rounds st
        | none => do
            let st ← scheduleCycle plan predecessors st
            mainLoop plan predecessors rounds st

end Schedule

open Schedule in
/-- The primitive steps of a plan, in execution order. -/
def buildSchedule (plan : RenamePlan) : ExceptT ScheduleError Engine (List ScheduleStep) := do
  checkEach plan.entries
  let sourceKeys := plan.entries.map PlanRow.sourceEntryKey
  let destinationKeys := plan.entries.map PlanRow.destinationEntryKey
  let reserved ← reserveKeys (sourceKeys ++ destinationKeys) ∅
  let owners ← ownersFrom sourceKeys 0 ∅
  let unset : List (Option ℕ) := plan.entries.map fun _ => none
  let deps ← dependenciesFrom owners destinationKeys 0 ⟨unset, unset⟩
  let (remainingIndices, ready) ← readyFrom deps.dependencies 0 ∅ ∅
  mainLoop plan deps.predecessors (plan.entries.length + 1)
    { pending := plan.entries.map fun _ => true
      remaining := plan.entries.length
      remainingIndices
      ready
      reserved
      schedule := [] }

end DarkReNamer
