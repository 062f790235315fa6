import DarkReNamer.Rename.Model
import DarkReNamer.UndoLog.Phase

/-!
# Journal records

The records a transaction writes before and after every primitive move
(`rename/journal.rs`). A step decoded from the first journal format carries no
kind; such a step never carries more authority than a move inside one parent,
which is why `JournalStep` keeps `legacy_scope` beside its fields.

All records but the intent are records of the undo log in `UndoLog/Phase.lean`.
-/

namespace DarkReNamer

/-- Identity-bound primitive step, persisted before mutation. -/
structure JournalStep where
  entry : EntryId
  source : LegacyText
  destination : LegacyText
  expectedSource : EntryIdentity
  expectedSourceParent : EntryIdentity
  expectedDestinationParent : EntryIdentity
  kind : Option EntryKind
  scope : MoveScope
  temporaryPhase : TemporaryPhase
  legacy_scope : kind = none → scope = .sameParent
  deriving DecidableEq

namespace JournalStep

/-- One manifest entry with the default authorization. -/
def new (entry : EntryId) (source destination : LegacyText)
    (expectedSource expectedSourceParent expectedDestinationParent : EntryIdentity)
    (temporaryPhase : TemporaryPhase) : JournalStep :=
  { entry, source, destination, expectedSource, expectedSourceParent,
    expectedDestinationParent, kind := some .file, scope := .sameParent,
    temporaryPhase, legacy_scope := fun _ => rfl }

/-- Replaces the default by an explicit move authorization. -/
def withMoveAuthorization (step : JournalStep) (kind : EntryKind)
    (scope : MoveScope) : JournalStep :=
  { step with kind := some kind, scope, legacy_scope := by simp }

/-- A step decoded from the first journal format. -/
def legacySameParent (entry : EntryId) (source destination : LegacyText)
    (expectedSource expectedSourceParent expectedDestinationParent : EntryIdentity)
    (temporaryPhase : TemporaryPhase) : JournalStep :=
  { entry, source, destination, expectedSource, expectedSourceParent,
    expectedDestinationParent, kind := none, scope := .sameParent,
    temporaryPhase, legacy_scope := fun _ => rfl }

end JournalStep

/-- Direction of a journalled primitive move. -/
abbrev JournalDirection : Type := UndoLog.Direction

/-- Verified terminal transaction state. -/
abbrev JournalTerminal : Type := UndoLog.Terminal

/-- One durable state-machine record. -/
inductive JournalRecord where
  | intent (plan : PlanId) (steps : List JournalStep)
  | prepared (step : ℕ) (direction : JournalDirection)
  | completed (step : ℕ) (direction : JournalDirection)
  | notApplied (step : ℕ) (direction : JournalDirection)
  | terminal (value : JournalTerminal)
  deriving DecidableEq

/-- A record of the undo log as a journal record. -/
def JournalRecord.ofLog : UndoLog.Record → JournalRecord
  | .prepared step direction => .prepared step direction
  | .completed step direction => .completed step direction
  | .notApplied step direction => .notApplied step direction
  | .terminal value => .terminal value

/-- Every journal record is an intent or a record of the undo log. -/
theorem JournalRecord.intent_or_ofLog (record : JournalRecord) :
    (∃ plan steps, record = .intent plan steps) ∨ ∃ r, record = .ofLog r := by
  cases record with
  | intent plan steps => exact .inl ⟨plan, steps, rfl⟩
  | prepared step direction => exact .inr ⟨.prepared step direction, rfl⟩
  | completed step direction => exact .inr ⟨.completed step direction, rfl⟩
  | notApplied step direction => exact .inr ⟨.notApplied step direction, rfl⟩
  | terminal value => exact .inr ⟨.terminal value, rfl⟩

end DarkReNamer
