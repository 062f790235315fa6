import DarkReNamer.Interaction.Run
import DarkReNamer.Rename.Journal.Record

/-!
# Ports

The calls through which planning, execution and recovery touch the outside
(`rename/ports.rs` and the `ExecutionControl` trait): the filesystem backend,
the journal and the cooperative control. One call type covers the three ports,
so that a run has one trace in which their calls are interleaved.
-/

namespace DarkReNamer

open Interaction

def errorNotSameDevice : UInt32 := 17

def errorAccessDenied : UInt32 := 5

/-- Backend operation associated with an error. -/
inductive BackendOperation where
  | observe
  | rename
  | transactionNonce
  deriving DecidableEq, Repr

/-- Whether a failed mutation definitely left the filesystem unchanged. -/
inductive MutationCertainty where
  | notApplied
  | mayHaveApplied
  deriving DecidableEq, Repr

structure BackendError where
  operation : BackendOperation
  code : UInt32
  certainty : MutationCertainty
  deriving DecidableEq, Repr

/-- One identity-bound, no-replace primitive rename. -/
structure RenameOperation where
  source : LegacyText
  destination : LegacyText
  expectedSource : EntryIdentity
  expectedSourceParent : EntryIdentity
  expectedDestinationParent : EntryIdentity
  kind : Option EntryKind
  scope : MoveScope
  deriving DecidableEq, Repr

namespace RenameOperation

def withAuthorization (source destination : LegacyText)
    (expectedSource expectedSourceParent expectedDestinationParent : EntryIdentity)
    (kind : EntryKind) (scope : MoveScope) : RenameOperation :=
  ⟨source, destination, expectedSource, expectedSourceParent,
    expectedDestinationParent, some kind, scope⟩

def withLegacySameParentAuthorization (source destination : LegacyText)
    (expectedSource expectedSourceParent expectedDestinationParent : EntryIdentity) :
    RenameOperation :=
  ⟨source, destination, expectedSource, expectedSourceParent,
    expectedDestinationParent, none, .sameParent⟩

/-- Why the frozen identities do not authorize this move. -/
def authorizationError (op : RenameOperation) : Option BackendError :=
  if op.expectedSource.volume ≠ op.expectedSourceParent.volume ∨
      op.expectedSourceParent.volume ≠ op.expectedDestinationParent.volume then
    some ⟨.rename, errorNotSameDevice, .notApplied⟩
  else if op.expectedSourceParent ≠ op.expectedDestinationParent ∧
      (op.scope = .sameParent ∨ op.kind ≠ some .file) then
    some ⟨.rename, errorAccessDenied, .notApplied⟩
  else
    none

/-- A move on one volume is authorized when it stays in its parent, or when it takes a
file and its scope allows another parent. -/
theorem authorizationError_eq_none {op : RenameOperation}
    (hvolume : op.expectedSource.volume = op.expectedSourceParent.volume)
    (hparents : op.expectedSourceParent.volume = op.expectedDestinationParent.volume)
    (hboundary : op.expectedSourceParent ≠ op.expectedDestinationParent →
      op.scope = .sameVolumeFilesOnly ∧ op.kind = some .file) :
    op.authorizationError = none := by
  have hcrosses : ¬ (op.expectedSourceParent ≠ op.expectedDestinationParent ∧
      (op.scope = .sameParent ∨ op.kind ≠ some .file)) := by
    rintro ⟨hne, hrefused⟩
    obtain ⟨hscope, hkind⟩ := hboundary hne
    rcases hrefused with h | h
    · rw [hscope] at h
      cases h
    · exact h hkind
  simp only [authorizationError, hvolume, hparents, ne_eq, not_true_eq_false, or_self, if_false]
  exact if_neg hcrosses

end RenameOperation

/-- The leaf of a path: what follows its last separator. -/
def pathLeaf (path : LegacyText) : LegacyText := ⟨afterLastSeparator path.units⟩

/-- Whether a failed append may have reached the journal. -/
inductive AppendCertainty where
  | notAppended
  | mayHaveAppended
  deriving DecidableEq, Repr

structure JournalError where
  code : UInt32
  certainty : AppendCertainty
  deriving DecidableEq, Repr

namespace JournalError

def notAppended (code : UInt32) : JournalError := ⟨code, .notAppended⟩

def mayHaveAppended (code : UInt32) : JournalError := ⟨code, .mayHaveAppended⟩

end JournalError

/-- High-level phase reported by the executor. -/
inductive ExecutionPhase where
  | ready
  | forward
  | rollback
  | finalizing
  | terminal
  deriving DecidableEq, Repr

/-- Progress at a durable step boundary. -/
structure ExecutionProgress where
  phase : ExecutionPhase
  completed : ℕ
  total : ℕ
  deriving DecidableEq, Repr

/-- Calls of the filesystem backend. -/
inductive BackendCall where
  | validatePathEnvironment (path : LegacyText)
  | pathKey (path : LegacyText)
  | resolveSource (path : LegacyText)
  | plannedEntryKey (parent : EntryIdentity) (leaf : LegacyText)
  | observe (path : LegacyText)
  | nextTransactionNonce
  | renameNoReplace (operation : RenameOperation)
  deriving DecidableEq

abbrev BackendAnswer : BackendCall → Type
  | .validatePathEnvironment _ => Except BackendError Unit
  | .pathKey _ => PathKey
  | .resolveSource _ => Except BackendError ResolvedSource
  | .plannedEntryKey _ _ => Except BackendError PathKey
  | .observe _ => Except BackendError PathSnapshot
  | .nextTransactionNonce => Except BackendError (BitVec 128)
  | .renameNoReplace _ => Except BackendError Unit

/-- Calls of the journal: the snapshot of the retained capability, and the append
of one record. `begin`, `prepared`, `completed`, `not_applied` and `terminal`
each append the record of that name, with or without an authorization. -/
inductive JournalCall where
  | snapshot
  | append (record : JournalRecord)
  deriving DecidableEq

abbrev JournalAnswer : JournalCall → Type
  | .snapshot => Except JournalError (List JournalRecord)
  | .append _ => Except JournalError Unit

/-- Calls of the cooperative control. -/
inductive ControlCall where
  | cancellationRequested
  | beginTransaction
  | progress (value : ExecutionProgress)
  deriving DecidableEq

abbrev ControlAnswer : ControlCall → Type
  | .cancellationRequested => Bool
  | .beginTransaction => Bool
  | .progress _ => Unit

inductive Call where
  | backend (call : BackendCall)
  | journal (call : JournalCall)
  | control (call : ControlCall)
  deriving DecidableEq

abbrev Answer : Call → Type
  | .backend call => BackendAnswer call
  | .journal call => JournalAnswer call
  | .control call => ControlAnswer call

instance : (call : BackendCall) → DecidableEq (BackendAnswer call)
  | .validatePathEnvironment _ => inferInstanceAs (DecidableEq (Except BackendError Unit))
  | .pathKey _ => inferInstanceAs (DecidableEq PathKey)
  | .resolveSource _ => inferInstanceAs (DecidableEq (Except BackendError ResolvedSource))
  | .plannedEntryKey _ _ => inferInstanceAs (DecidableEq (Except BackendError PathKey))
  | .observe _ => inferInstanceAs (DecidableEq (Except BackendError PathSnapshot))
  | .nextTransactionNonce => inferInstanceAs (DecidableEq (Except BackendError (BitVec 128)))
  | .renameNoReplace _ => inferInstanceAs (DecidableEq (Except BackendError Unit))

instance : (call : JournalCall) → DecidableEq (JournalAnswer call)
  | .snapshot => inferInstanceAs (DecidableEq (Except JournalError (List JournalRecord)))
  | .append _ => inferInstanceAs (DecidableEq (Except JournalError Unit))

instance : (call : ControlCall) → DecidableEq (ControlAnswer call)
  | .cancellationRequested => inferInstanceAs (DecidableEq Bool)
  | .beginTransaction => inferInstanceAs (DecidableEq Bool)
  | .progress _ => inferInstanceAs (DecidableEq Unit)

instance : (call : Call) → DecidableEq (Answer call)
  | .backend call => inferInstanceAs (DecidableEq (BackendAnswer call))
  | .journal call => inferInstanceAs (DecidableEq (JournalAnswer call))
  | .control call => inferInstanceAs (DecidableEq (ControlAnswer call))

/-- The calls that neither append a record nor rename. -/
def Call.IsRead : Call → Prop
  | .backend (.renameNoReplace _) => False
  | .journal (.append _) => False
  | _ => True

/-- The reads of preparation: the backend and the request to stop, not the transaction. -/
def Call.Observes : Call → Prop
  | .backend (.renameNoReplace _) => False
  | .backend _ => True
  | .control .cancellationRequested => True
  | _ => False

theorem Call.Observes.isRead {call : Call} (h : call.Observes) : call.IsRead := by
  cases call with
  | backend call =>
      cases call with
      | renameNoReplace op => exact h
      | _ => trivial
  | journal call => exact h.elim
  | control call => trivial

/-- The calls answered by an error. -/
def Fails : (call : Call) → Answer call → Prop
  | .backend (.validatePathEnvironment _), .error _ => True
  | .backend (.resolveSource _), .error _ => True
  | .backend (.plannedEntryKey _ _), .error _ => True
  | .backend (.observe _), .error _ => True
  | .backend .nextTransactionNonce, .error _ => True
  | .backend (.renameNoReplace _), .error _ => True
  | .journal .snapshot, .error _ => True
  | .journal (.append _), .error _ => True
  | _, _ => False

instance : (call : Call) → (answer : Answer call) → Decidable (Fails call answer)
  | .backend (.validatePathEnvironment _), .error _ => .isTrue trivial
  | .backend (.validatePathEnvironment _), .ok _ => .isFalse id
  | .backend (.pathKey _), _ => .isFalse id
  | .backend (.resolveSource _), .error _ => .isTrue trivial
  | .backend (.resolveSource _), .ok _ => .isFalse id
  | .backend (.plannedEntryKey _ _), .error _ => .isTrue trivial
  | .backend (.plannedEntryKey _ _), .ok _ => .isFalse id
  | .backend (.observe _), .error _ => .isTrue trivial
  | .backend (.observe _), .ok _ => .isFalse id
  | .backend .nextTransactionNonce, .error _ => .isTrue trivial
  | .backend .nextTransactionNonce, .ok _ => .isFalse id
  | .backend (.renameNoReplace _), .error _ => .isTrue trivial
  | .backend (.renameNoReplace _), .ok _ => .isFalse id
  | .journal .snapshot, .error _ => .isTrue trivial
  | .journal .snapshot, .ok _ => .isFalse id
  | .journal (.append _), .error _ => .isTrue trivial
  | .journal (.append _), .ok _ => .isFalse id
  | .control _, _ => .isFalse id

/-- A program of the rename engine. -/
abbrev Engine (α : Type) : Type := Program Call Answer α

abbrev EngineEvent : Type := Event Call Answer

/-! The calls as programs, under the names of the port methods. -/

def validatePathEnvironment (path : LegacyText) : Engine (Except BackendError Unit) :=
  Program.ask (Call.backend (.validatePathEnvironment path))

def pathKey (path : LegacyText) : Engine PathKey :=
  Program.ask (Call.backend (.pathKey path))

def resolveSource (path : LegacyText) : Engine (Except BackendError ResolvedSource) :=
  Program.ask (Call.backend (.resolveSource path))

def plannedEntryKey (parent : EntryIdentity) (leaf : LegacyText) :
    Engine (Except BackendError PathKey) :=
  Program.ask (Call.backend (.plannedEntryKey parent leaf))

def observe (path : LegacyText) : Engine (Except BackendError PathSnapshot) :=
  Program.ask (Call.backend (.observe path))

def nextTransactionNonce : Engine (Except BackendError (BitVec 128)) :=
  Program.ask (Call.backend .nextTransactionNonce)

def renameNoReplace (operation : RenameOperation) : Engine (Except BackendError Unit) :=
  Program.ask (Call.backend (.renameNoReplace operation))

def journalSnapshot : Engine (Except JournalError (List JournalRecord)) :=
  Program.ask (Call.journal .snapshot)

def append (record : JournalRecord) : Engine (Except JournalError Unit) :=
  Program.ask (Call.journal (.append record))

def journalBegin (plan : PlanId) (steps : List JournalStep) :
    Engine (Except JournalError Unit) :=
  append (.intent plan steps)

def prepared (step : ℕ) (direction : JournalDirection) :
    Engine (Except JournalError Unit) :=
  append (.prepared step direction)

def completed (step : ℕ) (direction : JournalDirection) :
    Engine (Except JournalError Unit) :=
  append (.completed step direction)

def notApplied (step : ℕ) (direction : JournalDirection) :
    Engine (Except JournalError Unit) :=
  append (.notApplied step direction)

def terminal (value : JournalTerminal) : Engine (Except JournalError Unit) :=
  append (.terminal value)

def cancellationRequested : Engine Bool :=
  Program.ask (Call.control .cancellationRequested)

def beginTransaction : Engine Bool :=
  Program.ask (Call.control .beginTransaction)

def progress (phase : ExecutionPhase) (completed total : ℕ) : Engine Unit :=
  Program.ask (Call.control (.progress ⟨phase, completed, total⟩))

end DarkReNamer
