import DarkReNamer.Core.LegacyText

/-!
# Plan data

Identifiers, snapshots, requests and plans as `rename/model.rs` has them. The
fields that only the confirmation interface reads stay with the data they
belong to; the display texts of the errors are left out.

A `RenameIntent` can only be built from a parent and a name, so its destination
is a function of them and not a field of its own.
-/

namespace DarkReNamer

open Std

/-- A row identifier scoped to one plan request. -/
structure EntryId where
  value : UInt32
  deriving DecidableEq, Repr

/-- Revision of the list model a plan was built from. -/
structure ModelRevision where
  value : UInt64
  deriving DecidableEq, Repr

/-- Deterministic display fingerprint of a plan. -/
structure PlanId where
  fingerprint : UInt64
  deriving DecidableEq, Repr

inductive EntryKind where
  | file
  | directory
  deriving DecidableEq, Repr

/-- Movement boundary authorized for one plan. -/
inductive MoveScope where
  | sameParent
  | sameVolumeFilesOnly
  deriving DecidableEq, Repr

/-- Whether a primitive step enters or leaves a temporary endpoint. -/
inductive TemporaryPhase where
  | none
  | intoTemporary
  | fromTemporary
  deriving DecidableEq, Repr

/-- Stable filesystem identity: a 64-bit volume and a 128-bit file identifier. -/
structure EntryIdentity where
  volume : UInt64
  fileId : BitVec 128
  deriving DecidableEq, Repr

/-- Backend-owned comparison key of one path. -/
structure PathKey where
  units : List UInt16
  deriving DecidableEq, Repr

instance : Ord EntryId := ⟨compareOn EntryId.value⟩

instance : Ord PathKey := ⟨compareOn PathKey.units⟩

instance : Ord EntryIdentity :=
  ⟨compareLex (compareOn EntryIdentity.volume) (compareOn EntryIdentity.fileId)⟩

instance : TransOrd EntryId :=
  inferInstanceAs (TransCmp (compareOn EntryId.value))

instance : TransOrd PathKey :=
  inferInstanceAs (TransCmp (compareOn PathKey.units))

instance : TransOrd EntryIdentity :=
  inferInstanceAs (TransCmp (compareLex (compareOn EntryIdentity.volume)
    (compareOn EntryIdentity.fileId)))

instance : LawfulEqOrd EntryId where
  eq_of_compare {a b} h := by
    cases a
    cases b
    have hvalue := LawfulEqOrd.eq_of_compare (α := UInt32) h
    simpa using hvalue

instance : LawfulEqOrd PathKey where
  eq_of_compare {a b} h := by
    cases a
    cases b
    have hunits := LawfulEqOrd.eq_of_compare (α := List UInt16) h
    simpa using hunits

instance : LawfulEqOrd EntryIdentity where
  eq_of_compare {a b} h := by
    obtain ⟨hvolume, hfile⟩ := compareLex_eq_eq.1 h
    cases a
    cases b
    have h₁ := LawfulEqOrd.eq_of_compare (α := UInt64) hvolume
    have h₂ := LawfulEqOrd.eq_of_compare (α := BitVec 128) hfile
    simp_all

/-- One entry observed during planning or execution freeze. -/
structure ObservedEntry where
  identity : EntryIdentity
  kind : EntryKind
  isReparsePoint : Bool
  deriving DecidableEq, Repr

/-- One path observation bound to its parent identity. -/
structure PathSnapshot where
  parent : EntryIdentity
  entry : Option ObservedEntry
  deriving DecidableEq, Repr

/-- One source resolved through a single identity boundary. -/
structure ResolvedSource where
  path : LegacyText
  snapshot : PathSnapshot
  entryKey : Option PathKey
  deriving DecidableEq, Repr

/-- One source-to-destination intent of the list. -/
structure RenameIntent where
  id : EntryId
  source : LegacyText
  destinationParent : LegacyText
  destinationName : LegacyText
  kind : EntryKind
  deriving DecidableEq, Repr

/-- The destination path: the parent and the name, with a separator between them
unless the parent already ends in one. -/
def RenameIntent.destination (intent : RenameIntent) : LegacyText :=
  if intent.destinationParent.units.getLast?.any isSeparator then
    ⟨intent.destinationParent.units ++ intent.destinationName.units⟩
  else
    ⟨intent.destinationParent.units ++ backslash :: intent.destinationName.units⟩

/-- Complete list state submitted for planning. -/
structure PlanRequest where
  revision : ModelRevision
  entries : List RenameIntent
  scope : MoveScope
  deriving DecidableEq, Repr

structure PlanRow where
  id : EntryId
  source : LegacyText
  destination : LegacyText
  kind : EntryKind
  sourceSnapshot : PathSnapshot
  destinationSnapshot : PathSnapshot
  sourceEntryKey : PathKey
  destinationEntryKey : PathKey
  deriving DecidableEq, Repr

/-- Immutable, validated rename plan. -/
structure RenamePlan where
  id : PlanId
  revision : ModelRevision
  entries : List PlanRow
  scope : MoveScope
  deriving DecidableEq, Repr

/-- One-shot token for the exact plan shown to the caller. -/
structure ConfirmedPlan where
  plan : RenamePlan
  deriving DecidableEq, Repr

inductive ConfirmationError where
  | planMismatch
  | revisionMismatch
  deriving DecidableEq, Repr

/-- Consumes a plan after the caller confirms its displayed identity. -/
def RenamePlan.confirmPresented (plan : RenamePlan) (displayedId : PlanId)
    (displayedRevision : ModelRevision) : Except ConfirmationError ConfirmedPlan :=
  if plan.id ≠ displayedId then .error .planMismatch
  else if plan.revision ≠ displayedRevision then .error .revisionMismatch
  else .ok ⟨plan⟩

end DarkReNamer
