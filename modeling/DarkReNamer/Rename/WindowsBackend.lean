import DarkReNamer.Bytes.LittleEndian
import DarkReNamer.Core.ListItem
import DarkReNamer.Core.WindowsLeafName
import DarkReNamer.Rename.Ports

/-!
# The Windows backend

`WindowsRenameBackend` (`rename/windows_backend.rs`) as programs over the functions of
`rename/windows_native.rs` and the two system services it calls itself, the invariant upper case
and the clock. What those answer is left to the environment: a handle is a number, and nothing is
known of it but what the calls say.

The boundaries of `rename_with_boundaries` are programs here too; the backend passes two that do
nothing.
-/

namespace DarkReNamer

open Interaction

/-- The system code of an `io::Error`, when it has one. -/
structure NativeError where
  rawOsError : Option Int32
  deriving DecidableEq, Repr

structure Handle where
  number : ℕ
  deriving DecidableEq, Repr

/-- A retained directory handle with its identity. -/
structure NativeParent where
  file : Handle
  identity : EntryIdentity
  deriving DecidableEq, Repr

inductive NativeCall where
  | openParent (path : LegacyText)
  | openParentChain (path : LegacyText)
  | openEntry (parent : NativeParent) (leaf : List UInt16) (deleteAccess : Bool)
  | metadata (file : Handle)
  | fileIdentity (file : Handle)
  | normalizedFinalLeaf (file : Handle)
  | renameNoreplace (source : Handle) (destinationParent : NativeParent)
      (destinationLeaf : List UInt16)
  | invariantUppercase (units : List UInt16)
  | counter
  | systemTime
  | processId
  deriving DecidableEq

/-- File attributes are the raw bits; the upper case fails with the last system error. -/
abbrev NativeAnswer : NativeCall → Type
  | .openParent _ => Except NativeError NativeParent
  | .openParentChain _ => Except NativeError NativeParent
  | .openEntry _ _ _ => Except NativeError Handle
  | .metadata _ => Except NativeError UInt32
  | .fileIdentity _ => Except NativeError EntryIdentity
  | .normalizedFinalLeaf _ => Except NativeError (List UInt16)
  | .renameNoreplace _ _ _ => Except NativeError Unit
  | .invariantUppercase _ => Except NativeError (List UInt16)
  | .counter => UInt64
  | .systemTime => Option ℕ
  | .processId => UInt32

abbrev NativeProgram (α : Type) : Type := Program NativeCall NativeAnswer α

abbrev NativeEvent : Type := Event NativeCall NativeAnswer

namespace NativeError

def isNotFound (error : NativeError) : Bool :=
  error.rawOsError == some 2 || error.rawOsError == some 3

def errorCode (error : NativeError) : UInt32 :=
  match error.rawOsError with
  | some code => if 0 ≤ code then code.toUInt32 else 1
  | none => 1

end NativeError

def fileAttributeDirectory : UInt32 := 0x10

def fileAttributeReparsePoint : UInt32 := 0x400

def attributeKind (attributes : UInt32) : EntryKind :=
  if attributes &&& fileAttributeDirectory ≠ 0 then .directory else .file

def attributeReparse (attributes : UInt32) : Bool :=
  attributes &&& fileAttributeReparsePoint != 0

/-- The units whose bytes these are, the low byte first. -/
def leUnits : List UInt8 → List UInt16
  | low :: high :: rest => (Bytes.readLe [low, high]).toUInt16 :: leUnits rest
  | _ => []

/-- The key of a leaf under a parent: the two identifiers, and the normalized leaf. -/
def entryKeyFromParts (parent : EntryIdentity) (normalizedLeaf : List UInt16) : PathKey :=
  ⟨leUnits (Bytes.leBytes 8 parent.volume.toNat) ++
    leUnits (Bytes.leBytes 16 parent.fileId.toNat) ++
    normalizedLeaf⟩

namespace WindowsBackend

def openParent (path : LegacyText) : NativeProgram (Except NativeError NativeParent) :=
  Program.ask (NativeCall.openParent path)

def openParentChain (path : LegacyText) : NativeProgram (Except NativeError NativeParent) :=
  Program.ask (NativeCall.openParentChain path)

def openEntry (parent : NativeParent) (leaf : List UInt16) (deleteAccess : Bool) :
    NativeProgram (Except NativeError Handle) :=
  Program.ask (NativeCall.openEntry parent leaf deleteAccess)

def metadata (file : Handle) : NativeProgram (Except NativeError UInt32) :=
  Program.ask (NativeCall.metadata file)

def fileIdentity (file : Handle) : NativeProgram (Except NativeError EntryIdentity) :=
  Program.ask (NativeCall.fileIdentity file)

def normalizedFinalLeaf (file : Handle) : NativeProgram (Except NativeError (List UInt16)) :=
  Program.ask (NativeCall.normalizedFinalLeaf file)

def renameNoreplace (source : Handle) (destinationParent : NativeParent)
    (destinationLeaf : List UInt16) : NativeProgram (Except NativeError Unit) :=
  Program.ask (NativeCall.renameNoreplace source destinationParent destinationLeaf)

def invariantUppercase (units : List UInt16) : NativeProgram (Except NativeError (List UInt16)) :=
  Program.ask (NativeCall.invariantUppercase units)

def observeError (error : NativeError) : BackendError := ⟨.observe, error.errorCode, .notApplied⟩

def mutationError (certainty : MutationCertainty) (error : NativeError) : BackendError :=
  ⟨.rename, error.errorCode, certainty⟩

def invalidPathError (operation : BackendOperation) : BackendError := ⟨operation, 123, .notApplied⟩

/-- The identities, the kind or the spelling are not the expected ones. -/
def mismatch (certainty : MutationCertainty) : BackendError := ⟨.rename, 1168, certainty⟩

def reparsePointError : BackendError := ⟨.rename, 4390, .notApplied⟩

def alreadyExists : BackendError := ⟨.rename, 183, .notApplied⟩

/-- A native call whose error is reported as `report` says. -/
def attempt {α : Type} (report : NativeError → BackendError)
    (call : NativeProgram (Except NativeError α)) : ExceptT BackendError NativeProgram α := do
  match ← call with
  | .ok a => pure a
  | .error error => throw (report error)

def colon : UInt16 := 58

def isDriveLetter (unit : UInt16) : Bool :=
  (65 ≤ unit && unit ≤ 90) || (97 ≤ unit && unit ≤ 122)

/-- A path from a drive root, or one that starts with two separators. -/
def isAbsolute (units : List UInt16) : Bool :=
  match units with
  | first :: second :: third :: rest =>
      (isDriveLetter first && second == colon && isSeparator third) ||
        (2 ≤ rest.length && isSeparator first && isSeparator second)
  | _ => false

def isDriveRootSeparator (units : List UInt16) (separator : ℕ) : Bool :=
  (separator == 2 && units[1]? == some colon) ||
    (separator == 6 && (LegacyText.ofAscii "\\\\?\\").units.isPrefixOf units &&
      units[5]? == some colon)

/-- The parent, with its separator where that is the drive root's, and the leaf. -/
def splitAbsolutePath (path : LegacyText) (operation : BackendOperation) :
    Except BackendError (LegacyText × LegacyText) :=
  match rposition isSeparator path.units with
  | none => .error (invalidPathError operation)
  | some separator =>
      if !isAbsolute path.units || path.units.length ≤ separator + 1 then
        .error (invalidPathError operation)
      else
        let parentEnd := if isDriveRootSeparator path.units separator then separator + 1
          else separator
        let leaf : LegacyText := ⟨path.units.drop (separator + 1)⟩
        match validateWindowsLeafName leaf with
        | .error _ => .error (invalidPathError operation)
        | .ok _ => .ok (⟨path.units.take parentEnd⟩, leaf)

def joinParentAndLeaf (parent leaf : LegacyText) : LegacyText :=
  if parent.units.getLast?.any isSeparator then ⟨parent.units ++ leaf.units⟩
  else ⟨parent.units ++ backslash :: leaf.units⟩

def split (path : LegacyText) (operation : BackendOperation) :
    ExceptT BackendError NativeProgram (LegacyText × LegacyText) :=
  ExceptT.mk (pure (splitAbsolutePath path operation))

def validatePathEnvironment (path : LegacyText) : ExceptT BackendError NativeProgram Unit := do
  let (parentPath, _) ← split path .observe
  let _ ← attempt observeError (openParent parentPath)
  pure ()

/-- Where the upper case fails the key is one unit that no path has. -/
def pathKey (path : LegacyText) : NativeProgram PathKey := do
  let normalized := path.units.map fun unit => if unit == slash then backslash else unit
  match ← invariantUppercase normalized with
  | .ok mapped => pure ⟨mapped⟩
  | .error _ => pure ⟨[0xFFFF]⟩

def plannedEntryKey (parent : EntryIdentity) (leaf : LegacyText) :
    ExceptT BackendError NativeProgram PathKey := do
  match validateWindowsLeafName leaf with
  | .error _ => throw (invalidPathError .observe)
  | .ok _ =>
      let normalizedLeaf ← attempt observeError (invariantUppercase leaf.units)
      pure (entryKeyFromParts parent normalizedLeaf)

/-- What an open entry is. -/
def observedEntry (file : Handle) : ExceptT BackendError NativeProgram ObservedEntry := do
  let attributes ← attempt observeError (metadata file)
  let identity ← attempt observeError (fileIdentity file)
  pure ⟨identity, attributeKind attributes, attributeReparse attributes⟩

def resolveSource (path : LegacyText) : ExceptT BackendError NativeProgram ResolvedSource := do
  let (parentPath, leaf) ← split path .observe
  let parent ← attempt observeError (openParent parentPath)
  match ← openEntry parent leaf.units false with
  | .error error =>
      if error.isNotFound then pure ⟨path, ⟨parent.identity, none⟩, none⟩
      else throw (observeError error)
  | .ok source => do
      let entry ← observedEntry source
      let normalizedLeaf ← attempt observeError (normalizedFinalLeaf source)
      match validateWindowsLeafName ⟨normalizedLeaf⟩ with
      | .error _ => throw (invalidPathError .observe)
      | .ok _ => do
          let entryKey ← plannedEntryKey parent.identity ⟨normalizedLeaf⟩
          pure ⟨joinParentAndLeaf parentPath ⟨normalizedLeaf⟩, ⟨parent.identity, some entry⟩,
            some entryKey⟩

def observe (path : LegacyText) : ExceptT BackendError NativeProgram PathSnapshot := do
  let (parentPath, leaf) ← split path .observe
  let parent ← attempt observeError (openParent parentPath)
  match ← openEntry parent leaf.units false with
  | .error error =>
      if error.isNotFound then pure ⟨parent.identity, none⟩ else throw (observeError error)
  | .ok file => do
      let entry ← observedEntry file
      pure ⟨parent.identity, some entry⟩

/-- A fresh nonzero number from the counter, the time and the process. -/
def nextTransactionNonce : ExceptT BackendError NativeProgram (BitVec 128) := do
  let counter ← (Program.ask NativeCall.counter : NativeProgram UInt64)
  match ← (Program.ask NativeCall.systemTime : NativeProgram (Option ℕ)) with
  | none => throw ⟨.transactionNonce, 1, .notApplied⟩
  | some time => do
      let process ← (Program.ask NativeCall.processId : NativeProgram UInt32)
      let nonce := BitVec.ofNat 128 time ^^^ (BitVec.ofNat 128 process.toNat <<< 64) ^^^
        BitVec.ofNat 128 counter.toNat
      pure (if nonce = 0 then 1 else nonce)

/-- Opens the source for the move and compares it with what the operation expects. -/
def expectedSource (op : RenameOperation) (parent : NativeParent) (leaf : LegacyText) :
    ExceptT BackendError NativeProgram (Handle × EntryIdentity) := do
  let source ← attempt (mutationError .notApplied) (openEntry parent leaf.units true)
  let attributes ← attempt (mutationError .notApplied) (metadata source)
  if attributeReparse attributes then throw reparsePointError
  else if op.kind.any fun kind => attributeKind attributes != kind then
    throw (mismatch .notApplied)
  else do
    let identity ← attempt (mutationError .notApplied) (fileIdentity source)
    if identity ≠ op.expectedSource then throw (mismatch .notApplied)
    else do
      let actualLeaf ← attempt (mutationError .notApplied) (normalizedFinalLeaf source)
      if actualLeaf ≠ leaf.units then throw (mismatch .notApplied)
      else pure (source, identity)

/-- The destination must not exist. -/
def vacantDestination (parent : NativeParent) (leaf : LegacyText) :
    ExceptT BackendError NativeProgram Unit := do
  match ← openEntry parent leaf.units false with
  | .ok _ => throw alreadyExists
  | .error error =>
      if error.isNotFound then pure () else throw (mutationError .notApplied error)

/-- After the move the destination must be what was moved. -/
def verifyDestination (identity : EntryIdentity) (parent : NativeParent) (leaf : LegacyText) :
    ExceptT BackendError NativeProgram Unit := do
  let destination ← attempt (mutationError .mayHaveApplied) (openEntry parent leaf.units false)
  let observed ← attempt (mutationError .mayHaveApplied) (fileIdentity destination)
  if observed ≠ identity then throw (mismatch .mayHaveApplied) else pure ()

/-- Everything before the native move: the source, its identity, and the destination. -/
def prepareMove (op : RenameOperation)
    (beforeSourceOpen beforeNativeSink : NativeProgram (Except NativeError Unit)) :
    ExceptT BackendError NativeProgram ((Handle × EntryIdentity) × NativeParent × LegacyText) := do
  match op.authorizationError with
  | some error => throw error
  | none => do
      let (sourceParentPath, sourceLeaf) ← split op.source .rename
      let (destinationParentPath, destinationLeaf) ← split op.destination .rename
      let sourceParent ← attempt (mutationError .notApplied) (openParentChain sourceParentPath)
      let destinationParent ←
        attempt (mutationError .notApplied) (openParentChain destinationParentPath)
      if sourceParent.identity ≠ op.expectedSourceParent ∨
          destinationParent.identity ≠ op.expectedDestinationParent then
        throw (mismatch .notApplied)
      else do
        attempt (mutationError .notApplied) beforeSourceOpen
        let source ← expectedSource op sourceParent sourceLeaf
        vacantDestination destinationParent destinationLeaf
        if sourceParent.identity.volume ≠ destinationParent.identity.volume then
          throw ⟨.rename, errorNotSameDevice, .notApplied⟩
        else do
          attempt (mutationError .notApplied) beforeNativeSink
          pure (source, destinationParent, destinationLeaf)

def renameWithBoundaries (op : RenameOperation)
    (beforeSourceOpen beforeNativeSink : NativeProgram (Except NativeError Unit)) :
    ExceptT BackendError NativeProgram Unit := do
  let (source, destinationParent, destinationLeaf) ←
    prepareMove op beforeSourceOpen beforeNativeSink
  attempt (mutationError .notApplied)
    (renameNoreplace source.1 destinationParent destinationLeaf.units)
  verifyDestination source.2 destinationParent destinationLeaf

def renameNoReplace (op : RenameOperation) : ExceptT BackendError NativeProgram Unit :=
  renameWithBoundaries op (pure (.ok ())) (pure (.ok ()))

/-- The calls of the engine, carried out by the backend. -/
def carry : (call : BackendCall) → NativeProgram (BackendAnswer call)
  | .validatePathEnvironment path => (validatePathEnvironment path).run
  | .pathKey path => pathKey path
  | .resolveSource path => (resolveSource path).run
  | .plannedEntryKey parent leaf => (plannedEntryKey parent leaf).run
  | .observe path => (observe path).run
  | .nextTransactionNonce => nextTransactionNonce.run
  | .renameNoReplace op => (renameNoReplace op).run

end WindowsBackend

end DarkReNamer
