import DarkReNamer.Core.MachineInteger
import DarkReNamer.Core.WindowsLeafName
import DarkReNamer.Rename.Journal.Codec
import DarkReNamer.Rename.Journal.Disk
import DarkReNamer.Rename.Ports

/-!
# The file journal

`FileJournal` (`rename/file_journal.rs`) retains one open file with the records it holds. Every
change of the file poisons the journal first and clears the mark when the last call of the
change has succeeded, so a change that fails in between leaves it poisoned. An operation
returns the journal it leaves beside its result, also when it fails.
-/

namespace DarkReNamer

open Interaction

inductive FileJournalErrorKind where
  | io
  | codec (kind : JournalCodecErrorKind)
  | invalidFileType
  | relativeRoot
  | invalidRoot
  | invalidLeaf
  | unsafeCleanupState
  | invalidCandidateState
  deriving DecidableEq, Repr

structure FileJournalError where
  kind : FileJournalErrorKind
  osCode : Option ℤ
  deriving DecidableEq, Repr

def FileJournalError.ofIo (error : IoError) : FileJournalError := ⟨.io, error.rawOsError⟩

inductive JournalOpenStage where
  | open
  | validate
  | read
  | decode
  deriving DecidableEq, Repr

structure JournalOpenFailure where
  stage : JournalOpenStage
  kind : FileJournalErrorKind
  osCode : Option ℤ
  codecFrame : Option ℕ
  deriving DecidableEq, Repr

namespace JournalOpenFailure

def fromFileError (stage : JournalOpenStage) (error : FileJournalError) : JournalOpenFailure :=
  ⟨stage, error.kind, error.osCode, none⟩

def fromCodec (error : JournalCodecError) : JournalOpenFailure :=
  ⟨.decode, .codec error.kind, none, some error.frame⟩

end JournalOpenFailure

/-- The retained file of a journal that could not be opened. -/
structure RecoveryJournalEvidence where
  path : LegacyText
  file : FileId
  byteLen : ℕ
  failure : JournalOpenFailure
  deriving DecidableEq, Repr

structure ExistingJournalOpenError where
  path : LegacyText
  failure : JournalOpenFailure
  evidence : Option RecoveryJournalEvidence
  deriving DecidableEq, Repr

/-- Opaque authorization for one journal and one generation of it. -/
structure JournalAuthorization where
  identity : UInt64
  generation : ℕ
  deriving DecidableEq, Repr

inductive FileJournalPhase where
  | active
  | candidate (activeLeaf : LegacyText)
  | promotionUncertain
  deriving DecidableEq, Repr

/-- A journal that retains its file; paths are leaves of the retained root. -/
structure FileJournal where
  path : LegacyText
  file : FileId
  records : List JournalRecord
  identity : UInt64
  generation : ℕ
  nextSequence : ℕ
  byteLength : ℕ
  tornPrefix : Option ℕ
  tailIssue : Option JournalTailIssue
  poisoned : Bool
  phase : FileJournalPhase
  deriving DecidableEq

namespace FileJournal

def child (leaf : LegacyText) : Except FileJournalError LegacyText :=
  match validateWindowsLeafName leaf with
  | .error _ => .error ⟨.invalidLeaf, none⟩
  | .ok _ => .ok leaf

/-- A call of the operating system whose error ends the program. -/
def attempt {α ε : Type} (call : FileProgram (Except IoError α)) (failure : IoError → ε) :
    ExceptT ε FileProgram α := do
  match ← call with
  | .error error => throw (failure error)
  | .ok a => pure a

/-! ### Creating and opening -/

def validateFileType (file : FileId) : ExceptT FileJournalError FileProgram Unit := do
  let metadata ← attempt (Disk.metadata file) .ofIo
  if !metadata.isFile || metadata.isReparsePoint then throw ⟨.invalidFileType, none⟩
  else pure ()

/-- The steps that both ways of creating a journal share. -/
def createIn (path : LegacyText) (phase : FileJournalPhase) :
    ExceptT FileJournalError FileProgram FileJournal := do
  let file ← attempt (Disk.createLeaf path) .ofIo
  validateFileType file
  attempt (Disk.validatePrivateLeaf file) .ofIo
  attempt Disk.cloneRoot .ofIo
  let identity ← Disk.combinedIdentity
  pure ⟨path, file, [], identity, 0, 0, 0, none, none, false, phase⟩

def createNew (leaf : LegacyText) : ExceptT FileJournalError FileProgram FileJournal := do
  match child leaf with
  | .error error => throw error
  | .ok path => createIn path .active

def createCandidate (candidateLeaf activeLeaf : LegacyText) :
    ExceptT FileJournalError FileProgram FileJournal := do
  match child candidateLeaf, child activeLeaf with
  | .error error, _ => throw error
  | .ok _, .error error => throw error
  | .ok candidatePath, .ok activePath =>
      if candidatePath = activePath then throw ⟨.invalidLeaf, none⟩
      else createIn candidatePath (.candidate activePath)

def openError (path : LegacyText) (stage : JournalOpenStage) (error : FileJournalError) :
    ExistingJournalOpenError :=
  ⟨path, .fromFileError stage error, none⟩

def existingEvidenceError (path : LegacyText) (file : FileId) (byteLen : ℕ)
    (failure : JournalOpenFailure) : ExistingJournalOpenError :=
  ⟨path, failure, some ⟨path, file, byteLen, failure⟩⟩

/-- A failed call on the retained file. -/
def retainedIoError (path : LegacyText) (file : FileId) (byteLen : ℕ) (stage : JournalOpenStage)
    (error : IoError) : ExistingJournalOpenError :=
  existingEvidenceError path file byteLen (.fromFileError stage (.ofIo error))

/-- The decoded content of an open file. -/
def readJournal (path : LegacyText) (file : FileId) (byteLen : ℕ) :
    ExceptT ExistingJournalOpenError FileProgram (List UInt8 × JournalInspection) := do
  let tooLarge := existingEvidenceError path file byteLen
    (.fromFileError .validate ⟨.codec .fileTooLarge, none⟩)
  if byteLen > maxJournalFileBytes then throw tooLarge
  attempt (Disk.seekStart file 0) (retainedIoError path file byteLen .read)
  let bytes ← attempt (Disk.readToEnd file (maxJournalFileBytes + 1))
    (retainedIoError path file byteLen .read)
  if bytes.length > maxJournalFileBytes then throw tooLarge
  match inspectJournalRecords bytes with
  | .error error => throw (existingEvidenceError path file byteLen (.fromCodec error))
  | .ok inspection => pure (bytes, inspection)

def openExistingRetained (leaf : LegacyText) :
    ExceptT ExistingJournalOpenError FileProgram FileJournal := do
  match child leaf with
  | .error error => throw (openError leaf .validate error)
  | .ok path => do
      let link ← attempt (Disk.symlinkMetadata path) fun error =>
        openError path .validate (.ofIo error)
      if link.isSymlink || link.isReparsePoint then
        throw (openError path .validate ⟨.invalidFileType, none⟩)
      let file ← attempt (Disk.openLeaf path) fun error =>
        openError path .open (.ofIo error)
      let metadata ← attempt (Disk.metadata file) (retainedIoError path file 0 .validate)
      let byteLen := metadata.length
      attempt (Disk.validatePrivateLeaf file)
        (retainedIoError path file byteLen .validate)
      let hasOneLink ← attempt (Disk.isSingleLinked file)
        (retainedIoError path file byteLen .validate)
      if !metadata.isFile || metadata.isReparsePoint || !hasOneLink then
        throw (existingEvidenceError path file byteLen
          (.fromFileError .validate ⟨.invalidFileType, none⟩))
      let (bytes, inspection) ← readJournal path file byteLen
      attempt (Disk.seekEnd file) (retainedIoError path file byteLen .read)
      attempt Disk.cloneRoot (retainedIoError path file byteLen .validate)
      let identity ← Disk.combinedIdentity
      pure ⟨path, file, inspection.records, identity, inspection.records.length,
        inspection.records.length, bytes.length,
        inspection.issue.map fun _ => inspection.validBytes,
        inspection.issue, false, .active⟩

def isIntentOnly : List JournalRecord → Bool
  | [.intent _ _] => true
  | _ => false

def openCandidateExistingRetained (candidateLeaf activeLeaf : LegacyText) :
    ExceptT ExistingJournalOpenError FileProgram FileJournal := do
  match child activeLeaf with
  | .error error => throw (openError activeLeaf .validate error)
  | .ok activePath => do
      let journal ← openExistingRetained candidateLeaf
      if !(journal.records.isEmpty || isIntentOnly journal.records) then
        throw (existingEvidenceError journal.path journal.file journal.byteLength
          (.fromFileError .validate ⟨.invalidCandidateState, none⟩))
      pure { journal with phase := .candidate activePath }

/-! ### Deletion -/

def isCandidate (journal : FileJournal) : Bool :=
  match journal.phase with
  | .candidate _ => true
  | _ => false

def isPhysicallyEmptyCandidate (journal : FileJournal) : Bool :=
  journal.isCandidate && !journal.poisoned && decide (journal.byteLength = 0) &&
    journal.records.isEmpty && journal.tornPrefix.isNone && journal.tailIssue.isNone

def isCompleteIntentCandidate (journal : FileJournal) : Bool :=
  journal.isCandidate && !journal.poisoned && decide (0 < journal.byteLength) &&
    isIntentOnly journal.records && journal.tornPrefix.isNone && journal.tailIssue.isNone

/-- The last record is a terminal one. -/
def endsTerminal (records : List JournalRecord) : Bool :=
  match records.getLast? with
  | some (.terminal _) => true
  | _ => false

def isTerminal (journal : FileJournal) : Bool := endsTerminal journal.records

def unsafeCleanupError : FileJournalError := ⟨.unsafeCleanupState, none⟩

def markRetainedFileDelete (file : FileId) : FileProgram (Except FileJournalError Unit) := do
  match ← Disk.markDelete file with
  | .error error => pure (.error (.ofIo error))
  | .ok _ => pure (.ok ())

def safeToDelete (journal : FileJournal) : Bool :=
  !journal.poisoned &&
    match journal.phase with
    | .active =>
        journal.tornPrefix.isNone && journal.tailIssue.isNone &&
          (journal.records.isEmpty ||
            journal.isTerminal && decide (replayJournal journal.records = .clean))
    | .candidate _ => journal.isPhysicallyEmptyCandidate
    | .promotionUncertain => false

def markDeleteIfSafe (journal : FileJournal) : FileProgram (Except FileJournalError Unit) :=
  if journal.safeToDelete then markRetainedFileDelete journal.file
  else pure (.error unsafeCleanupError)

/-- The active leaf is probed right before the deletion; codes 2 and 3 say that it is absent,
32 and 33 that it is in use. -/
def markUnactivatedIntentDelete (journal : FileJournal) :
    FileProgram (Except FileJournalError Unit) :=
  match journal.phase with
  | .candidate activeLeaf =>
      if journal.isCompleteIntentCandidate then do
        match ← Disk.openExisting activeLeaf with
        | .ok _ => pure (.error unsafeCleanupError)
        | .error error =>
            if error.rawOsError = some 2 ∨ error.rawOsError = some 3 then
              markRetainedFileDelete journal.file
            else if error.rawOsError = some 32 ∨ error.rawOsError = some 33 then
              pure (.error unsafeCleanupError)
            else pure (.error (.ofIo error))
      else pure (.error unsafeCleanupError)
  | _ => pure (.error unsafeCleanupError)

/-! ### Appending -/

/-- Codes that are no `u32` are reported as 6. -/
def journalIoMayHaveAppended (error : IoError) : JournalError :=
  .mayHaveAppended (match error.rawOsError with
    | some code => if 0 ≤ code ∧ code < 2 ^ 32 then code.toNat.toUInt32 else 6
    | none => 6)

/-- The result of an operation and the journal it leaves. -/
abbrev Outcome : Type := Except JournalError Unit × FileJournal

/-- A call whose error ends the operation and leaves the journal as it is, poisoned. -/
def orPoisoned (call : FileProgram (Except IoError Unit)) (journal : FileJournal)
    (next : FileProgram Outcome) : FileProgram Outcome := do
  match ← call with
  | .error error => pure (.error (journalIoMayHaveAppended error), journal)
  | .ok _ => next

def append (journal : FileJournal) (record : JournalRecord) : FileProgram Outcome :=
  if journal.poisoned then pure (.error (.mayHaveAppended 8), journal)
  else if journal.tornPrefix.isSome then pure (.error (.notAppended 7), journal)
  else if journal.records.length ≥ maxJournalFrames then pure (.error (.notAppended 3), journal)
  else
    match encodeFrame journal.nextSequence record journal.records.length with
    | .error _ => pure (.error (.notAppended 4), journal)
    | .ok frame =>
        if saturatingAdd usizeMax journal.byteLength frame.length > maxJournalFileBytes then
          pure (.error (.notAppended 5), journal)
        else
          let started := { journal with poisoned := true }
          orPoisoned (Disk.writeAll journal.file frame) started <|
            orPoisoned (Disk.flush journal.file) started <|
            orPoisoned (Disk.syncAll journal.file) started <|
            pure (.ok (), { started with
              byteLength := journal.byteLength + frame.length
              records := journal.records ++ [record]
              generation := saturatingAdd u64Max journal.generation 1
              nextSequence := saturatingAdd u64Max journal.nextSequence 1
              poisoned := false })

def promoteCandidate (journal : FileJournal) : FileProgram Outcome :=
  match journal.phase with
  | .candidate activeLeaf => do
      match ← Disk.promoteNoReplace journal.file journal.path activeLeaf with
      | .error error =>
          pure (.error (journalIoMayHaveAppended error),
            { journal with poisoned := true, phase := .promotionUncertain })
      | .ok _ =>
          pure (.ok (), { journal with path := activeLeaf, phase := .active, poisoned := false })
  | _ => pure (.ok (), journal)

def requireActive (journal : FileJournal) : Except JournalError Unit :=
  if journal.poisoned then .error (.mayHaveAppended 8)
  else if journal.phase ≠ .active then .error (.notAppended 9)
  else .ok ()

def «begin» (journal : FileJournal) (plan : PlanId) (steps : List JournalStep) :
    FileProgram Outcome :=
  if journal.poisoned then pure (.error (.mayHaveAppended 8), journal)
  else if !journal.records.isEmpty then pure (.error (.notAppended 1), journal)
  else do
    match ← journal.append (.intent plan steps) with
    | (.error error, journal) => pure (.error error, journal)
    | (.ok _, journal) => journal.promoteCandidate

/-- An append that an active journal alone accepts. -/
def appendActive (journal : FileJournal) (record : JournalRecord) : FileProgram Outcome :=
  match journal.requireActive with
  | .error error => pure (.error error, journal)
  | .ok _ => journal.append record

def prepared (journal : FileJournal) (step : ℕ) (direction : JournalDirection) :
    FileProgram Outcome :=
  journal.appendActive (.prepared step direction)

def completed (journal : FileJournal) (step : ℕ) (direction : JournalDirection) :
    FileProgram Outcome :=
  journal.appendActive (.completed step direction)

def notApplied (journal : FileJournal) (step : ℕ) (direction : JournalDirection) :
    FileProgram Outcome :=
  journal.appendActive (.notApplied step direction)

def terminal (journal : FileJournal) (value : JournalTerminal) : FileProgram Outcome :=
  journal.appendActive (.terminal value)

def authorizedSnapshot (journal : FileJournal) :
    Except JournalError (List JournalRecord × JournalAuthorization) :=
  match journal.requireActive with
  | .error error => .error error
  | .ok _ => .ok (journal.records, ⟨journal.identity, journal.generation⟩)

/-- The result of an authorized operation, the journal and the authorization it leaves. -/
abbrev AuthorizedOutcome : Type := Outcome × JournalAuthorization

/-- Cuts the torn tail off, and reports what the repair leaves. -/
def repairTornTail (journal : FileJournal) (validBytes : ℕ) : FileProgram Outcome :=
  let started := { journal with poisoned := true }
  orPoisoned (Disk.setLen journal.file validBytes) started <|
    orPoisoned (Disk.seekStart journal.file validBytes) started <|
    orPoisoned (Disk.flush journal.file) started <|
    orPoisoned (Disk.syncAll journal.file) started <|
    pure (.ok (), { started with
      byteLength := validBytes
      tornPrefix := none
      tailIssue := none
      generation := saturatingAdd u64Max journal.generation 1
      poisoned := false })

/-- The append behind an authorization, which follows the generation. -/
def appendAuthorized (journal : FileJournal) (authorization : JournalAuthorization)
    (record : JournalRecord) : FileProgram AuthorizedOutcome := do
  match ← journal.append record with
  | (.error error, journal) => pure ((.error error, journal), authorization)
  | (.ok _, journal) =>
      pure ((.ok (), journal), { authorization with generation := journal.generation })

def authorizedAppend (journal : FileJournal) (authorization : JournalAuthorization)
    (record : JournalRecord) : FileProgram AuthorizedOutcome :=
  if journal.poisoned then pure ((.error (.mayHaveAppended 8), journal), authorization)
  else
    match journal.requireActive with
    | .error error => pure ((.error error, journal), authorization)
    | .ok _ =>
        if authorization.identity ≠ journal.identity ∨
            authorization.generation ≠ journal.generation then
          pure ((.error (.notAppended 2), journal), authorization)
        else
          match journal.tornPrefix with
          | none => journal.appendAuthorized authorization record
          | some validBytes => do
              match ← journal.repairTornTail validBytes with
              | (.error error, journal) => pure ((.error error, journal), authorization)
              | (.ok _, journal) =>
                  journal.appendAuthorized
                    { authorization with generation := journal.generation } record

def authorizedPrepared (journal : FileJournal) (authorization : JournalAuthorization)
    (step : ℕ) (direction : JournalDirection) : FileProgram AuthorizedOutcome :=
  journal.authorizedAppend authorization (.prepared step direction)

def authorizedCompleted (journal : FileJournal) (authorization : JournalAuthorization)
    (step : ℕ) (direction : JournalDirection) : FileProgram AuthorizedOutcome :=
  journal.authorizedAppend authorization (.completed step direction)

def authorizedNotApplied (journal : FileJournal) (authorization : JournalAuthorization)
    (step : ℕ) (direction : JournalDirection) : FileProgram AuthorizedOutcome :=
  journal.authorizedAppend authorization (.notApplied step direction)

def authorizedTerminal (journal : FileJournal) (authorization : JournalAuthorization)
    (value : JournalTerminal) : FileProgram AuthorizedOutcome :=
  journal.authorizedAppend authorization (.terminal value)

end FileJournal

end DarkReNamer
