import DarkReNamer.Rename.Journal.FileJournal.Cleanup
import DarkReNamer.Rename.Restart

/-!
# The runtime around the journals

What the application does with journals around a transaction (`windows/safe_runtime.rs`,
`windows/recovery_ui.rs`, `windows/worker.rs`): it looks for journals when it starts, locks itself
while it retains one, hands a new one to the worker that applies a plan, and deletes a journal
that holds nothing a recovery needs. The texts that it shows are left out, and so is the rest of
the window's state.
-/

namespace DarkReNamer

open Interaction FileJournal

def activeJournalLeaf : LegacyText := .ofAscii "active.drj"

def candidateJournalLeaf : LegacyText := .ofAscii "candidate.drj"

inductive JournalRole where
  | active
  | candidate
  deriving DecidableEq, Repr

/-- Whether no file existed at the retained leaf. -/
def ExistingJournalOpenError.isNotFound (error : ExistingJournalOpenError) : Bool :=
  error.evidence.isNone &&
    (error.failure.osCode == some 2 || error.failure.osCode == some 3)

/-- A journal that could not be opened. -/
inductive StartupJournalBlock where
  | evidence (role : JournalRole) (evidence : RecoveryJournalEvidence)
  | unavailable (role : JournalRole) (path : LegacyText) (failure : JournalOpenFailure)
  deriving DecidableEq, Repr

namespace StartupJournalBlock

def fromOpenError (role : JournalRole) (error : ExistingJournalOpenError) :
    Option StartupJournalBlock :=
  if error.isNotFound then none
  else
    match error.evidence with
    | some retained => some (.evidence role retained)
    | none => some (.unavailable role error.path error.failure)

def role : StartupJournalBlock → JournalRole
  | .evidence role _ => role
  | .unavailable role _ _ => role

end StartupJournalBlock

/-! ### Discovery -/

/-- What is found under the two leaves. -/
structure Discovery where
  active : Option FileJournal
  staged : Option FileJournal
  blocked : List StartupJournalBlock

/-- One of the two leaves: a journal, a block, or nothing at all. -/
def openRole (role : JournalRole)
    (opening : ExceptT ExistingJournalOpenError FileProgram FileJournal) :
    FileProgram (Option FileJournal × List StartupJournalBlock) := do
  match ← opening.run with
  | .ok journal => pure (some journal, [])
  | .error error => pure (none, (StartupJournalBlock.fromOpenError role error).toList)

def discoverJournals : FileProgram Discovery := do
  let active ← openRole .active (openExistingRetained activeJournalLeaf)
  let staged ← openRole .candidate
    (openCandidateExistingRetained candidateJournalLeaf activeJournalLeaf)
  pure ⟨active.1, staged.1, active.2 ++ staged.2⟩

namespace Discovery

def blockedAs (found : Discovery) (role : JournalRole) : Bool :=
  found.blocked.any fun blocked => blocked.role == role

def activeObserved (found : Discovery) : Bool := found.active.isSome || found.blockedAs .active

def candidateObserved (found : Discovery) : Bool :=
  found.staged.isSome || found.blockedAs .candidate

end Discovery

/-! ### The start of the application -/

structure SafeRuntime where
  activeJournal : Option FileJournal
  stagedJournal : Option FileJournal
  blockedJournals : List StartupJournalBlock
  collisionObserved : Bool
  recoveryLocked : Bool

/-- The runtime behind a discovery without a collision. -/
def SafeRuntime.ofDiscovery (active staged : Option FileJournal)
    (blocked : List StartupJournalBlock) : SafeRuntime :=
  match active with
  | none => ⟨none, staged, blocked, false, staged.isSome || !blocked.isEmpty⟩
  | some journal => ⟨some journal, staged, blocked, false, true⟩

/-- A candidate that nothing was written to is deleted at the start. -/
def initializeSafeRuntimeAt : FileProgram SafeRuntime := do
  let found ← discoverJournals
  if found.activeObserved && found.candidateObserved then
    pure ⟨found.active, found.staged, found.blocked, true, true⟩
  else
    match found.staged with
    | none => pure (.ofDiscovery found.active none found.blocked)
    | some staged =>
        if staged.isPhysicallyEmptyCandidate then do
          match ← staged.markDeleteIfSafe with
          | .error _ => pure ⟨none, some staged, found.blocked, false, true⟩
          | .ok _ => pure (.ofDiscovery found.active none found.blocked)
        else pure (.ofDiscovery found.active (some staged) found.blocked)

/-! ### The state of the window -/

/-- The part of the state that decides about journals, with the other locks beside it. -/
structure AppState extends SafeRuntime where
  mutationLocked : Bool
  confirmationPending : Bool
  closePending : Bool
  applyWorker : Bool
  planWorker : Bool
  admissionWorker : Bool
  importWorker : Bool

namespace AppState

def ofRuntime (runtime : SafeRuntime) : AppState :=
  ⟨runtime, false, false, false, false, false, false, false⟩

def applyLocked (state : AppState) : Bool :=
  state.mutationLocked || state.recoveryLocked || state.activeJournal.isSome ||
    state.stagedJournal.isSome || !state.blockedJournals.isEmpty || state.applyWorker ||
    state.planWorker || state.admissionWorker || state.importWorker

def canDiscardStagedIntent (state : AppState) : Bool :=
  state.recoveryLocked && !state.collisionObserved && state.activeJournal.isNone &&
    state.blockedJournals.isEmpty && state.stagedJournal.any isCompleteIntentCandidate

def canConfirmActiveRecovery (state : AppState) : Bool :=
  state.recoveryLocked && !state.mutationLocked && !state.confirmationPending &&
    !state.closePending && !state.collisionObserved && state.activeJournal.isSome &&
    state.stagedJournal.isNone && state.blockedJournals.isEmpty && !state.applyWorker &&
    !state.planWorker && !state.admissionWorker && !state.importWorker

/-- The journal is kept for a recovery. -/
def retainActive (state : AppState) (journal : FileJournal) : AppState :=
  { state with recoveryLocked := true, activeJournal := some journal }

end AppState

/-! ### Cleanup -/

structure JournalCleanup where
  retained : Option FileJournal
  error : Option FileJournalError

def cleanupFileJournal (journal : FileJournal) : FileProgram JournalCleanup :=
  if cleanupDecision journal.records = .retain then pure ⟨some journal, none⟩
  else do
    match ← journal.markDeleteIfSafe with
    | .ok _ => pure ⟨none, none⟩
    | .error error => pure ⟨some journal, some error⟩

/-! ### Applying a plan -/

inductive ApplyWorkerResult where
  | journalCreateFailed (error : FileJournalError)
  | executed (journal : FileJournal) (execution : Except ExecuteError ExecutionReport)
  | panicked

/-- The thread that applies a confirmed plan. -/
def applyWorkerThread (confirmed : ConfirmedPlan) : OsProgram ApplyWorkerResult := do
  match ← interpret osFile (createCandidate candidateJournalLeaf activeJournalLeaf).run with
  | .error error => pure (.journalCreateFailed error)
  | .ok journal => do
      let r ← osProgram (Executor.executeWithControl confirmed).run journal
      pure (.executed r.2.journal r.1)

namespace AppState

def afterCleanup (state : AppState) (cleanup : JournalCleanup) : AppState :=
  { state with
    recoveryLocked := cleanup.error.isSome || cleanup.retained.isSome
    activeJournal := cleanup.retained }

/-- The end of an execution. The rows of the list reflect the report or they do not. -/
def handleCompletedExecution (state : AppState) (reflected : Bool) (journal : FileJournal) :
    Except ExecuteError ExecutionReport → FileProgram AppState
  | .error _ => state.afterCleanup <$> cleanupFileJournal journal
  | .ok report =>
      match report.outcome with
      | .completed =>
          if reflected then state.afterCleanup <$> cleanupFileJournal journal
          else pure (state.retainActive journal)
      | .rolledBack _ => state.afterCleanup <$> cleanupFileJournal journal
      | .recoveryRequired _ _ => pure (state.retainActive journal)

/-- The worker has been joined; it crashed or sent nothing when there is no result. -/
def finalizeApplyWorker (state : AppState) (reflected : Bool) :
    Option ApplyWorkerResult → FileProgram AppState
  | none => pure { state with mutationLocked := false, recoveryLocked := true }
  | some (.journalCreateFailed _) =>
      pure { state with mutationLocked := false, recoveryLocked := true }
  | some .panicked => pure { state with mutationLocked := false, recoveryLocked := true }
  | some (.executed journal execution) =>
      { state with mutationLocked := false }.handleCompletedExecution reflected journal execution

/-! ### Recovery -/

def afterRecovery (state : AppState) (cleanup : JournalCleanup) : AppState :=
  { state with
    activeJournal := cleanup.retained
    recoveryLocked := cleanup.error.isSome || cleanup.retained.isSome ||
      state.stagedJournal.isSome || !state.blockedJournals.isEmpty }

def recoverConfirmedActiveJournal (state : AppState) : OsProgram AppState :=
  if state.canConfirmActiveRecovery then
    match state.activeJournal with
    | none => pure state
    | some journal => do
        let r ← osProgram Recovery.rollback journal
        match r.1 with
        | .recovered _ _ =>
            state.afterRecovery <$> interpret osFile (cleanupFileJournal r.2.journal)
        | .notRequired => state.afterRecovery <$> interpret osFile (cleanupFileJournal r.2.journal)
        | .blocked _ _ => pure (state.retainActive r.2.journal)
        | .recoveryRequired _ _ => pure (state.retainActive r.2.journal)
  else pure state

end AppState

/-! ### Discarding a candidate -/

/-- The staged journal that the user was asked about. -/
structure PreparedDiscard where
  journalPath : LegacyText
  journalBytes : ℕ
  journalRecords : List JournalRecord

def PreparedDiscard.journalMatches (prepared : PreparedDiscard) (journal : FileJournal) : Bool :=
  journal.path = prepared.journalPath && journal.byteLength = prepared.journalBytes &&
    journal.records = prepared.journalRecords

namespace AppState

/-- The staged journal is marked for deletion and dropped; an error is the state that stays when
it is not. -/
def discardStaged (state : AppState) (prepared : PreparedDiscard) :
    ExceptT AppState FileProgram AppState :=
  match state.stagedJournal with
  | none => throw state
  | some staged =>
      if state.canDiscardStagedIntent && prepared.journalMatches staged then do
        match ← staged.markUnactivatedIntentDelete with
        | .error _ => throw { state with recoveryLocked := true }
        | .ok _ => pure { state with stagedJournal := none }
      else throw state

def rediscover (state : AppState) : FileProgram AppState := do
  let found ← discoverJournals
  pure { state with
    activeJournal := found.active
    stagedJournal := found.staged
    blockedJournals := found.blocked
    collisionObserved := found.activeObserved && found.candidateObserved
    recoveryLocked := found.activeObserved || found.candidateObserved }

end AppState

end DarkReNamer
