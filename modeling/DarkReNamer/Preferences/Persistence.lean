import DarkReNamer.Preferences.Writer

/-!
# Settings persistence

`PreferencePersistence` owns three coalescing writers and, on the user-interface thread, a
shadow of each of them: what was requested, saved and failed as far as the drained events
tell. The acknowledgement report reads the shadows alone.
-/

namespace DarkReNamer

open Machine

structure WriterStatus where
  requestedGeneration : Option ℕ := none
  savedGeneration : Option ℕ := none
  failedGeneration : Option ℕ := none
  submissionFailed : Bool := false
  terminalObserved : Bool := false

inductive PreferenceKind where
  | columns
  | appearance
deriving DecidableEq

/-- The texts shown to the user, by the function of the source that writes them. -/
inductive PreferenceNotice where
  | preferenceSavedAgain (kind : PreferenceKind)
  | preferenceSaveFailed (kind : PreferenceKind) (error : String)
  | preferenceWriterStopped (kind : PreferenceKind)
  | languageSaved
  | languageSaveFailed (error : String)
  | languageWriterStopped
  | columnCloseFailed (error : String)
  | appearanceCloseFailed (error : String)
deriving DecidableEq

namespace WriterStatus

def noteSubmission (status : WriterStatus) : Except String ℕ → WriterStatus
  | .ok generation =>
    { status with requestedGeneration := some generation, submissionFailed := false }
  | .error _ => { status with submissionFailed := true }

/-- A saturated generation would not tell a new request from an old acknowledgement. -/
def acknowledged (status : WriterStatus) : Bool :=
  !status.terminalObserved && !status.submissionFailed && status.failedGeneration.isNone &&
    status.requestedGeneration.all fun requested =>
      decide (0 < requested) && decide (requested < u64Max) &&
        status.savedGeneration.any fun saved =>
          decide (requested ≤ saved) && decide (saved < u64Max)

/-- The generations after a `Saved` event; the second value tells whether a failure ends. -/
def noteSaved (status : WriterStatus) (generation : ℕ) : WriterStatus × Bool :=
  let saved := some (status.savedGeneration.elim generation (max · generation))
  if status.failedGeneration.any fun failed => decide (failed ≤ generation) then
    ({ status with savedGeneration := saved, failedGeneration := none }, true)
  else
    ({ status with savedGeneration := saved }, false)

/-- One event of `observe`, for columns and appearance. -/
def observeEvent (kind : PreferenceKind) (closing : Bool) (status : WriterStatus) :
    PreferenceWriteEvent → WriterStatus × List PreferenceNotice
  | .saved generation =>
    let (status', again) := status.noteSaved generation
    (status', if again && !closing then [.preferenceSavedAgain kind] else [])
  | .failed generation error =>
    ({ status with failedGeneration := some generation },
      if closing then [] else [.preferenceSaveFailed kind error])
  | .stopped => ({ status with terminalObserved := true }, [])
  | .panicked =>
    ({ status with terminalObserved := true },
      if closing then [] else [.preferenceWriterStopped kind])

def observe (status : WriterStatus) (kind : PreferenceKind) :
    List PreferenceWriteEvent → Bool → WriterStatus × List PreferenceNotice
  | [], _ => (status, [])
  | event :: events, closing =>
    let (status', notices) := observeEvent kind closing status event
    let (status'', rest) := status'.observe kind events closing
    (status'', notices ++ rest)

end WriterStatus

/-- `C`, `A` and `L` are the snapshots of columns, appearance and language. -/
structure PreferencePersistence (C A L : Type) where
  columns : Option (CoalescingWriter C)
  appearance : Option (CoalescingWriter A)
  columnStatus : WriterStatus := {}
  appearanceStatus : WriterStatus := {}
  language : Option (CoalescingWriter L)
  languageStatus : WriterStatus := {}
  languageNotifySaved : Bool := false

namespace PreferencePersistence

variable {C A L : Type}

def columnStopped : String := "column preference writer has stopped"
def columnShuttingDown : String := "column preference writer is shutting down"
def appearanceStopped : String := "appearance preference writer has stopped"
def appearanceShuttingDown : String := "appearance preference writer is shutting down"
def languageStopped : String := "language preference writer has stopped"
def languageShuttingDown : String := "language preference writer is shutting down"

/-- With the three writers just spawned. -/
def spawned : PreferencePersistence C A L :=
  { columns := some .spawn, appearance := some .spawn, language := some .spawn }

/-- An absent writer is reported before anything is noted. The last value is what the
writer itself answered. -/
def submitColumns (p : PreferencePersistence C A L) (columns : C) (finished : Bool) :
    Except String Unit × PreferencePersistence C A L × Option (Except String ℕ) :=
  match p.columns with
  | none => (.error "column preference writer is unavailable", p, none)
  | some writer =>
    let (result, writer') := writer.submit columns finished columnStopped columnShuttingDown
    (result.map fun _ => (),
      { p with columns := some writer', columnStatus := p.columnStatus.noteSubmission result },
      some result)

def submitAppearance (p : PreferencePersistence C A L) (appearance : A) (finished : Bool) :
    Except String Unit × PreferencePersistence C A L × Option (Except String ℕ) :=
  match p.appearance with
  | none => (.error "appearance preference writer is unavailable", p, none)
  | some writer =>
    let (result, writer') :=
      writer.submit appearance finished appearanceStopped appearanceShuttingDown
    (result.map fun _ => (),
      { p with
        appearance := some writer'
        appearanceStatus := p.appearanceStatus.noteSubmission result },
      some result)

/-- Here the absence of the writer is noted as a failed submission. -/
def submitLanguage (p : PreferencePersistence C A L) (preference : L) (finished : Bool) :
    Except String Unit × PreferencePersistence C A L × Option (Except String ℕ) :=
  match p.language with
  | none =>
    let result := .error "language preference writer is unavailable"
    (result.map fun _ => (),
      { p with languageStatus := p.languageStatus.noteSubmission result }, none)
  | some writer =>
    let (result, writer') :=
      writer.submit preference finished languageStopped languageShuttingDown
    (result.map fun _ => (),
      { p with
        language := some writer'
        languageStatus := p.languageStatus.noteSubmission result
        languageNotifySaved := p.languageNotifySaved || result.toBool },
      some result)

/-- The `is_finished` of the three writers, as the report reads them. -/
structure Finished where
  columns : Bool
  appearance : Bool
  language : Bool

/-- Shadow state only: this neither drains results nor requests a flush. -/
def requiredAcknowledgmentsComplete (p : PreferencePersistence C A L) (finished : Finished) :
    Bool :=
  (p.columns.any fun _ => !finished.columns && p.columnStatus.acknowledged) &&
    (p.appearance.any fun _ => !finished.appearance && p.appearanceStatus.acknowledged) &&
    (p.language.any fun _ => !finished.language && p.languageStatus.acknowledged)

/-- One language event: the same shadow as `observe`, with notices of its own. -/
def drainLanguageEvent (closing : Bool) (p : PreferencePersistence C A L) :
    PreferenceWriteEvent → PreferencePersistence C A L × List PreferenceNotice
  | .saved generation =>
    let p' := { p with languageStatus := (p.languageStatus.noteSaved generation).1 }
    if !closing && p'.languageNotifySaved &&
        p'.languageStatus.requestedGeneration.any (fun requested =>
          decide (requested ≤ generation)) then
      ({ p' with languageNotifySaved := false }, [.languageSaved])
    else
      (p', [])
  | .failed generation error =>
    ({ p with
        languageStatus := { p.languageStatus with failedGeneration := some generation } },
      if closing then [] else [.languageSaveFailed error])
  | .stopped =>
    ({ p with languageStatus := { p.languageStatus with terminalObserved := true } }, [])
  | .panicked =>
    ({ p with languageStatus := { p.languageStatus with terminalObserved := true } },
      if closing then [] else [.languageWriterStopped])

def drainLanguageEvents (closing : Bool) (p : PreferencePersistence C A L) :
    List PreferenceWriteEvent → PreferencePersistence C A L × List PreferenceNotice
  | [] => (p, [])
  | event :: events =>
    let (p', notices) := p.drainLanguageEvent closing event
    let (p'', rest) := p'.drainLanguageEvents closing events
    (p'', notices ++ rest)

/-- `drain_events` of a writer that may be absent. -/
def drained {T : Type} (writer : Option (CoalescingWriter T)) :
    List PreferenceWriteEvent × Option (CoalescingWriter T) :=
  match writer with
  | none => ([], none)
  | some writer => (writer.drainEvents.1, some writer.drainEvents.2)

def drain (p : PreferencePersistence C A L) (closing : Bool) :
    PreferencePersistence C A L × List PreferenceNotice :=
  let (columns, columnWriter) := drained p.columns
  let (columnStatus, columnNotices) := p.columnStatus.observe .columns columns closing
  let (appearance, appearanceWriter) := drained p.appearance
  let (appearanceStatus, appearanceNotices) :=
    p.appearanceStatus.observe .appearance appearance closing
  let (language, languageWriter) := drained p.language
  let (p', languageNotices) := drainLanguageEvents closing
    { p with
      columns := columnWriter
      columnStatus := columnStatus
      appearance := appearanceWriter
      appearanceStatus := appearanceStatus
      language := languageWriter } language
  (p', columnNotices ++ appearanceNotices ++ languageNotices)

/-- Both final snapshots are offered, even if one of the writers refuses its own; neither
is noted in the shadow. The last two values are what those writers answered. -/
def shutdown (p : PreferencePersistence C A L) (columns : C) (appearance : A)
    (finished : Finished) :
    PreferencePersistence C A L × List PreferenceNotice × Option (Except String ℕ) ×
      Option (Except String ℕ) :=
  let language := p.language.map (·.requestShutdown)
  let column := p.columns.map (·.shutdownWith columns finished.columns columnStopped)
  let shape := p.appearance.map
    (·.shutdownWith appearance finished.appearance appearanceStopped)
  let columnNotices := match column with
    | some (.error error, _) => [.columnCloseFailed error]
    | _ => []
  let appearanceNotices := match shape with
    | some (.error error, _) => [.appearanceCloseFailed error]
    | _ => []
  ({ p with
      language := language
      columns := column.map (·.2)
      appearance := shape.map (·.2) },
    columnNotices ++ appearanceNotices, column.map (·.1), shape.map (·.1))

end PreferencePersistence

end DarkReNamer
