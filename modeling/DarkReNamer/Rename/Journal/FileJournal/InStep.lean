import DarkReNamer.Rename.Journal.FileJournal.Session

/-!
# The cached fields and the file

In every session whose operations extend the records to ones that replay, an unpoisoned journal
agrees with the inspection of its file, an operation that succeeds has written the record that it
was asked for, the certainty of an error tells what happened to the file, and a journal that may
have appended accepts nothing more. Whatever a crash leaves of a file has the acknowledged records.
-/

namespace DarkReNamer

open Interaction

namespace FileJournal

/-- The records of the journal are consistent. -/
def Replays (journal : FileJournal) : Prop := (replayJournal journal.records).isCorrupt = false

/-- The journal agrees with the inspection of the content. -/
structure InStep (journal : FileJournal) (content : List UInt8) : Prop where
  inspected : ∃ validBytes,
    inspectJournalRecords content = .ok ⟨journal.records, journal.tailIssue, validBytes⟩ ∧
      journal.tornPrefix = journal.tailIssue.map (fun _ => validBytes) ∧
      Frames 0 (content.take validBytes) journal.records
  byteLength : journal.byteLength = content.length
  nextSequence : journal.nextSequence = journal.records.length

/-- An operation on the journal from these files ended with the outcome. -/
def Ends (journal : FileJournal) (disk : Disk) (outcome : Outcome) (disk' : Disk) : Prop :=
  ∃ (operation : JournalOperation) (trace : List FileEvent),
    Runs fileEnv (operation.program journal) disk trace (some outcome) disk'

variable {journal : FileJournal}

theorem Intact.inStep {state : FileState} (h : journal.Intact state) (hreplays : journal.Replays) :
    journal.InStep state.content := by
  refine ⟨?_, h.byteLength, h.nextSequence⟩
  cases htorn : journal.tornPrefix with
  | none =>
      obtain ⟨hissue, hframes⟩ := h.whole htorn
      refine ⟨state.content.length, ?_, by rw [hissue]; rfl, by rwa [List.take_length]⟩
      rw [hissue]
      exact inspectJournalRecords_frames hframes h.few h.fits hreplays
  | some validBytes =>
      obtain ⟨issue, hissue, hinspect⟩ := h.torn validBytes htorn
      obtain ⟨-, -, -, -, hframes, -⟩ := exists_cut_of_inspectJournalRecords hinspect
      exact ⟨validBytes, by rw [hissue, hinspect], by rw [hissue]; rfl, hframes⟩

/-! ### A poisoned journal -/

theorem appendActive_of_poisoned (h : journal.poisoned = true) (record : JournalRecord) :
    journal.appendActive record = pure (.error (.mayHaveAppended 8), journal) := by
  rw [appendActive, requireActive, if_pos h]

theorem authorizedAppend_of_poisoned (h : journal.poisoned = true)
    (authorization : JournalAuthorization) (record : JournalRecord) :
    Prod.fst <$> journal.authorizedAppend authorization record =
      pure (.error (.mayHaveAppended 8), journal) := by
  rw [authorizedAppend, if_pos h, map_pure]

/-- No operation on a poisoned journal calls the operating system. -/
theorem program_of_poisoned (h : journal.poisoned = true) (operation : JournalOperation) :
    operation.program journal = pure (.error (.mayHaveAppended 8), journal) := by
  cases operation with
  | begin plan steps =>
      show journal.begin plan steps = _
      rw [«begin», if_pos h]
  | prepared | completed | notApplied | terminal => exact appendActive_of_poisoned h _
  | authorizedPrepared authorization | authorizedCompleted authorization
  | authorizedNotApplied authorization | authorizedTerminal authorization =>
      exact authorizedAppend_of_poisoned h authorization _

theorem markDeleteIfSafe_of_poisoned (h : journal.poisoned = true) :
    journal.markDeleteIfSafe = pure (.error unsafeCleanupError) := by
  have hsafe : journal.safeToDelete = false := by
    rw [safeToDelete, h]
    rfl
  rw [markDeleteIfSafe, hsafe]
  rfl

theorem markUnactivatedIntentDelete_of_poisoned (h : journal.poisoned = true) :
    journal.markUnactivatedIntentDelete = pure (.error unsafeCleanupError) := by
  have hcomplete : journal.isCompleteIntentCandidate = false := by
    simp [isCompleteIntentCandidate, h]
  rw [markUnactivatedIntentDelete]
  split
  · rw [hcomplete]
    rfl
  · rfl

end FileJournal

namespace JournalSession

open FileJournal

/-- What the files and the journal of a session say about each other. -/
structure Holds (s : JournalSession) : Prop where
  inStep : ∀ journal, s.journal = some journal → journal.poisoned = false →
    journal.InStep (s.disk.files journal.file).content
  appended : ∀ journal, s.journal = some journal → ∀ (operation : JournalOperation) trace outcome
    disk', Runs fileEnv (operation.program journal) s.disk trace (some outcome) disk' →
    outcome.1 = .ok () → Appended journal operation.record outcome.2 disk'
  notAppended : ∀ journal, s.journal = some journal → ∀ outcome disk',
    journal.Ends s.disk outcome disk' →
    ∀ error, outcome.1 = .error error → error.certainty = .notAppended →
      outcome.2.records = journal.records ∧
        outcome.2.completeFrames disk' = journal.completeFrames s.disk
  mayHaveAppended : ∀ journal, s.journal = some journal → ∀ outcome disk',
    journal.Ends s.disk outcome disk' →
    ∀ error, outcome.1 = .error error → error.certainty = .mayHaveAppended →
      outcome.2.poisoned = true
  refuses : ∀ journal, s.journal = some journal → journal.poisoned = true →
    (∀ operation : JournalOperation,
      operation.program journal = pure (.error (.mayHaveAppended 8), journal)) ∧
      journal.markDeleteIfSafe = pure (.error unsafeCleanupError) ∧
      journal.markUnactivatedIntentDelete = pure (.error unsafeCleanupError)
  survives : ∀ file content inspection,
    content = (s.disk.files file).content ∨ content ∈ (s.disk.files file).survivors →
    inspectJournalRecords content = .ok inspection →
    s.acknowledged file <+: inspection.records

/-- The records of an open journal replay. -/
theorem Reached.replays {s : JournalSession} (h : s.Reached Replays) :
    ∀ journal, s.journal = some journal → journal.Replays := by
  obtain ⟨disk, hsteps⟩ := h
  cases hsteps with
  | refl => simp
  | tail _ step =>
      cases step with
      | @opened disk disk' acknowledged opening trace journal run =>
          intro journal' hjournal
          exact (((gives_opening opening).sound run).2 journal rfl journal' hjournal).replays
      | operated run hallowed =>
          rintro _ ⟨⟩
          exact hallowed
      | closed | crashedOpening | crashedOperation => simp

/-- In every session an unpoisoned journal agrees with its file, an operation that succeeds has
written its record, errors tell what they did, and acknowledged records survive. -/
theorem reached_holds {s : JournalSession} (h : s.Reached Replays) : s.Holds where
  inStep := fun journal hjournal hunpoisoned =>
    (h.sound.tracks journal hjournal hunpoisoned).inStep (h.replays journal hjournal)
  appended := by
    intro journal hjournal operation trace outcome disk' run hok
    have htracks := h.sound.tracks journal hjournal
    exact appended_of_ok (((gives_operation htracks operation).sound run).2 outcome rfl)
      (((appends_operation htracks operation).sound run).2 outcome rfl) hok
  notAppended := by
    rintro journal hjournal outcome disk' ⟨operation, trace, run⟩
    exact (((gives_operation (h.sound.tracks journal hjournal) operation).sound run).2
      outcome rfl).notAppended
  mayHaveAppended := by
    rintro journal hjournal outcome disk' ⟨operation, trace, run⟩
    exact (((gives_operation (h.sound.tracks journal hjournal) operation).sound run).2
      outcome rfl).mayHaveAppended
  refuses := fun journal _ hpoisoned => ⟨program_of_poisoned hpoisoned,
    markDeleteIfSafe_of_poisoned hpoisoned, markUnactivatedIntentDelete_of_poisoned hpoisoned⟩
  survives := by
    rintro file content inspection hcontent hinspect
    obtain ⟨hpresent, hsurvivors⟩ := h.sound.durable file
    rcases hcontent with rfl | hmem
    · exact hpresent.prefix_of_inspect hinspect
    · exact (hsurvivors content hmem).prefix_of_inspect hinspect

/-! ### A session without faults -/

/-- An operating system that answers every call on a file it has. -/
def faultless (s : Disk) : (c : FileCall) → FileAnswer c × Disk
  | .combinedIdentity => (7, s)
  | .createLeaf _ => (.error ⟨none⟩, s)
  | .symlinkMetadata _ => (.ok ⟨false, false⟩, s)
  | .openLeaf leaf =>
      match s.leaves leaf with
      | none => (.error ⟨some 2⟩, s)
      | some file => (.ok file, s.setFile file { s.files file with cursor := 0 })
  | .openExisting leaf =>
      match s.leaves leaf with
      | none => (.error ⟨some 2⟩, s)
      | some file => (.ok file, s)
  | .metadata file => (.ok ⟨(s.files file).content.length, true, false⟩, s)
  | .validatePrivateLeaf _ => (.ok (), s)
  | .isSingleLinked _ => (.ok true, s)
  | .cloneRoot => (.ok (), s)
  | .seekStart file position => (.ok (), s.setFile file { s.files file with cursor := position })
  | .seekEnd file =>
      (.ok (), s.setFile file { s.files file with cursor := (s.files file).content.length })
  | .readToEnd file limit =>
      let bytes := ((s.files file).content.drop (s.files file).cursor).take limit
      (.ok bytes,
        s.setFile file { s.files file with cursor := (s.files file).cursor + bytes.length })
  | .writeAll file bytes => (.ok (), s.setFile file ((s.files file).written bytes bytes))
  | .flush _ => (.ok (), s)
  | .syncAll file => (.ok (), s.setFile file (s.files file).synced)
  | .setLen file length => (.ok (), s.setFile file ((s.files file).resized length))
  | .promoteNoReplace _ _ _ => (.error ⟨none⟩, s)
  | .markDelete _ => (.ok (), s)

theorem fileEnv_faultless (s : Disk) (c : FileCall) :
    fileEnv s c (faultless s c).1 (faultless s c).2 := by
  cases c with
  | openLeaf leaf =>
      cases hleaf : s.leaves leaf with
      | none => simp [faultless, hleaf, fileEnv]
      | some file => simp [faultless, hleaf, fileEnv]
  | openExisting leaf =>
      cases hleaf : s.leaves leaf with
      | none => simp [faultless, hleaf, fileEnv]
      | some file => simp [faultless, hleaf, fileEnv]
  | promoteNoReplace file candidate active => exact Or.inl rfl
  | _ => simp [faultless, fileEnv]

/-- One empty file. -/
def emptyJournalDisk : Disk where
  leaves := fun leaf => if leaf = .ofAscii "journal" then some 0 else none
  files := fun _ => .empty

def emptyJournal : FileJournal :=
  ⟨.ofAscii "journal", 0, [], 7, 0, 0, 0, none, none, false, .active⟩

/-- A disk on which the files may have so many bytes. -/
def serveFile (room : ℕ) (s : Disk) : (c : FileCall) → FileAnswer c × Disk
  | .writeAll file bytes =>
      if (s.files file).content.length + bytes.length ≤ room then faultless s (.writeAll file bytes)
      else (.error ⟨some 112⟩, s.setFile file ((s.files file).written bytes
        (bytes.take (room - (s.files file).content.length))))
  | c => faultless s c

theorem serveFile_allowed (room : ℕ) (s : Disk) (c : FileCall) :
    fileEnv s c (serveFile room s c).1 (serveFile room s c).2 := by
  cases c with
  | writeAll file bytes =>
      by_cases hroom : (s.files file).content.length + bytes.length ≤ room
      · simp only [serveFile, if_pos hroom]
        exact fileEnv_faultless s (.writeAll file bytes)
      · simp only [serveFile, if_neg hroom]
        exact ⟨_, List.take_prefix _ _, rfl⟩
  | _ => exact fileEnv_faultless s _

/-- What a process does with its journal. -/
inductive Command where
  | open (opening : JournalOpening)
  | operate (operation : JournalOperation)
  | close
  | crash (calls : ℕ) (operation : JournalOperation)

/-- A session on a disk with so much room, which leaves out what it does not allow. -/
def play (s : JournalSession) (room : ℕ) (command : Command) : JournalSession :=
  match command, s.journal with
  | .open opening, none =>
      let answered := opening.program.run (serveFile room) s.disk
      ⟨answered.2, answered.1, s.acknowledged⟩
  | .operate operation, some journal =>
      let answered := (operation.program journal).run (serveFile room) s.disk
      if (replayJournal answered.1.2.records).isCorrupt then s
      else ⟨answered.2, some answered.1.2,
        acknowledge s.acknowledged journal operation answered.1.1⟩
  | .close, some _ => ⟨s.disk, none, s.acknowledged⟩
  | .crash calls operation, some journal =>
      ⟨settled ((operation.program journal).cut (serveFile room) calls s.disk), none,
        s.acknowledged⟩
  | _, _ => s

theorem Reached.play {s : JournalSession} (h : s.Reached Replays) (hpresent : Present s.disk)
    (room : ℕ) (command : Command) :
    (s.play room command).Reached Replays ∧ Present (s.play room command).disk := by
  obtain ⟨start, hsteps⟩ := h
  obtain ⟨disk, journal, acknowledged⟩ := s
  cases journal with
  | none =>
      cases command with
      | «open» opening =>
          have run := Runs.of_run (serveFile_allowed room) opening.program disk
          exact ⟨⟨start, hsteps.tail (.opened run)⟩, hpresent.runs run⟩
      | operate operation | close | crash calls operation =>
          exact ⟨⟨start, hsteps⟩, hpresent⟩
  | some journal =>
      cases command with
      | «open» opening => exact ⟨⟨start, hsteps⟩, hpresent⟩
      | operate operation =>
          have run := Runs.of_run (serveFile_allowed room) (operation.program journal) disk
          unfold JournalSession.play
          dsimp only
          split_ifs with hcorrupt
          · exact ⟨⟨start, hsteps⟩, hpresent⟩
          · exact ⟨⟨start, hsteps.tail (.operated run (Bool.eq_false_iff.2 hcorrupt))⟩,
              hpresent.runs run⟩
      | close => exact ⟨⟨start, hsteps.tail .closed⟩, hpresent⟩
      | crash calls operation =>
          obtain ⟨trace, run⟩ :=
            Runs.of_cut (serveFile_allowed room) calls (operation.program journal) disk
          have hcrashed := (hpresent.runs run).crashed
          exact ⟨⟨start, hsteps.tail (.crashedOperation run hcrashed)⟩, fun file => rfl⟩

def sampleStep : JournalStep :=
  .new ⟨1⟩ (.ofAscii "C:\\a") (.ofAscii "C:\\b") ⟨1, 2⟩ ⟨1, 1⟩ ⟨1, 1⟩ .none

/-- One move is journaled until the disk is full. The next process cuts the torn frame off and
goes on, and a crash tears its last frame. -/
def sampleScript : List (ℕ × Command) :=
  [(1000, .open (.openExisting (.ofAscii "journal"))),
    (1000, .operate (.begin ⟨7⟩ [sampleStep])),
    (1000, .operate (.prepared 0 .forward)),
    (180, .operate (.completed 0 .forward)),
    (1000, .close),
    (1000, .open (.openExisting (.ofAscii "journal"))),
    (1000, .operate (.authorizedCompleted ⟨7, 2⟩ 0 .forward)),
    (210, .crash 1 (.terminal .committed)),
    (1000, .open (.openExisting (.ofAscii "journal")))]

/-- The session behind the first commands of the script. -/
def sampleSession (n : ℕ) : JournalSession :=
  (sampleScript.take n).foldl (fun s command => s.play command.1 command.2)
    ⟨emptyJournalDisk, none, fun _ => []⟩

theorem reached_sampleSession (n : ℕ) : (sampleSession n).Reached Replays := by
  have hplayed : ∀ (script : List (ℕ × Command)) (s : JournalSession), s.Reached Replays →
      Present s.disk →
      (script.foldl (fun s command => s.play command.1 command.2) s).Reached Replays := by
    intro script
    induction script with
    | nil => exact fun s h _ => h
    | cons command script ih =>
        intro s h hpresent
        obtain ⟨hreached, hkept⟩ := h.play hpresent command.1 command.2
        exact ih _ hreached hkept
  exact hplayed _ _ ⟨emptyJournalDisk, .refl⟩ fun file => rfl

/-- The journal of the session, as far as the file and the caller can tell. -/
def told (s : JournalSession) : List (Bool × List JournalRecord × Option ℕ) × List JournalRecord :=
  (s.journal.toList.map fun journal => (journal.poisoned, journal.records, journal.tornPrefix),
    s.acknowledged 0)

/-- A full disk poisons the journal, the next process finds the torn frame and repairs it, and
behind the crash the completed move is still on the disk. -/
theorem reached_holds_sample : (∀ n, (sampleSession n).Reached Replays ∧ (sampleSession n).Holds) ∧
    (sampleSession 4).told = ([(true, [.intent ⟨7⟩ [sampleStep], .prepared 0 .forward], none)],
      [.intent ⟨7⟩ [sampleStep], .prepared 0 .forward]) ∧
    (sampleSession 6).told = ([(false, [.intent ⟨7⟩ [sampleStep], .prepared 0 .forward], some 168)],
      [.intent ⟨7⟩ [sampleStep], .prepared 0 .forward]) ∧
    (sampleSession 9).told = ([(false, [.intent ⟨7⟩ [sampleStep], .prepared 0 .forward,
        .completed 0 .forward], some 197)],
      [.intent ⟨7⟩ [sampleStep], .prepared 0 .forward, .completed 0 .forward]) :=
  ⟨fun n => ⟨reached_sampleSession n, reached_holds (reached_sampleSession n)⟩,
    by decide +kernel, by decide +kernel, by decide +kernel⟩

end JournalSession

end DarkReNamer
