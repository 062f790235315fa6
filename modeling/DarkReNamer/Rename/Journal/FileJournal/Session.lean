import DarkReNamer.Rename.Journal.FileJournal.Appends
import DarkReNamer.Rename.Journal.FileJournal.Durable

/-!
# Sessions over a journal

A journal is opened, operated on and closed, and a crash may come at every moment. A step of a
session is one opening or one operation with its result, a close, or a crash in the middle of
an opening or of an operation. An operation that succeeds acknowledges the record that it was
asked for. `JournalSession.Sound` holds of every session that is reached.
-/

namespace DarkReNamer

open Interaction

/-- The ways to a journal. -/
inductive JournalOpening where
  | createNew (leaf : LegacyText)
  | createCandidate (candidateLeaf activeLeaf : LegacyText)
  | openExisting (leaf : LegacyText)
  | openCandidateExisting (candidateLeaf activeLeaf : LegacyText)

/-- The operations on an open journal. -/
inductive JournalOperation where
  | begin (plan : PlanId) (steps : List JournalStep)
  | prepared (step : ℕ) (direction : JournalDirection)
  | completed (step : ℕ) (direction : JournalDirection)
  | notApplied (step : ℕ) (direction : JournalDirection)
  | terminal (value : JournalTerminal)
  | authorizedPrepared (authorization : JournalAuthorization) (step : ℕ)
      (direction : JournalDirection)
  | authorizedCompleted (authorization : JournalAuthorization) (step : ℕ)
      (direction : JournalDirection)
  | authorizedNotApplied (authorization : JournalAuthorization) (step : ℕ)
      (direction : JournalDirection)
  | authorizedTerminal (authorization : JournalAuthorization) (value : JournalTerminal)

/-- The journal that an opening finds, if it succeeds. -/
def JournalOpening.program : JournalOpening → FileProgram (Option FileJournal)
  | .createNew leaf => Except.toOption <$> (FileJournal.createNew leaf).run
  | .createCandidate candidateLeaf activeLeaf =>
      Except.toOption <$> (FileJournal.createCandidate candidateLeaf activeLeaf).run
  | .openExisting leaf => Except.toOption <$> (FileJournal.openExistingRetained leaf).run
  | .openCandidateExisting candidateLeaf activeLeaf =>
      Except.toOption <$> (FileJournal.openCandidateExistingRetained candidateLeaf activeLeaf).run

def JournalOperation.program (journal : FileJournal) :
    JournalOperation → FileProgram FileJournal.Outcome
  | .begin plan steps => journal.begin plan steps
  | .prepared step direction => journal.prepared step direction
  | .completed step direction => journal.completed step direction
  | .notApplied step direction => journal.notApplied step direction
  | .terminal value => journal.terminal value
  | .authorizedPrepared authorization step direction =>
      Prod.fst <$> journal.authorizedPrepared authorization step direction
  | .authorizedCompleted authorization step direction =>
      Prod.fst <$> journal.authorizedCompleted authorization step direction
  | .authorizedNotApplied authorization step direction =>
      Prod.fst <$> journal.authorizedNotApplied authorization step direction
  | .authorizedTerminal authorization value =>
      Prod.fst <$> journal.authorizedTerminal authorization value

/-- The record that an operation is asked to append. -/
def JournalOperation.record : JournalOperation → JournalRecord
  | .begin plan steps => .intent plan steps
  | .prepared step direction => .prepared step direction
  | .completed step direction => .completed step direction
  | .notApplied step direction => .notApplied step direction
  | .terminal value => .terminal value
  | .authorizedPrepared _ step direction => .prepared step direction
  | .authorizedCompleted _ step direction => .completed step direction
  | .authorizedNotApplied _ step direction => .notApplied step direction
  | .authorizedTerminal _ value => .terminal value

/-- The files, the open journal, and what the journals have acknowledged. -/
structure JournalSession where
  disk : Disk
  journal : Option FileJournal
  acknowledged : Acknowledged

namespace JournalSession

/-- An operation that succeeds acknowledges its record behind those of the journal. -/
def acknowledge (acknowledged : Acknowledged) (journal : FileJournal)
    (operation : JournalOperation) (result : Except JournalError Unit) : Acknowledged :=
  match result with
  | .error _ => acknowledged
  | .ok _ =>
      Function.update acknowledged journal.file (journal.records ++ [operation.record])

/-- One step of a session, whose operations leave journals that are allowed. -/
inductive Step (allowed : FileJournal → Prop) : JournalSession → JournalSession → Prop where
  | opened {disk disk' : Disk} {acknowledged : Acknowledged} {opening : JournalOpening}
      {trace : List FileEvent} {journal : Option FileJournal}
      (run : Runs fileEnv opening.program disk trace (some journal) disk') :
      Step allowed ⟨disk, none, acknowledged⟩ ⟨disk', journal, acknowledged⟩
  | operated {disk disk' : Disk} {acknowledged : Acknowledged} {journal : FileJournal}
      {operation : JournalOperation} {trace : List FileEvent} {outcome : FileJournal.Outcome}
      (run : Runs fileEnv (operation.program journal) disk trace (some outcome) disk')
      (hallowed : allowed outcome.2) :
      Step allowed ⟨disk, some journal, acknowledged⟩
        ⟨disk', some outcome.2, acknowledge acknowledged journal operation outcome.1⟩
  | closed {disk : Disk} {acknowledged : Acknowledged} {journal : FileJournal} :
      Step allowed ⟨disk, some journal, acknowledged⟩ ⟨disk, none, acknowledged⟩
  | crashedOpening {disk disk' disk'' : Disk} {acknowledged : Acknowledged}
      {opening : JournalOpening} {trace : List FileEvent}
      (run : Runs fileEnv opening.program disk trace none disk') (crashed : Crashed disk' disk'') :
      Step allowed ⟨disk, none, acknowledged⟩ ⟨disk'', none, acknowledged⟩
  | crashedOperation {disk disk' disk'' : Disk} {acknowledged : Acknowledged}
      {journal : FileJournal} {operation : JournalOperation} {trace : List FileEvent}
      (run : Runs fileEnv (operation.program journal) disk trace none disk')
      (crashed : Crashed disk' disk'') :
      Step allowed ⟨disk, some journal, acknowledged⟩ ⟨disk'', none, acknowledged⟩

/-- The sessions reached from any files, with no journal open and nothing acknowledged. -/
def Reached (allowed : FileJournal → Prop) (s : JournalSession) : Prop :=
  ∃ disk, Relation.ReflTransGen (Step allowed) ⟨disk, none, fun _ => []⟩ s

/-- What holds of every session that is reached. -/
structure Sound (s : JournalSession) : Prop where
  durable : Durable s.acknowledged s.disk
  tracks : ∀ journal, s.journal = some journal → journal.Tracks s.disk
  extends_acknowledged : ∀ journal, s.journal = some journal → journal.poisoned = false →
    s.acknowledged journal.file <+: journal.records

section Programs

variable {acknowledged : Acknowledged} {disk disk' : Disk} {journal : FileJournal}

open FileJournal

theorem keeps_map {α β : Type} {p : FileProgram α} {f : α → β} (h : Keeps acknowledged p disk) :
    Keeps acknowledged (f <$> p) disk := by
  unfold Keeps
  rw [Spec.map_iff]
  exact h

theorem gives_map {α β : Type} {p : FileProgram α} {f : α → β} {post : β → Disk → Prop}
    (h : Gives p (fun a => post (f a)) disk) : Gives (f <$> p) post disk := by
  unfold Gives
  rw [Spec.map_iff]
  exact h

theorem gives_toOption {ε : Type} {p : ExceptT ε FileProgram FileJournal}
    (h : Returns p Opened disk) :
    Gives (Except.toOption <$> p.run)
      (fun r disk' => ∀ journal, r = some journal → journal.Opened disk') disk := by
  refine gives_map (h.mono fun r disk' hr journal hjournal => ?_)
  cases r with
  | error error => cases hjournal
  | ok journal' => exact hr journal (congrArg Except.ok (Option.some.inj hjournal))

theorem gives_opening (opening : JournalOpening) :
    Gives opening.program
      (fun r disk' => ∀ journal, r = some journal → journal.Opened disk') disk := by
  cases opening with
  | createNew leaf => exact gives_toOption (returns_createNew leaf)
  | createCandidate candidateLeaf activeLeaf =>
      exact gives_toOption (returns_createCandidate candidateLeaf activeLeaf)
  | openExisting leaf => exact gives_toOption (returns_openExistingRetained leaf)
  | openCandidateExisting candidateLeaf activeLeaf =>
      exact gives_toOption (returns_openCandidateExistingRetained candidateLeaf activeLeaf)

theorem keeps_opening (h : Durable acknowledged disk) (opening : JournalOpening) :
    Keeps acknowledged opening.program disk := by
  cases opening with
  | createNew leaf => exact keeps_map (keeps_of_reads (reads_createNew leaf) h)
  | createCandidate candidateLeaf activeLeaf =>
      exact keeps_map (keeps_of_reads (reads_createCandidate candidateLeaf activeLeaf) h)
  | openExisting leaf => exact keeps_map (keeps_of_reads (reads_openExistingRetained leaf) h)
  | openCandidateExisting candidateLeaf activeLeaf =>
      exact keeps_map
        (keeps_of_reads (reads_openCandidateExistingRetained candidateLeaf activeLeaf) h)

theorem gives_operation (h : journal.Tracks disk) (operation : JournalOperation) :
    Gives (operation.program journal) (journal.Settles disk) disk := by
  cases operation with
  | begin plan steps => exact gives_begin h plan steps
  | prepared | completed | notApplied | terminal => exact gives_appendActive h _
  | authorizedPrepared authorization | authorizedCompleted authorization
  | authorizedNotApplied authorization | authorizedTerminal authorization =>
      exact gives_map (gives_authorizedAppend h authorization _)

theorem appends_operation (h : journal.Tracks disk) (operation : JournalOperation) :
    Gives (operation.program journal) (fun outcome _ => journal.Appends operation.record outcome)
      disk := by
  cases operation with
  | begin plan steps => exact appends_begin h plan steps
  | prepared | completed | notApplied | terminal => exact appends_appendActive h _
  | authorizedPrepared authorization | authorizedCompleted authorization
  | authorizedNotApplied authorization | authorizedTerminal authorization =>
      exact gives_map (appends_authorizedAppend h authorization _)

theorem keeps_operation (h : Durable acknowledged disk) (htracks : journal.Tracks disk)
    (hextends : journal.poisoned = false → acknowledged journal.file <+: journal.records)
    (operation : JournalOperation) : Keeps acknowledged (operation.program journal) disk := by
  cases operation with
  | begin plan steps => exact keeps_begin h htracks plan steps
  | prepared | completed | notApplied | terminal => exact keeps_appendActive h htracks _
  | authorizedPrepared authorization | authorizedCompleted authorization
  | authorizedNotApplied authorization | authorizedTerminal authorization =>
      exact keeps_map (keeps_authorizedAppend h htracks hextends authorization _)

/-- A journal in step with its file has every acknowledged record. -/
theorem prefix_of_intact {state : FileState} {records : List JournalRecord}
    (h : journal.Intact state) (hbegins : Begins records state.content) :
    records <+: journal.records := by
  cases htorn : journal.tornPrefix with
  | none =>
      obtain ⟨front, tail, hsplit, hframes⟩ := hbegins
      exact hframes.isPrefix (h.whole htorn).2 (hsplit ▸ List.prefix_append _ _)
  | some validBytes =>
      obtain ⟨issue, -, hinspect⟩ := h.torn validBytes htorn
      exact hbegins.prefix_of_inspect hinspect

/-- What an operation that succeeds leaves: the file is the frames of the records with the one
that was asked for behind them, and no crash takes it back. -/
structure Appended (journal : FileJournal) (record : JournalRecord) (journal' : FileJournal)
    (disk' : Disk) : Prop where
  file_eq : journal'.file = journal.file
  unpoisoned : journal'.poisoned = false
  records : journal'.records = journal.records ++ [record]
  frames : Frames 0 (disk'.files journal.file).content (journal.records ++ [record])
  survivors : (disk'.files journal.file).survivors = {(disk'.files journal.file).content}

theorem appended_of_ok {record : JournalRecord} {outcome : Outcome}
    (hsettles : journal.Settles disk outcome disk') (happends : journal.Appends record outcome)
    (hok : outcome.1 = .ok ()) : Appended journal record outcome.2 disk' := by
  have hrecords := happends.ok hok
  have hunpoisoned := hsettles.unpoisoned hok
  have hsynced : (disk'.files outcome.2.file).survivors = _ := hsettles.synced hok
  have hframes := ((hsettles.tracks hunpoisoned).whole (happends.whole hok)).2
  rw [hsettles.file_eq] at hsynced hframes
  rw [hrecords] at hframes
  exact ⟨hsettles.file_eq, hunpoisoned, hrecords, hframes, hsynced⟩

theorem Appended.durable {record : JournalRecord} {journal' : FileJournal}
    (h : Appended journal record journal' disk') :
    (disk'.files journal.file).Durable (journal.records ++ [record]) := by
  have hbegins := h.frames.begins List.prefix_rfl
  refine ⟨hbegins, ?_⟩
  rw [h.survivors]
  rintro content rfl
  exact hbegins

/-- An operation that succeeds makes its record durable. -/
theorem durable_acknowledge {operation : JournalOperation} {outcome : Outcome}
    (h : Durable acknowledged disk') (hsettles : journal.Settles disk outcome disk')
    (happends : journal.Appends operation.record outcome) :
    Durable (acknowledge acknowledged journal operation outcome.1) disk' := by
  obtain ⟨result, journal'⟩ := outcome
  cases result with
  | error error => exact h
  | ok _ =>
      have hdurable := (appended_of_ok hsettles happends rfl).durable
      intro file
      by_cases hfile : file = journal.file
      · subst hfile
        rw [acknowledge, Function.update_self]
        exact hdurable
      · rw [acknowledge, Function.update_of_ne hfile]
        exact h file

end Programs

theorem Sound.step {allowed : FileJournal → Prop} {s t : JournalSession} (h : s.Sound)
    (step : Step allowed s t) : t.Sound := by
  cases step with
  | @opened disk disk' acknowledged opening trace journal run =>
      have hdurable := ((keeps_opening h.durable opening).sound run).1
      have hopened := ((gives_opening opening).sound run).2 journal rfl
      refine ⟨hdurable, ?_, ?_⟩
      · rintro journal' hjournal -
        exact (hopened journal' hjournal).intact
      · intro journal' hjournal hunpoisoned
        exact prefix_of_intact (hopened journal' hjournal).intact (hdurable journal'.file).1
  | @operated disk disk' acknowledged journal operation trace outcome run hallowed =>
      have htracks := h.tracks journal rfl
      have hextends := h.extends_acknowledged journal rfl
      have hkept := ((keeps_operation h.durable htracks hextends operation).sound run).1
      have hsettles := ((gives_operation htracks operation).sound run).2 outcome rfl
      have happends := ((appends_operation htracks operation).sound run).2 outcome rfl
      have hdurable := durable_acknowledge hkept hsettles happends
      refine ⟨hdurable, ?_, ?_⟩
      · rintro _ ⟨⟩
        exact hsettles.tracks
      · rintro _ ⟨⟩ hunpoisoned
        exact prefix_of_intact (hsettles.tracks hunpoisoned) (hdurable outcome.2.file).1
  | closed => exact ⟨h.durable, by simp, by simp⟩
  | @crashedOpening disk disk' disk'' acknowledged opening trace run crashed =>
      have hdurable := ((keeps_opening h.durable opening).sound run).1
      exact ⟨hdurable.crashed crashed, by simp, by simp⟩
  | @crashedOperation disk disk' disk'' acknowledged journal operation trace run crashed =>
      have hdurable := ((keeps_operation h.durable (h.tracks journal rfl)
        (h.extends_acknowledged journal rfl) operation).sound run).1
      exact ⟨hdurable.crashed crashed, by simp, by simp⟩

theorem Reached.mono {allowed allowed' : FileJournal → Prop} {s : JournalSession}
    (h : s.Reached allowed) (hallowed : ∀ journal, allowed journal → allowed' journal) :
    s.Reached allowed' := by
  obtain ⟨disk, hsteps⟩ := h
  refine ⟨disk, hsteps.lift id fun s t step => ?_⟩
  cases step with
  | opened run => exact .opened run
  | operated run h => exact .operated run (hallowed _ h)
  | closed => exact .closed
  | crashedOpening run crashed => exact .crashedOpening run crashed
  | crashedOperation run crashed => exact .crashedOperation run crashed

theorem Reached.sound {allowed : FileJournal → Prop} {s : JournalSession} (h : s.Reached allowed) :
    s.Sound := by
  obtain ⟨disk, hsteps⟩ := h
  induction hsteps with
  | refl =>
      refine ⟨fun file => ⟨begins_nil _, fun content _ => begins_nil content⟩, by simp, by simp⟩
  | tail _ step ih => exact ih.step step

end JournalSession

end DarkReNamer
