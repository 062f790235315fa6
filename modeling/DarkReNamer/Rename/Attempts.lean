import DarkReNamer.Interaction.Trace
import DarkReNamer.Rename.Journal.FileJournal.Appends
import DarkReNamer.Rename.Journal.FileJournal.Session
import DarkReNamer.Rename.Session

/-!
# Attempts on a file journal

The executor and recovery over the operations of a file journal: the executor appends through the
store, recovery behind the authorization that its snapshot gave. A journal is opened, executions
and recoveries follow one another on it, each of them finished or cut at any call, and in between
it may be opened again from whatever the files hold then. Every state that is left so is one in
which the journal is in step with its file and the replay accepts its records.
-/

namespace DarkReNamer

open Interaction UndoLog

/-- The backend, the open journal, the authorization that recovery holds, and the files. -/
structure Place (B : Type) where
  backend : B
  journal : FileJournal
  authorization : Option JournalAuthorization
  disk : Disk

/-- The append of a record through the store. -/
def FileJournal.store (journal : FileJournal) : JournalRecord → FileProgram FileJournal.Outcome
  | .intent plan steps => journal.begin plan steps
  | .prepared step direction => journal.prepared step direction
  | .completed step direction => journal.completed step direction
  | .notApplied step direction => journal.notApplied step direction
  | .terminal value => journal.terminal value

/-- The append of a record by whoever holds the journal. -/
def FileJournal.write (journal : FileJournal) :
    Option JournalAuthorization → JournalRecord →
      FileProgram (FileJournal.Outcome × Option JournalAuthorization)
  | none, record => (·, none) <$> journal.store record
  | some authorization, record =>
      (fun outcome => (outcome.1, some outcome.2)) <$> journal.authorizedAppend authorization record

variable {B : Type}

/-- The ports over a file journal. -/
def placeEnv (backend : BackendRel B) : Environment (Place B) Call Answer
  | s, .backend call, answer, t =>
      backend s.backend call answer t.backend ∧ t = { s with backend := t.backend }
  | s, .journal .snapshot, answer, t =>
      match s.journal.authorizedSnapshot with
      | .error error => answer = .error error ∧ t = s
      | .ok (records, authorization) =>
          answer = .ok records ∧ t = { s with authorization := some authorization }
  | s, .journal (.append record), answer, t => t.backend = s.backend ∧ ∃ trace,
      Runs fileEnv (s.journal.write s.authorization record) s.disk trace
        (some ((answer, t.journal), t.authorization)) t.disk
  | s, .control _, _, t => t = s

/-- What executions and recoveries have left of a journal, with their events since the start. -/
inductive Attempted (backend : BackendRel B) : List EngineEvent → Place B → Prop where
  | opened {opening : JournalOpening} {disk disk' : Disk} {files : List FileEvent}
      {journal : FileJournal} (b : B)
      (run : Runs fileEnv opening.program disk files (some (some journal)) disk') :
      Attempted backend [] ⟨b, journal, none, disk'⟩
  | executed {events trace : List EngineEvent} {s t : Place B} {confirmed : ConfirmedPlan}
      {result : Option (Except ExecuteError ExecutionReport)} (past : Attempted backend events s)
      (run : Runs (placeEnv backend) (Executor.executeWithControl confirmed).run
        { s with authorization := none } trace result t) :
      Attempted backend (events ++ trace) t
  | recovered {events trace : List EngineEvent} {s t : Place B} {result : Option RecoveryOutcome}
      (past : Attempted backend events s)
      (run : Runs (placeEnv backend) Recovery.rollback
        { s with authorization := none } trace result t) :
      Attempted backend (events ++ trace) t
  | reopened {events : List EngineEvent} {s : Place B} {opening : JournalOpening}
      {disk disk' : Disk} {files : List FileEvent} {journal : FileJournal}
      (past : Attempted backend events s)
      (run : Runs fileEnv opening.program disk files (some (some journal)) disk') :
      Attempted backend events ⟨s.backend, journal, none, disk'⟩

namespace Place

variable {s t : Place B} {backend : BackendRel B}

/-- What the engine sees of a place. -/
def world (s : Place B) : World B := ⟨s.backend, s.journal.records⟩

/-- The journal is in step with its file and accepted by the replay. -/
structure Sound (s : Place B) : Prop where
  tracks : s.journal.Tracks s.disk
  accepted : (replayJournal s.journal.records).isCorrupt = false

open FileJournal

theorem appends_store {journal : FileJournal} {disk : Disk} (h : journal.Tracks disk)
    (record : JournalRecord) :
    Gives (journal.store record)
      (fun outcome disk' => outcome.2.Tracks disk' ∧ journal.Appends record outcome) disk := by
  cases record with
  | intent plan steps =>
      exact (Spec.mono_crash ((gives_begin h plan steps).both (appends_begin h plan steps))
        fun _ _ => trivial).mono fun outcome disk' h => ⟨h.1.tracks, h.2⟩
  | prepared | completed | notApplied | terminal =>
      exact (Spec.mono_crash ((gives_appendActive h _).both (appends_appendActive h _))
        fun _ _ => trivial).mono fun outcome disk' h => ⟨h.1.tracks, h.2⟩

theorem appends_write {journal : FileJournal} {disk : Disk} (h : journal.Tracks disk)
    (authorization : Option JournalAuthorization) (record : JournalRecord) :
    Gives (journal.write authorization record)
      (fun r disk' => r.1.2.Tracks disk' ∧ journal.Appends record r.1) disk := by
  unfold Gives
  cases authorization with
  | none =>
      rw [write, Spec.map_iff]
      exact appends_store h record
  | some authorization =>
      rw [write, Spec.map_iff]
      exact (Spec.mono_crash ((gives_authorizedAppend h authorization record).both
        (appends_authorizedAppend h authorization record)) fun _ _ => trivial).mono
        fun outcome disk' h => ⟨h.1.tracks, h.2⟩

/-- A step of a place is one of the world that the engine sees. -/
theorem step (call : Call) (answer : Answer call) (h : s.journal.Tracks s.disk)
    (hstep : placeEnv backend s call answer t) :
    t.journal.Tracks t.disk ∧ engineEnv backend s.world call answer t.world := by
  cases call with
  | backend call =>
      obtain ⟨hbackend, hsame⟩ := hstep
      rw [hsame]
      exact ⟨h, hbackend, rfl⟩
  | control call =>
      obtain rfl : t = s := hstep
      exact ⟨h, rfl⟩
  | journal call =>
      cases call with
      | snapshot =>
          simp only [placeEnv, authorizedSnapshot] at hstep
          cases hactive : s.journal.requireActive with
          | error error =>
              rw [hactive] at hstep
              obtain ⟨rfl, rfl⟩ := hstep
              exact ⟨h, rfl, rfl⟩
          | ok _ =>
              rw [hactive] at hstep
              obtain ⟨rfl, rfl⟩ := hstep
              exact ⟨h, ⟨rfl, rfl⟩, rfl⟩
      | append record =>
          obtain ⟨hbackend, files, run⟩ := hstep
          obtain ⟨htracks, happends⟩ := ((appends_write h s.authorization record).sound run).2 _ rfl
          refine ⟨htracks, ?_, hbackend⟩
          cases answer with
          | ok _ => exact happends.ok rfl
          | error error => exact happends.error error rfl

/-- The runs over a file journal are runs of the engine. -/
theorem runs_world {α : Type} {p : Engine α} {trace : List EngineEvent} {r : Option α}
    (h : s.journal.Tracks s.disk) (run : Runs (placeEnv backend) p s trace r t) :
    t.journal.Tracks t.disk ∧ Runs (engineEnv backend) p s.world trace r t.world :=
  run.map (I := fun s => s.journal.Tracks s.disk) world
    (fun _ call answer _ h hstep => step call answer h hstep) h

end Place

end DarkReNamer
