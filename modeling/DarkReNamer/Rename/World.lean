import DarkReNamer.Rename.Ports

/-!
# What a run acts on

The durable records of the journal and the state of the backend. The journal port
is specified once: an append that returns `Ok` is durable, one that fails with
`NotAppended` leaves the records alone, and one that fails with `MayHaveAppended`
may or may not leave the record. The control answers what it likes. The backend
is a parameter, so that the same programs run over an arbitrary backend and over
a volume that keeps its contract.
-/

namespace DarkReNamer

open Interaction

/-- The durable part of the world: backend state and journal records. -/
structure World (B : Type) where
  backend : B
  records : List JournalRecord

/-- The answers of a backend, with the states they lead to. -/
abbrev BackendRel (B : Type) : Type :=
  B → (call : BackendCall) → BackendAnswer call → B → Prop

/-- The contract of the journal port. -/
def journalRel (records : List JournalRecord) :
    (call : JournalCall) → JournalAnswer call → List JournalRecord → Prop
  | .snapshot, .ok snapshot, records' => snapshot = records ∧ records' = records
  | .snapshot, .error _, records' => records' = records
  | .append record, .ok _, records' => records' = records ++ [record]
  | .append record, .error error, records' =>
      records' = records ∨
        (error.certainty = .mayHaveAppended ∧ records' = records ++ [record])

/-- The environment of the engine over a backend. -/
def engineEnv {B : Type} (backend : BackendRel B) : Environment (World B) Call Answer
  | s, .backend call, answer, t =>
      backend s.backend call answer t.backend ∧ t.records = s.records
  | s, .journal call, answer, t =>
      journalRel s.records call answer t.records ∧ t.backend = s.backend
  | s, .control _, _, t => t = s

/-- A read leaves the records alone. -/
theorem records_of_isRead {B : Type} {backend : BackendRel B} {s t : World B} {call : Call}
    {answer : Answer call} (hread : call.IsRead) (hstep : engineEnv backend s call answer t) :
    t.records = s.records := by
  cases call with
  | backend call => exact hstep.2
  | journal call =>
      cases call with
      | append record => exact hread.elim
      | snapshot =>
          cases answer with
          | ok snapshot => exact hstep.1.2
          | error error => exact hstep.1
  | control call => exact congrArg World.records hstep

/-- The environment answers cancellation checks without a change of state, and being
cancelled is admitted. -/
def Polls {σ : Type} (env : Environment σ Call Answer) (s : σ) (cancelled : Prop) : Prop :=
  ∀ a t, env s (.control .cancellationRequested) a t → t = s ∧ (a = true → cancelled)

/-- Answers of the three ports, one state for each call. -/
structure Ports (B : Type) where
  backend : B → (call : BackendCall) → BackendAnswer call × B
  journal : List JournalRecord → (call : JournalCall) → JournalAnswer call × List JournalRecord
  control : (call : ControlCall) → ControlAnswer call

namespace Ports

variable {B : Type}

/-- The ports as a handler of the engine's calls. -/
def handler (ports : Ports B) : World B → (call : Call) → Answer call × World B
  | s, .backend call =>
      ((ports.backend s.backend call).1, ⟨(ports.backend s.backend call).2, s.records⟩)
  | s, .journal call =>
      ((ports.journal s.records call).1, ⟨s.backend, (ports.journal s.records call).2⟩)
  | s, .control call => (ports.control call, s)

/-- A handler whose backend and journal keep their contracts is one of the environment. -/
theorem allowed {ports : Ports B} {backend : BackendRel B}
    (hbackend : ∀ o call, backend o call (ports.backend o call).1 (ports.backend o call).2)
    (hjournal : ∀ records call, journalRel records call (ports.journal records call).1
      (ports.journal records call).2) (s : World B) (call : Call) :
    engineEnv backend s call (ports.handler s call).1 (ports.handler s call).2 := by
  cases call with
  | backend call => exact ⟨hbackend _ _, rfl⟩
  | journal call => exact ⟨hjournal _ _, rfl⟩
  | control call => rfl

end Ports

/-- A journal without faults. -/
def serveJournal (records : List JournalRecord) :
    (call : JournalCall) → JournalAnswer call × List JournalRecord
  | .snapshot => (.ok records, records)
  | .append record => (.ok (), records ++ [record])

theorem serveJournal_allowed (records : List JournalRecord) (call : JournalCall) :
    journalRel records call (serveJournal records call).1 (serveJournal records call).2 := by
  cases call with
  | snapshot => exact ⟨rfl, rfl⟩
  | append record => rfl

/-- A control that never cancels. -/
def serveControl : (call : ControlCall) → ControlAnswer call
  | .cancellationRequested => false
  | .beginTransaction => true
  | .progress _ => ()

end DarkReNamer
