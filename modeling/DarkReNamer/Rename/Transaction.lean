import DarkReNamer.Interaction.Read
import DarkReNamer.Rename.Journal.Replay
import DarkReNamer.Rename.Recovery
import DarkReNamer.Rename.World

/-!
# Journalled moves

What the executor and recovery have in common. `At k` is what is known about the
backend after the first `k` steps of a manifest, and a backend carries it when the
renames of the manifest go from one `At` to the next. Then every record that is
appended, and every rename, keeps the journal and the backend consistent: the journal
is an undo log in some phase, and the phase holds of the backend. That is the crash
condition of both programs.

Nothing is assumed about `At` itself. With `At` always true the backend is arbitrary
and consistency only says that the journal is well formed.
-/

namespace DarkReNamer

open Interaction UndoLog

variable {B : Type} {backend : BackendRel B} {At : ℕ → B → Prop} {plan : PlanId}
  {steps : List JournalStep}

/-- A rename that succeeds leads from `before` to `after`; one that fails stays in
`before` unless it may have been applied. -/
def Moved (before after : B → Prop) : Except BackendError Unit → B → Prop
  | .ok _, b => after b
  | .error error, b => before b ∨ error.certainty = .mayHaveApplied ∧ after b

/-- The backend carries `At` along the moves of a manifest, and through its reads. -/
structure Carries (backend : BackendRel B) (At : ℕ → B → Prop)
    (steps : List JournalStep) : Prop where
  read : ∀ {b call answer b' k}, (∀ op, call ≠ .renameNoReplace op) →
    backend b call answer b' → At k b → At k b'
  forward : ∀ {i step b answer b'}, steps[i]? = some step → At i b →
    backend b (.renameNoReplace (Recovery.forwardOperation step)) answer b' →
      Moved (At i) (At (i + 1)) answer b'
  reverse : ∀ {i step b answer b'}, steps[i]? = some step → At (i + 1) b →
    backend b (.renameNoReplace (Recovery.reverseOperation step)) answer b' →
      Moved (At (i + 1)) (At i) answer b'

/-- Every backend carries what is always true. -/
theorem carries_true (backend : BackendRel B) (steps : List JournalStep) :
    Carries backend (fun _ _ => True) steps where
  read _ _ _ := trivial
  forward {_ _ _ answer _} _ _ _ := by
    cases answer with
    | ok _ => trivial
    | error _ => exact .inl trivial
  reverse {_ _ _ answer _} _ _ _ := by
    cases answer with
    | ok _ => trivial
    | error _ => exact .inl trivial

/-- Nothing is journalled and nothing has moved, or the journal is an undo log and its
phase holds of the backend. -/
def Consistent (At : ℕ → B → Prop) (plan : PlanId) (steps : List JournalStep)
    (s : World B) : Prop :=
  s.records = [] ∧ At 0 s.backend ∨
    ∃ phase, Logs s.records plan steps phase ∧ phase.Holds At steps.length s.backend

theorem Logs.consistent {b : B} {records : List JournalRecord} {phase : Phase}
    (h : Logs records plan steps phase) (hphase : phase.Holds At steps.length b) :
    Consistent At plan steps ⟨b, records⟩ :=
  .inr ⟨phase, h, hphase⟩

/-- A consistent journal is accepted by the replay. -/
theorem Consistent.isCorrupt_eq_false {s : World B} (h : Consistent At plan steps s) :
    (replayJournal s.records).isCorrupt = false := by
  rw [isCorrupt_replayJournal_eq_false_iff]
  rcases h with ⟨hempty, -⟩ | ⟨phase, hlogs, -⟩
  · exact .inl hempty
  · exact .inr ⟨plan, steps, phase, hlogs⟩

/-- An environment that keeps the contracts of the ports, whose journal fails and whose
reverse renames are refused only if `faulty`. -/
structure Within (env : Environment (World B) Call Answer) (backend : BackendRel B)
    (At : ℕ → B → Prop) (steps : List JournalStep) (faulty : Prop) : Prop where
  allowed : ∀ {s call answer t}, env s call answer t → engineEnv backend s call answer t
  journal : ∀ {s call answer t}, env s (.journal call) answer t →
    Fails (.journal call) answer → faulty
  reverse : ∀ {i step s error t}, steps[i]? = some step → At (i + 1) s.backend →
    env s (.backend (.renameNoReplace (Recovery.reverseOperation step))) (.error error) t →
      faulty

/-- With faults of any kind. -/
theorem within_engineEnv : Within (engineEnv backend) backend At steps True where
  allowed h := h
  journal _ _ := trivial
  reverse _ _ _ := trivial

section Rules

variable {α : Type} {crash : World B → Prop} {post : α → World B → Prop} {s : World B}
  {env : Environment (World B) Call Answer} {faulty : Prop}

/-- An append that the log admits. -/
theorem Within.spec_append (henv : Within env backend At steps faulty) {phase q : Phase}
    {r : UndoLog.Record} {f : Except JournalError Unit → Engine α}
    (hlogs : Logs s.records plan steps phase) (hnext : phase.next steps.length r = some q)
    (hcrash : crash s)
    (hok : ∀ records, Logs records plan steps q →
      Spec env crash (f (.ok ())) post ⟨s.backend, records⟩)
    (herror : ∀ error records, faulty → Logs records plan steps phase ∨
        error.certainty = .mayHaveAppended ∧ Logs records plan steps q →
      Spec env crash (f (.error error)) post ⟨s.backend, records⟩) :
    Spec env crash (append (.ofLog r) >>= f) post s := by
  refine ⟨hcrash, ?_⟩
  rintro answer ⟨b, records⟩ hstep
  obtain ⟨hjournal, hbackend⟩ := henv.allowed hstep
  cases hbackend
  have happended : Logs (s.records ++ [.ofLog r]) plan steps q := hlogs.append hnext
  cases answer with
  | ok value =>
      cases hjournal
      exact hok _ happended
  | error error =>
      refine herror error records (henv.journal hstep trivial) ?_
      rcases hjournal with hsame | ⟨hmay, hnew⟩
      · cases hsame
        exact .inl hlogs
      · cases hnew
        exact .inr ⟨hmay, happended⟩

/-- A rename of the backend. -/
theorem Within.spec_rename (henv : Within env backend At steps faulty) {op : RenameOperation}
    {before after : B → Prop} {f : Except BackendError Unit → Engine α}
    (hmoved : ∀ answer b', backend s.backend (.renameNoReplace op) answer b' →
      Moved before after answer b') (hcrash : crash s)
    (hfault : ∀ error t, env s (.backend (.renameNoReplace op)) (.error error) t → faulty)
    (hok : ∀ b', after b' → Spec env crash (f (.ok ())) post ⟨b', s.records⟩)
    (herror : ∀ error b', faulty → before b' ∨ error.certainty = .mayHaveApplied ∧ after b' →
      Spec env crash (f (.error error)) post ⟨b', s.records⟩) :
    Spec env crash (renameNoReplace op >>= f) post s := by
  refine ⟨hcrash, ?_⟩
  rintro answer ⟨b, records⟩ hstep
  obtain ⟨hbackend, hrecords⟩ := henv.allowed hstep
  cases hrecords
  have hafter := hmoved answer b hbackend
  cases answer with
  | ok value => exact hok b hafter
  | error error => exact herror error b (hfault error _ hstep) hafter

/-- An append with faults of any kind. -/
theorem spec_append {phase q : Phase} {r : UndoLog.Record}
    {f : Except JournalError Unit → Engine α} (hlogs : Logs s.records plan steps phase)
    (hnext : phase.next steps.length r = some q) (hcrash : crash s)
    (hok : ∀ records, Logs records plan steps q →
      Spec (engineEnv backend) crash (f (.ok ())) post ⟨s.backend, records⟩)
    (herror : ∀ error records, Logs records plan steps phase ∨
        error.certainty = .mayHaveAppended ∧ Logs records plan steps q →
      Spec (engineEnv backend) crash (f (.error error)) post ⟨s.backend, records⟩) :
    Spec (engineEnv backend) crash (append (.ofLog r) >>= f) post s :=
  (within_engineEnv : Within (engineEnv backend) backend (fun _ _ => True) steps
    True).spec_append hlogs hnext hcrash hok
    fun error records _ => herror error records

/-- A rename with faults of any kind. -/
theorem spec_rename {op : RenameOperation} {before after : B → Prop}
    {f : Except BackendError Unit → Engine α}
    (hmoved : ∀ answer b', backend s.backend (.renameNoReplace op) answer b' →
      Moved before after answer b') (hcrash : crash s)
    (hok : ∀ b', after b' → Spec (engineEnv backend) crash (f (.ok ())) post ⟨b', s.records⟩)
    (herror : ∀ error b', before b' ∨ error.certainty = .mayHaveApplied ∧ after b' →
      Spec (engineEnv backend) crash (f (.error error)) post ⟨b', s.records⟩) :
    Spec (engineEnv backend) crash (renameNoReplace op >>= f) post s :=
  (within_engineEnv : Within (engineEnv backend) backend (fun _ _ => True) []
    True).spec_rename hmoved hcrash
    (fun _ _ _ => trivial) hok fun error b' _ => herror error b'

/-- A call of the control, whatever it answers. -/
theorem spec_control {call : ControlCall} {f : ControlAnswer call → Engine α}
    (hcrash : crash s) (h : ∀ answer, Spec (engineEnv backend) crash (f answer) post s) :
    Spec (engineEnv backend) crash (Program.ask (Call.control call) >>= f) post s := by
  refine ⟨hcrash, ?_⟩
  rintro answer t rfl
  exact h answer

theorem spec_except_control {ε : Type} {call : ControlCall}
    {f : ControlAnswer call → ExceptT ε Engine α} {post : Except ε α → World B → Prop}
    (hcrash : crash s)
    (h : ∀ answer, Spec (engineEnv backend) crash (f answer).run post s) :
    Spec (engineEnv backend) crash
      (liftM (Program.ask (A := Answer) (Call.control call)) >>= f).run post s := by
  refine Spec.except_ask_bind hcrash ?_
  rintro answer t rfl
  exact h answer

end Rules

end DarkReNamer
