import DarkReNamer.Interaction.Monitor
import DarkReNamer.Rename.Executor.Prepare

/-!
# The stages of an execution

A monitor of the calls of the executor. It asks whether to stop before the transaction and
between two steps; from a Prepared record to the record that settles it, and from the start of a
rollback to its end, it does not ask. The executor obeys the monitor whatever is answered, and a
report says by its outcome at which stage it ended.
-/

namespace DarkReNamer

open Interaction

namespace Executor

/-- Where the executor is, as its calls show. -/
inductive Stage where
  /-- No transaction has begun. -/
  | preparing
  /-- Between two steps. -/
  | running
  /-- Nothing has been called since a check was answered by no. -/
  | checked
  /-- A step is prepared. -/
  | pending (step : ℕ) (direction : JournalDirection)
  /-- Its rename was answered by success. -/
  | moved (step : ℕ) (direction : JournalDirection)
  /-- Its rename was refused. -/
  | refused (step : ℕ) (direction : JournalDirection)
  | restoring
  | ended (value : JournalTerminal)
  /-- A call has failed, and recovery is required. -/
  | stopped
  deriving DecidableEq, Repr

/-- What the executor may do at each stage. -/
inductive Stage.Moves : Stage → (call : Call) → Answer call → Stage → Prop where
  | observe {call : Call} (answer : Answer call) (h : call.Observes) :
      Moves .preparing call answer .preparing
  | ready (completed total : ℕ) :
      Moves .preparing (.control (.progress ⟨.ready, completed, total⟩)) () .preparing
  | notBegun : Moves .preparing (.control .beginTransaction) false .preparing
  | begun : Moves .preparing (.control .beginTransaction) true .running
  | intent (plan : PlanId) (steps : List JournalStep) :
      Moves .running (.journal (.append (.intent plan steps))) (.ok ()) .running
  | intentFailed (plan : PlanId) (steps : List JournalStep) (error : JournalError) :
      Moves .running (.journal (.append (.intent plan steps))) (.error error) .stopped
  | check : Moves .running (.control .cancellationRequested) false .checked
  | cancel : Moves .running (.control .cancellationRequested) true .restoring
  | progress (value : ExecutionProgress) (h : value.phase ≠ .rollback) :
      Moves .running (.control (.progress value)) () .running
  | rollback (value : ExecutionProgress) :
      Moves .running (.control (.progress value)) () .restoring
  | prepared (step : ℕ) : Moves .checked (.journal (.append (.prepared step .forward))) (.ok ())
      (.pending step .forward)
  | notPrepared (step : ℕ) (error : JournalError) :
      Moves .checked (.journal (.append (.prepared step .forward))) (.error error) .restoring
  | prepareFailed (step : ℕ) (error : JournalError) :
      Moves .checked (.journal (.append (.prepared step .forward))) (.error error) .stopped
  | committed : Moves .checked (.journal (.append (.terminal .committed))) (.ok ())
      (.ended .committed)
  | commitFailed (error : JournalError) :
      Moves .checked (.journal (.append (.terminal .committed))) (.error error) .stopped
  | moved (step : ℕ) (direction : JournalDirection) (op : RenameOperation) :
      Moves (.pending step direction) (.backend (.renameNoReplace op)) (.ok ())
        (.moved step direction)
  | refused (step : ℕ) (direction : JournalDirection) (op : RenameOperation)
      (error : BackendError) (h : error.certainty = .notApplied) :
      Moves (.pending step direction) (.backend (.renameNoReplace op)) (.error error)
        (.refused step direction)
  | moveFailed (step : ℕ) (direction : JournalDirection) (op : RenameOperation)
      (error : BackendError) (h : error.certainty = .mayHaveApplied) :
      Moves (.pending step direction) (.backend (.renameNoReplace op)) (.error error) .stopped
  | completed (step : ℕ) : Moves (.moved step .forward)
      (.journal (.append (.completed step .forward))) (.ok ()) .running
  | completedBack (step : ℕ) : Moves (.moved step .rollback)
      (.journal (.append (.completed step .rollback))) (.ok ()) .restoring
  | completeFailed (step : ℕ) (direction : JournalDirection) (error : JournalError) :
      Moves (.moved step direction) (.journal (.append (.completed step direction)))
        (.error error) .stopped
  | notApplied (step : ℕ) : Moves (.refused step .forward)
      (.journal (.append (.notApplied step .forward))) (.ok ()) .restoring
  | notAppliedBack (step : ℕ) : Moves (.refused step .rollback)
      (.journal (.append (.notApplied step .rollback))) (.ok ()) .stopped
  | notAppliedFailed (step : ℕ) (direction : JournalDirection) (error : JournalError) :
      Moves (.refused step direction) (.journal (.append (.notApplied step direction)))
        (.error error) .stopped
  | restoring (value : ExecutionProgress) :
      Moves .restoring (.control (.progress value)) () .restoring
  | prepareBack (step : ℕ) : Moves .restoring (.journal (.append (.prepared step .rollback)))
      (.ok ()) (.pending step .rollback)
  | prepareBackFailed (step : ℕ) (error : JournalError) :
      Moves .restoring (.journal (.append (.prepared step .rollback))) (.error error) .stopped
  | rolledBack : Moves .restoring (.journal (.append (.terminal .rolledBack))) (.ok ())
      (.ended .rolledBack)
  | rollbackFailed (error : JournalError) :
      Moves .restoring (.journal (.append (.terminal .rolledBack))) (.error error) .stopped
  | ended (value : JournalTerminal) (progress : ExecutionProgress) :
      Moves (.ended value) (.control (.progress progress)) () (.ended value)

/-- The stage at which a report is made. -/
def Concludes (report : ExecutionReport) (stage : Stage) : Prop :=
  match report.outcome with
  | .completed => stage = .ended .committed
  | .rolledBack _ => stage = .ended .rolledBack
  | .recoveryRequired _ _ => stage = .stopped

/-- The reverse loop ends with the rollback going on, or at a call that failed. -/
theorem obeys_restoreLoop (total : ℕ) (todo : List (ℕ × ScheduleStep)) (restored : ℕ)
    (entries : IndexedEntryExecutions) :
    Obeys Stage.Moves (restoreLoop total todo restored entries)
      (fun result stage => result.2 = [] ∧ stage = .restoring ∨ result.2 ≠ [] ∧ stage = .stopped)
      .restoring := by
  induction todo generalizing restored entries with
  | nil => exact Obeys.pure (.inl ⟨rfl, rfl⟩)
  | cons first todo ih =>
      obtain ⟨index, step⟩ := first
      rintro (error | _)
      · exact ⟨_, .prepareBackFailed index error, Obeys.pure (.inr ⟨by simp, rfl⟩)⟩
      refine ⟨_, .prepareBack index, ?_⟩
      rintro (⟨operation, code, certainty⟩ | _)
      · cases certainty with
        | notApplied =>
            refine ⟨_, .refused index .rollback _ _ rfl, ?_⟩
            rintro (journalError | _)
            · exact ⟨_, .notAppliedFailed index .rollback journalError,
                Obeys.pure (.inr ⟨by simp, rfl⟩)⟩
            · exact ⟨_, .notAppliedBack index, Obeys.pure (.inr ⟨by simp, rfl⟩)⟩
        | mayHaveApplied =>
            exact ⟨_, .moveFailed index .rollback _ _ rfl, Obeys.pure (.inr ⟨by simp, rfl⟩)⟩
      · refine ⟨_, .moved index .rollback _, ?_⟩
        rintro (error | _)
        · exact ⟨_, .completeFailed index .rollback error, Obeys.pure (.inr ⟨by simp, rfl⟩)⟩
        · exact ⟨_, .completedBack index, fun _ => ⟨_, .restoring _, ih _ _⟩⟩

theorem obeys_rollback (plan : PlanId) (failure : ExecutionFailure)
    (done : List (ℕ × ScheduleStep)) (entries : IndexedEntryExecutions) {stage : Stage}
    (hstage : stage = .running ∨ stage = .restoring) :
    Obeys Stage.Moves (rollback plan failure done entries) Concludes stage := by
  have hstart : ∀ value, stage.Moves (.control (.progress value)) () .restoring := by
    rcases hstage with rfl | rfl
    · exact .rollback
    · exact .restoring
  refine fun _ => ⟨.restoring, hstart _, ?_⟩
  refine (obeys_restoreLoop _ _ _ _).bind ?_
  rintro ⟨entries', failures⟩ stage' (⟨rfl, rfl⟩ | ⟨hne, rfl⟩)
  · rintro (error | _)
    · exact ⟨_, .rollbackFailed error, Obeys.pure rfl⟩
    · exact ⟨_, .rolledBack, fun _ => ⟨_, .ended _ _, Obeys.pure rfl⟩⟩
  · simp only [show failures ≠ [] from hne, if_false]
    exact Obeys.pure rfl

theorem obeys_finalize (plan : PlanId) (total : ℕ) (done : List (ℕ × ScheduleStep))
    (entries : IndexedEntryExecutions) :
    Obeys Stage.Moves (finalize plan total done entries) Concludes .running := by
  refine fun _ => ⟨_, .progress _ (by simp), ?_⟩
  rintro (_ | _)
  · refine ⟨_, .check, ?_⟩
    rintro (error | _)
    · exact ⟨_, .commitFailed error, Obeys.pure rfl⟩
    · exact ⟨_, .committed, fun _ => ⟨_, .ended _ _, Obeys.pure rfl⟩⟩
  · exact ⟨_, .cancel, obeys_rollback plan _ done entries (.inr rfl)⟩

theorem obeys_forwardLoop (plan : PlanId) (total : ℕ) (todo : List ScheduleStep) (index : ℕ)
    (done : List (ℕ × ScheduleStep)) (entries : IndexedEntryExecutions) :
    Obeys Stage.Moves (forwardLoop plan total todo index done entries) Concludes .running := by
  induction todo generalizing index done entries with
  | nil => exact obeys_finalize plan total done entries
  | cons step todo ih =>
      rintro (_ | _)
      · refine ⟨_, .check, ?_⟩
        rintro (⟨code, certainty⟩ | _)
        · cases certainty with
          | notAppended =>
              exact ⟨_, .notPrepared index _, obeys_rollback plan _ done entries (.inr rfl)⟩
          | mayHaveAppended => exact ⟨_, .prepareFailed index _, Obeys.pure rfl⟩
        · refine ⟨_, .prepared index, ?_⟩
          rintro (⟨operation, code, certainty⟩ | _)
          · cases certainty with
            | notApplied =>
                refine ⟨_, .refused index .forward _ _ rfl, ?_⟩
                rintro (journalError | _)
                · exact ⟨_, .notAppliedFailed index .forward journalError, Obeys.pure rfl⟩
                · exact ⟨_, .notApplied index, obeys_rollback plan _ done entries (.inr rfl)⟩
            | mayHaveApplied => exact ⟨_, .moveFailed index .forward _ _ rfl, Obeys.pure rfl⟩
          · refine ⟨_, .moved index .forward _, ?_⟩
            rintro (error | _)
            · exact ⟨_, .completeFailed index .forward error, Obeys.pure rfl⟩
            · exact ⟨_, .completed index, fun _ =>
                ⟨_, .progress _ (by simp), ih _ _ _⟩⟩
      · exact ⟨_, .cancel, obeys_rollback plan _ done entries (.inr rfl)⟩

/-- An error ends an execution before the transaction, or at a call that failed. -/
def Ends : Except ExecuteError ExecutionReport → Stage → Prop
  | .ok report, stage => Concludes report stage
  | .error _, stage => stage = .preparing ∨ stage = .stopped

theorem obeys_transact (plan : PlanId) {schedule : List ScheduleStep} (hne : schedule ≠ [])
    (manifest : List JournalStep) (entries : IndexedEntryExecutions) :
    Obeys Stage.Moves (transact plan schedule manifest entries).run Ends .preparing := by
  unfold transact
  refine Obeys.except_call fun _ => ⟨_, .ready _ _, ?_⟩
  rw [if_neg hne]
  refine Obeys.except_call ?_
  rintro (_ | _)
  · exact ⟨_, .notBegun, .inl rfl⟩
  · refine ⟨_, .begun, Obeys.except_call ?_⟩
    rintro (⟨code, certainty⟩ | _)
    · cases certainty with
      | notAppended => exact ⟨_, .intentFailed plan manifest _, Obeys.pure (.inr rfl)⟩
      | mayHaveAppended => exact ⟨_, .intentFailed plan manifest _, Obeys.pure rfl⟩
    · exact ⟨_, .intent plan manifest, Obeys.except_lift (obeys_forwardLoop _ _ _ _ _ _)⟩

/-- The executor obeys the monitor, whatever is answered. -/
theorem obeys_execute {confirmed : ConfirmedPlan} (hrows : confirmed.plan.entries ≠ []) :
    Obeys Stage.Moves (executeWithControl confirmed).run Ends .preparing := by
  refine (Obeys.of_confined (tries_prepare confirmed.plan)
    fun _ answer => .observe answer).except_bind ?_ ?_
  · rintro ⟨schedule, manifest, entries⟩ stage ⟨rfl, hprepared⟩
    obtain ⟨-, hlength⟩ := hprepared _ rfl
    refine obeys_transact _ ?_ manifest entries
    rintro rfl
    exact hrows (List.eq_nil_of_length_eq_zero (Nat.le_zero.1 hlength))
  · rintro error stage ⟨rfl, -⟩
    exact .inl rfl

end Executor

end DarkReNamer
