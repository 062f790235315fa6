import DarkReNamer.Rename.Executor
import DarkReNamer.Rename.Schedule.Prepared

/-!
# Preparation makes no mutation

Scheduling, freezing and the rest of `prepare` only read, in every environment. The schedule
has a step for every row at least, and the manifest is the schedule, step by step.
-/

namespace DarkReNamer

open Std Interaction

/-- What observes only reads. -/
theorem observes_reads {α ε : Type} {ok : α → Prop} {p : ExceptT ε Engine α}
    (h : Tries Call.Observes ok p) : Tries Call.IsRead ok p :=
  Confined.mono_calls h fun _ => Call.Observes.isRead

namespace Schedule

/-- No row is taken off without a step. -/
def LoopState.Grows (st st' : LoopState) : Prop :=
  st.schedule.length + st.remaining ≤ st'.schedule.length + st'.remaining

theorem LoopState.Grows.finish {st st' : LoopState} {index : ℕ} (step : ScheduleStep)
    (h : (st.push step).finish index = .ok st') : st.Grows st' := by
  unfold LoopState.finish at h
  split at h
  · cases h
    simp only [LoopState.Grows, LoopState.push, List.length_append, List.length_singleton]
    omega
  · cases h

theorem grows_scheduleDirect {plan : RenamePlan} {st st' : LoopState} {index : ℕ}
    (h : scheduleDirect plan st index = .ok st') : st.Grows st' := by
  unfold scheduleDirect at h
  split at h
  · cases h
  · split at h
    · cases h
    · obtain ⟨step, -, hfinish⟩ := bind_eq_ok_iff.1 h
      exact .finish step hfinish

theorem grows_scheduleReady {plan : RenamePlan} {predecessors : List (Option ℕ)}
    {st st' : LoopState} {index : ℕ}
    (h : scheduleReady plan predecessors st index = .ok st') : st.Grows st' := by
  obtain ⟨st₁, hdirect, hrest⟩ := bind_eq_ok_iff.1 h
  have hgrows : LoopState.Grows { st with ready := st.ready.erase index } st₁ :=
    grows_scheduleDirect hdirect
  split at hrest
  · split at hrest
    · cases hrest
      exact hgrows
    · cases hrest
      exact hgrows
  · cases hrest
    exact hgrows

theorem tries_cycleRows (plan : RenamePlan) (predecessors : List (Option ℕ))
    (pivot rounds freed : ℕ) (st : LoopState) :
    Tries Call.Observes (fun st' => st.Grows st')
      (cycleRows plan predecessors pivot rounds freed st) := by
  induction rounds generalizing freed st with
  | zero => exact Tries.throw _
  | succ rounds ih =>
      rw [cycleRows]
      split
      · exact Tries.pure (Nat.le_refl _)
      · refine Tries.bind tries_checkCancelled fun _ _ => ?_
        split
        · exact Tries.pure (Nat.le_refl _)
        · refine Tries.bind (Tries.ofExcept fun _ => grows_scheduleDirect) fun st₁ hst₁ => ?_
          exact (ih _ _).mono fun st' hst' => Nat.le_trans hst₁ hst'

theorem tries_scheduleCycle (plan : RenamePlan) (predecessors : List (Option ℕ))
    (st : LoopState) :
    Tries Call.Observes (fun st' => st.Grows st') (scheduleCycle plan predecessors st) := by
  unfold scheduleCycle
  split
  · exact Tries.throw _
  · split
    · exact Tries.throw _
    · refine Tries.bind (tries_uniqueTemporaryPath _ _ _) fun _ _ => ?_
      refine Tries.bind (Tries.ofExcept fun _ _ => trivial) fun _ _ => ?_
      refine Tries.bind (tries_cycleRows _ _ _ _ _ _) fun st₁ hst₁ => ?_
      refine Tries.ofExcept fun st' hst' => Nat.le_trans ?_ (LoopState.Grows.finish _ hst')
      refine Nat.le_trans ?_ hst₁
      simp only [LoopState.push, List.length_append]
      omega

theorem tries_mainLoop (plan : RenamePlan) (predecessors : List (Option ℕ)) (rounds : ℕ)
    (st : LoopState) :
    Tries Call.Observes (fun steps => st.schedule.length + st.remaining ≤ steps.length)
      (mainLoop plan predecessors rounds st) := by
  induction rounds generalizing st with
  | zero => exact Tries.throw _
  | succ rounds ih =>
      rw [mainLoop]
      split
      · next hzero => exact Tries.pure (by rw [hzero, Nat.add_zero])
      · refine Tries.bind tries_checkCancelled fun _ _ => ?_
        split
        · refine Tries.bind (Tries.ofExcept fun _ => grows_scheduleReady) fun st₁ hst₁ => ?_
          exact (ih _).mono fun steps hsteps => Nat.le_trans hst₁ hsteps
        · refine Tries.bind (tries_scheduleCycle _ _ _) fun st₁ hst₁ => ?_
          exact (ih _).mono fun steps hsteps => Nat.le_trans hst₁ hsteps

/-- Schedule construction only reads, and schedules every row. -/
theorem tries_buildSchedule (plan : RenamePlan) :
    Tries Call.Observes (fun steps => plan.entries.length ≤ steps.length)
      (buildSchedule plan) := by
  rw [buildSchedule_eq_prepare]
  refine Tries.bind (tries_prepare plan) fun start hstart => ?_
  refine (tries_mainLoop _ _ _ _).mono fun steps hsteps => ?_
  rwa [hstart.schedule, hstart.remaining, List.length_nil, Nat.zero_add] at hsteps

end Schedule

namespace Executor

theorem tries_checkCancelled : Tries Call.Observes (fun _ => True) checkCancelled := by
  refine Tries.bind (Tries.ask trivial) fun cancelled _ => ?_
  cases cancelled with
  | true => exact Tries.throw _
  | false => exact Tries.pure trivial

/-- The manifest is the schedule. -/
theorem tries_buildManifest (schedule : List ScheduleStep) :
    Tries Call.Observes (fun manifest => manifest = schedule.map journalStep)
      (buildManifest schedule) := by
  induction schedule with
  | nil => exact Tries.pure rfl
  | cons step schedule ih =>
      refine Tries.bind tries_checkCancelled fun _ _ => ?_
      refine Tries.bind ih fun manifest hmanifest => ?_
      exact Tries.pure (by rw [hmanifest, List.map_cons])

theorem tries_freezeSource (entry : PlanRow) :
    Tries Call.Observes (fun _ => True) (freezeSource entry) := by
  refine Tries.bind tries_checkCancelled fun _ _ => ?_
  refine Tries.bind (Tries.ask trivial) fun resolved _ => ?_
  cases resolved with
  | error error => exact Tries.throw _
  | ok currentSource =>
      refine Tries.bind tries_checkCancelled fun _ _ => ?_
      split
      · exact Tries.throw _
      · split
        · exact Tries.throw _
        · split
          · exact Tries.throw _
          · exact Tries.pure trivial

theorem tries_freezeDestination (entry : PlanRow) :
    Tries Call.Observes (fun _ => True) (freezeDestination entry) := by
  refine Tries.bind (Tries.ask trivial) fun observed _ => ?_
  cases observed with
  | error error => exact Tries.throw _
  | ok currentDestination =>
      refine Tries.bind tries_checkCancelled fun _ _ => ?_
      split
      · exact Tries.throw _
      · split
        · exact Tries.throw _
        · exact Tries.pure trivial

theorem tries_freezeRows (entries : List PlanRow) :
    Tries Call.Observes (fun _ => True) (freezeRows entries) := by
  induction entries with
  | nil => exact Tries.pure trivial
  | cons entry entries ih =>
      refine Tries.bind (tries_freezeSource entry) fun _ _ => ?_
      exact Tries.bind (tries_freezeDestination entry) fun _ _ => ih

theorem tries_freezeTemporary (entries : List PlanRow) (indexed : IndexedEntryExecutions)
    (step : ScheduleStep) :
    Tries Call.Observes (fun _ => True) (freezeTemporary entries indexed step) := by
  refine Tries.bind tries_checkCancelled fun _ _ => ?_
  refine Tries.bind (Tries.ask trivial) fun observed _ => ?_
  cases observed with
  | error error => exact Tries.throw _
  | ok temporary =>
      refine Tries.bind tries_checkCancelled fun _ _ => ?_
      split
      · exact Tries.throw _
      · split
        · exact Tries.throw _
        · split
          · exact Tries.throw _
          · exact Tries.pure trivial

theorem tries_freezeTemporaries (entries : List PlanRow) (indexed : IndexedEntryExecutions)
    (schedule : List ScheduleStep) :
    Tries Call.Observes (fun _ => True) (freezeTemporaries entries indexed schedule) := by
  induction schedule with
  | nil => exact Tries.pure trivial
  | cons step schedule ih =>
      rw [freezeTemporaries]
      split
      · exact Tries.bind (tries_freezeTemporary entries indexed step) fun _ _ => ih
      · exact ih

theorem tries_freeze (entries : List PlanRow) (schedule : List ScheduleStep)
    (indexed : IndexedEntryExecutions) :
    Tries Call.Observes (fun _ => True) (freeze entries schedule indexed) := by
  refine Tries.bind (tries_freezeRows entries) fun _ _ => ?_
  refine Tries.bind (tries_freezeTemporaries entries indexed schedule) fun _ _ => ?_
  exact Tries.ofExcept fun _ _ => trivial

/-- Preparation only reads, and it returns a schedule of every row with its manifest. -/
theorem tries_prepare (plan : RenamePlan) :
    Tries Call.Observes (fun result => result.2.1 = result.1.map journalStep ∧
      plan.entries.length ≤ result.1.length) (prepare plan) := by
  refine Tries.bind tries_checkCancelled fun _ _ => ?_
  refine Tries.bind (Tries.ofExcept fun _ _ => trivial) fun entries _ => ?_
  refine Tries.bind ((Schedule.tries_buildSchedule plan).mapError _) fun schedule hlength => ?_
  refine Tries.bind (Tries.ofExcept fun _ _ => trivial) fun _ _ => ?_
  refine Tries.bind (tries_buildManifest schedule) fun manifest hmanifest => ?_
  refine Tries.bind (Tries.ofExcept fun _ _ => trivial) fun _ _ => ?_
  refine Tries.bind (tries_freeze _ _ _) fun _ _ => ?_
  refine Tries.bind tries_checkCancelled fun _ _ => ?_
  exact Tries.pure ⟨hmanifest, hlength⟩

end Executor

end DarkReNamer
