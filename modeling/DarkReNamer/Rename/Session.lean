import DarkReNamer.Rename.Executor.Prepare
import DarkReNamer.Rename.Executor.Transact
import DarkReNamer.Rename.Recovery.Restore
import DarkReNamer.Rename.Schedule.Execution

/-!
# Sessions

A session is an execution from an empty journal followed by any number of recovery
runs, each of them finished or cut at any call. Over any backend at all, the journal a
session leaves is one that the replay accepts, and so is each of its prefixes.
-/

namespace DarkReNamer

open Interaction UndoLog

variable {B : Type}

/-- The worlds that a session can leave. -/
inductive Session (backend : BackendRel B) (confirmed : ConfirmedPlan) (b : B) :
    World B → Prop where
  | execute {trace : List EngineEvent} {result : Option (Except ExecuteError ExecutionReport)}
      {t : World B} (run : Runs (engineEnv backend) (Executor.executeWithControl confirmed).run
        ⟨b, []⟩ trace result t) : Session backend confirmed b t
  | recover {s : World B} (past : Session backend confirmed b s) {trace : List EngineEvent}
      {result : Option RecoveryOutcome} {t : World B}
      (run : Runs (engineEnv backend) Recovery.rollback s trace result t) :
      Session backend confirmed b t

namespace Executor

theorem tells_true (schedule : List ScheduleStep) : Tells (fun _ _ => True) schedule :=
  ⟨fun _ _ => trivial, fun _ _ => trivial⟩

/-- Over any backend an execution from an empty journal writes an undo log. -/
theorem spec_execute_consistent (backend : BackendRel B) (confirmed : ConfirmedPlan)
    {s : World B} (hempty : s.records = []) :
    Spec (engineEnv backend)
      (fun t => ∃ steps, Consistent (fun _ _ => True) confirmed.plan.id steps t)
      (executeWithControl confirmed).run (fun _ _ => True) s := by
  unfold executeWithControl
  rw [Spec.except_bind_iff]
  refine (Spec.mono_crash ((tries_prepare confirmed.plan).spec (I := fun t => t.records = [])
    (fun _ _ _ _ hreads hrecords hstep => (records_of_isRead hreads.isRead hstep).trans hrecords)
    hempty) fun t ht => ⟨[], .inl ⟨ht, trivial⟩⟩).mono ?_
  rintro result t ⟨ht, hmanifest⟩
  cases result with
  | error error => exact ⟨⟨[], .inl ⟨ht, trivial⟩⟩, trivial⟩
  | ok prepared =>
      obtain ⟨schedule, manifest, entries⟩ := prepared
      obtain rfl : manifest = schedule.map journalStep := (hmanifest _ rfl).1
      exact (Spec.mono_crash (spec_transact (carries_true backend (schedule.map journalStep))
        (tells_true schedule) ht trivial trivial) fun u hu => ⟨_, hu⟩).mono fun _ _ _ => trivial

end Executor

theorem Session.consistent {backend : BackendRel B} {confirmed : ConfirmedPlan} {b : B}
    {s : World B} (h : Session backend confirmed b s) :
    ∃ steps, Consistent (fun _ _ => True) confirmed.plan.id steps s := by
  induction h with
  | execute run =>
      exact ((Executor.spec_execute_consistent backend confirmed rfl).sound run).1
  | recover past run ih =>
      obtain ⟨steps, hconsistent⟩ := ih
      have hspec := Recovery.spec_rollback within_engineEnv (carries_true backend steps)
        (Recovery.settles_true backend _ steps) (fun _ => trivial) hconsistent
      exact ⟨steps, (hspec.sound run).1⟩

/-- The program never writes a journal that its own replay rejects: after any session
each prefix of the durable records is accepted. -/
theorem Session.replayJournal_accepts (backend : BackendRel B) (confirmed : ConfirmedPlan)
    (b : B) {s : World B} (h : Session backend confirmed b s) {front : List JournalRecord}
    (hfront : front <+: s.records) : (replayJournal front).isCorrupt = false := by
  obtain ⟨back, hsplit⟩ := hfront
  obtain ⟨steps, hconsistent⟩ := h.consistent
  have haccepted := hconsistent.isCorrupt_eq_false
  rw [← hsplit] at haccepted
  exact isCorrupt_replayJournal_of_append haccepted

/-- An execution of the swap journals eight records, and no prefix of them is refused. -/
theorem Session.replayJournal_accepts_swap : ∃ s : World VolumeState,
    Session (flatVolume sampleParent).backendRel ⟨swapPlan⟩ swapState s ∧
      s.records.length = 8 ∧
      ∀ front, front <+: s.records → (replayJournal front).isCorrupt = false := by
  have hrun := Runs.of_run ((flatVolume sampleParent).ports_allowed 5)
    (Executor.executeWithControl ⟨swapPlan⟩).run ⟨swapState, []⟩
  have hlength : ((Executor.executeWithControl ⟨swapPlan⟩).run.run
      ((flatVolume sampleParent).ports 5).handler ⟨swapState, []⟩).2.records.length = 8 := by
    decide +kernel
  exact ⟨_, .execute hrun, hlength, fun front hfront =>
    Session.replayJournal_accepts _ _ _ (.execute hrun) hfront⟩

end DarkReNamer
