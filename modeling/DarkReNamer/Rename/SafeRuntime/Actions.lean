import DarkReNamer.Rename.SafeRuntime.Startup

/-!
# The actions of the application

Applying a plan, recovering the active journal and discarding a candidate. Each of them, finished
or cut, leaves the plan that was underway as it is or ends it, and what the application knows of
its journals afterwards is so.
-/

namespace DarkReNamer

open Interaction Occupancy UndoLog FileJournal

variable {N : NativeVolume} {b b' : VolumeState} {plan : RenamePlan} {file : FileId}
  {live live' : Option (RenamePlan × FileId)} {l t : Life} {g u : Ledger} {journal : FileJournal}
  {runtime : SafeRuntime} {native : NativeState} {state : AppState}

/-! ### Cleanup -/

/-- The plan that is underway is that of the journal. -/
def Covers (journal : FileJournal) (live : Option (RenamePlan × FileId)) : Prop :=
  ∀ plan file, live = some (plan, file) → journal.file = file

/-- The journal is gone and its plan has ended, or it is retained. -/
inductive Cleaned (N : NativeVolume) (b : VolumeState) (live : Option (RenamePlan × FileId))
    (native : NativeState) (g : Ledger) (journal : FileJournal) (cleanup : JournalCleanup)
    (u : Ledger) : Prop where
  | gone {b' : VolumeState} (hretained : cleanup.retained = none)
      (hadvances : Advances b live b' none) (hsteady : Steady N b' none ⟨native, u⟩)
  | kept (hretained : cleanup.retained = some journal) (hsame : u = g)

/-- A journal that may be deleted is marked: its plan has ended, if it was underway. -/
theorem Holds.mark (holds : Holds live g journal) (h : Steady N b live ⟨native, g⟩)
    (hcovers : Covers journal live) (hsafe : journal.safeToDelete = true) :
    ∃ b', Advances b live b' none ∧ Steady N b' none ⟨native, g.mark journal.file⟩ := by
  have hclosed : Closed journal.file g.disk :=
    closed_of_safeToDelete (l := ⟨native, g⟩) holds.kept hsafe
  rcases holds.accounted with ⟨plan, rfl⟩ | hmarked
  · rcases (h.underwent plan _ rfl).ended hclosed with hback | hcarried
    · exact ⟨b, .undone, h.finish hback fun _ => hclosed⟩
    · exact ⟨_, .carried, h.finish hcarried fun _ => hclosed⟩
  · have hnone : live = none := by
      refine Option.eq_none_iff_forall_ne_some.2 ?_
      rintro ⟨plan, file⟩ hlive
      obtain rfl := hcovers plan file hlive
      exact h.unmarked plan _ hlive hmarked
    subst hnone
    exact ⟨b, .stays, h.mark (by simp) fun _ => hclosed⟩

theorem cleaned_cleanupFileJournal (h : Steady N b live ⟨native, g⟩)
    (holds : Holds live g journal) (hcovers : Covers journal live) :
    Spec ledgerEnv (fun u => Onward N b live ⟨native, u⟩) (cleanupFileJournal journal)
      (Cleaned N b live native g journal) g := by
  refine (cleans_cleanupFileJournal.mono_crash ?_).mono fun cleanup u hcleans => ?_
  · rintro u (rfl | ⟨hsafe, rfl⟩)
    · exact h.onward
    · obtain ⟨b', hadvances, hsteady⟩ := holds.mark h hcovers hsafe
      exact ⟨b', none, hadvances, hsteady⟩
  · cases hretained : cleanup.retained with
    | none =>
        obtain ⟨-, hsafe, rfl⟩ := hcleans.gone hretained
        obtain ⟨b', hadvances, hsteady⟩ := holds.mark h hcovers hsafe
        exact .gone hretained hadvances hsteady
    | some kept =>
        obtain ⟨rfl, rfl⟩ := hcleans.retained kept hretained
        exact .kept hretained rfl

/-- The journal is the active one, and no other plan is underway. -/
theorem retaining_active (holds : Holds live g journal) (hcovers : Covers journal live)
    (hactive : runtime.activeJournal = some journal) (hstaged : runtime.stagedJournal = none) :
    Retaining live g runtime where
  locked plan file hlive := .active hactive (hcovers plan file hlive)
  active other hother := by
    obtain rfl := Option.some.inj (hactive.symm.trans hother)
    exact holds
  staged := by simp [hstaged]

theorem Cleaned.arrives {cleanup : JournalCleanup}
    (hcleaned : Cleaned N b live native g journal cleanup u) (h : Steady N b live ⟨native, g⟩)
    (holds : Holds live g journal) (hcovers : Covers journal live)
    (hactive : runtime.activeJournal = cleanup.retained) (hstaged : runtime.stagedJournal = none) :
    Arrives N b live ⟨native, u⟩ runtime := by
  cases hcleaned with
  | gone hretained hadvances hsteady =>
      exact ⟨_, none, hadvances, hsteady, retaining_none (hactive.trans hretained) hstaged⟩
  | kept hretained hsame =>
      subst hsame
      exact ⟨b, live, .stays, h, retaining_active holds hcovers (hactive.trans hretained) hstaged⟩

/-- A cleanup, whose result becomes the active journal. -/
theorem arrives_cleanup (h : Steady N b live ⟨native, g⟩) (holds : Holds live g journal)
    (hcovers : Covers journal live) (after : JournalCleanup → AppState)
    (hactive : ∀ cleanup, (after cleanup).activeJournal = cleanup.retained)
    (hstaged : ∀ cleanup, (after cleanup).stagedJournal = none) :
    Spec ledgerEnv (fun u => Onward N b live ⟨native, u⟩) (after <$> cleanupFileJournal journal)
      (fun state u => Arrives N b live ⟨native, u⟩ state.toSafeRuntime) g := by
  rw [Spec.map_iff]
  exact (cleaned_cleanupFileJournal h holds hcovers).mono fun cleanup u hcleaned =>
    hcleaned.arrives h holds hcovers (hactive cleanup) (hstaged cleanup)

theorem arrives_retainActive (h : Steady N b live ⟨native, g⟩) (holds : Holds live g journal)
    (hcovers : Covers journal live) (hstaged : state.stagedJournal = none) :
    Arrives N b live ⟨native, g⟩ (state.retainActive journal).toSafeRuntime :=
  ⟨b, live, .stays, h, retaining_active holds hcovers rfl hstaged⟩

/-! ### Applying a plan -/

/-- The plan is underway, or not yet. -/
def OfPlan (plan : RenamePlan) (live : Option (RenamePlan × FileId)) : Prop :=
  live = none ∨ ∃ file, live = some (plan, file)

theorem handles_completedExecution (h : Steady N b live ⟨native, g⟩) (holds : Holds live g journal)
    (hcovers : Covers journal live) (hstaged : state.stagedJournal = none) (reflected : Bool)
    (execution : Except ExecuteError ExecutionReport) :
    Spec ledgerEnv (fun u => Onward N b live ⟨native, u⟩)
      (state.handleCompletedExecution reflected journal execution)
      (fun state u => Arrives N b live ⟨native, u⟩ state.toSafeRuntime) g := by
  have hcleanup := arrives_cleanup h holds hcovers state.afterCleanup (fun _ => rfl)
    (fun _ => hstaged)
  have hretain := arrives_retainActive h holds hcovers hstaged
  cases execution with
  | error error => exact hcleanup
  | ok report =>
      unfold AppState.handleCompletedExecution
      dsimp only
      split
      · split
        · exact hcleanup
        · exact ⟨h.onward, hretain⟩
      · exact hcleanup
      · exact ⟨h.onward, hretain⟩

/-- What the worker leaves. -/
structure Worked (N : NativeVolume) (b : VolumeState) (plan : RenamePlan)
    (result : ApplyWorkerResult) (t : Life) : Prop where
  steady : ∃ live, OfPlan plan live ∧ Steady N b live t
  executed : ∀ journal execution, result = .executed journal execution →
    Steady N b (some (plan, journal.file)) t ∧ Holds (some (plan, journal.file)) t.ledger journal

theorem Steady.holds (h : Steady N b (some (plan, journal.file)) t)
    (hkept : journal.Kept t.ledger.disk) (hmanages : Manages journal.file journal) :
    Holds (some (plan, journal.file)) t.ledger journal where
  kept := hkept
  manages := hmanages
  accounted := .inl ⟨plan, rfl⟩
  closed hmarked := absurd hmarked (h.unmarked _ _ rfl)

theorem works_applyWorkerThread (h : Steady N b none l) (planned : PlannedBy N plan) :
    Spec N.lifeEnv (fun t => ∃ live, OfPlan plan live ∧ Steady N b live t)
      (applyWorkerThread ⟨plan⟩) (Worked N b plan) l := by
  have hcreated : ∀ t : Life, MayCreate l.ledger t.ledger ∧ t.native = l.native →
      ∃ live, OfPlan plan live ∧ Steady N b live t := by
    rintro ⟨native, g⟩ ⟨rfl | ⟨file, hfresh, rfl⟩, rfl⟩
    · exact ⟨none, .inl rfl, h⟩
    · exact ⟨_, .inr ⟨file, rfl⟩, h.create planned hfresh⟩
  unfold applyWorkerThread
  rw [Spec.bind_iff]
  refine ((spec_osFile opened_createCandidate).mono_crash hcreated).mono fun r t hr => ?_
  obtain ⟨⟨hmaycreate, hok⟩, hnative⟩ := hr
  have hbefore := hcreated t ⟨hmaycreate, hnative⟩
  cases r with
  | error error => exact ⟨hbefore, hbefore, by rintro _ _ ⟨⟩⟩
  | ok journal =>
      obtain ⟨hstarts, hkept⟩ := hok journal rfl
      have hstarted : Steady N b (some (plan, journal.file)) t := by
        obtain ⟨native, g⟩ := t
        obtain rfl : g = _ := hstarts.ledger
        obtain rfl : native = _ := hnative
        exact h.create planned hstarts.fresh
      have hempty : Salvages journal.file (· = []) t.ledger.disk := by
        rw [hstarts.ledger]
        exact hstarts.fresh.salvages
      have hmanages : Manages journal.file journal := by
        refine ⟨rfl, fun leaf hphase => ⟨hstarts.path, ?_⟩⟩
        rw [hstarts.phase] at hphase
        exact (FileJournalPhase.candidate.inj hphase).symm
      have hexecutes : ∀ s ∈ t.os.found journal.file, Spec N.hostEnv HostWorld.Replays
          (interpret carryCall (Executor.executeWithControl ⟨plan⟩).run) (fun _ _ => True) s := by
        rintro s ⟨-, content, hcontent, hrecords⟩
        exact spec_executeHost (hrecords.trans (hempty content hcontent))
      have hstart : t.native.occupancy = b := by
        rw [hnative]
        exact h.idle rfl
      rw [Spec.bind_iff]
      refine ((spec_process ⟨rfl, hkept⟩ hmanages hexecutes).mono_crash ?_).mono ?_
      · rintro u ⟨helsewhere, hran⟩
        exact ⟨_, .inr ⟨_, rfl⟩, hstarted.work helsewhere
          (underwent_of_execution planned hstart hempty hran)⟩
      · rintro r u ⟨⟨helsewhere, hmanaged⟩, hretains, hran⟩
        have hworked := hstarted.work helsewhere
          (underwent_of_execution planned hstart hempty hran)
        refine ⟨⟨_, .inr ⟨_, rfl⟩, hworked⟩, ⟨_, .inr ⟨_, rfl⟩, hworked⟩, ?_⟩
        rintro journal' execution ⟨⟩
        rw [← hretains.file_eq] at hworked hmanaged
        exact ⟨hworked, hworked.holds hretains.kept hmanaged⟩

/-- The application is not locked, so it retains no journal. -/
theorem unlocked_of_applyLocked (h : state.applyLocked = false) :
    state.activeJournal = none ∧ state.stagedJournal = none ∧ state.recoveryLocked = false := by
  simp only [AppState.applyLocked, Bool.or_eq_false_iff, Option.isSome_eq_false_iff,
    Option.isNone_iff_eq_none] at h
  exact ⟨h.1.1.1.1.1.1.2, h.1.1.1.1.1.2, h.1.1.1.1.1.1.1.2⟩

/-- The journal is lost, and the lock stays. -/
theorem retaining_lost (hactive : runtime.activeJournal = none)
    (hstaged : runtime.stagedJournal = none) (hlocked : runtime.recoveryLocked = true) :
    Retaining live g runtime where
  locked _ _ _ := .lost hactive hlocked
  active := by simp [hactive]
  staged := by simp [hstaged]

theorem finalizes_applyWorker (hunlocked : state.applyLocked = false) {result : ApplyWorkerResult}
    (hworked : Worked N b plan result t) (reflected : Bool) :
    Spec ledgerEnv (fun u => ∃ live, OfPlan plan live ∧ Onward N b live ⟨t.native, u⟩)
      (state.finalizeApplyWorker reflected (some result))
      (fun state u => ∃ live, OfPlan plan live ∧
        Arrives N b live ⟨t.native, u⟩ state.toSafeRuntime) t.ledger := by
  obtain ⟨hactive, hstaged, -⟩ := unlocked_of_applyLocked hunlocked
  obtain ⟨live, hof, hsteady⟩ := hworked.steady
  have hlost : Arrives N b live t { state.toSafeRuntime with recoveryLocked := true } :=
    ⟨b, live, .stays, hsteady, retaining_lost hactive hstaged rfl⟩
  cases result with
  | journalCreateFailed error => exact ⟨⟨live, hof, hsteady.onward⟩, live, hof, hlost⟩
  | panicked => exact ⟨⟨live, hof, hsteady.onward⟩, live, hof, hlost⟩
  | executed journal execution =>
      obtain ⟨hsteady, holds⟩ := hworked.executed journal execution rfl
      have hcovers : Covers journal (some (plan, journal.file)) := by
        rintro _ _ ⟨⟩
        rfl
      have hof : OfPlan plan (some (plan, journal.file)) := .inr ⟨_, rfl⟩
      unfold AppState.finalizeApplyWorker
      refine ((handles_completedExecution hsteady holds hcovers ?_ reflected execution).mono_crash
        fun u hu => ⟨_, hof, hu⟩).mono fun state u hu => ⟨_, hof, hu⟩
      exact hstaged

/-- A plan that is applied to the end of the worker. -/
def AppState.applyPlan (state : AppState) (reflected : Bool) (confirmed : ConfirmedPlan) :
    OsProgram AppState := do
  let result ← applyWorkerThread confirmed
  interpret osFile (state.finalizeApplyWorker reflected (some result))

theorem arrives_applyPlan (h : Steady N b none l) (planned : PlannedBy N plan)
    (hunlocked : state.applyLocked = false) (reflected : Bool) :
    Spec N.lifeEnv (fun t => ∃ live, OfPlan plan live ∧ Onward N b live t)
      (state.applyPlan reflected ⟨plan⟩)
      (fun state t => ∃ live, OfPlan plan live ∧ Arrives N b live t state.toSafeRuntime) l := by
  unfold AppState.applyPlan
  rw [Spec.bind_iff]
  refine ((works_applyWorkerThread h planned).mono_crash ?_).mono fun result t hworked => ?_
  · rintro t ⟨live, hof, hsteady⟩
    exact ⟨live, hof, hsteady.onward⟩
  · refine ((spec_osFile (finalizes_applyWorker hunlocked hworked reflected)).mono_crash ?_).mono ?_
    · rintro ⟨native, u⟩ ⟨honward, rfl⟩
      exact honward
    · rintro state ⟨native, u⟩ ⟨harrives, rfl⟩
      exact harrives

/-! ### Recovery -/

section Recovery

theorem rollback_of_clean {V : Volume} {s : World VolumeState}
    (hclean : replayJournal s.records = .clean) :
    Spec (engineEnv V.backendRel) (fun t => t = s) Recovery.rollback (fun _ t => t = s) s := by
  refine ⟨rfl, fun answer t step => ?_⟩
  obtain ⟨backend, records⟩ := t
  obtain rfl : backend = s.backend := step.2
  cases answer with
  | error error =>
      obtain rfl : records = s.records := step.1
      exact ⟨rfl, rfl⟩
  | ok snapshot =>
      obtain ⟨rfl, rfl⟩ : snapshot = s.records ∧ records = s.records := step.1
      show Spec (engineEnv V.backendRel) (fun t => t = s) (Recovery.recoverRecords s.records)
        (fun _ t => t = s) s
      unfold Recovery.recoverRecords
      rw [hclean]
      exact ⟨rfl, rfl⟩

theorem rollbackHost_of_clean {s : HostWorld} (hclean : replayJournal s.records = .clean) :
    Spec N.hostEnv (fun t => t.view = s.view) (interpret carryCall Recovery.rollback)
      (fun _ t => t.view = s.view) s := by
  have hclean' : replayJournal s.view.records = .clean := hclean
  refine ((N.refines_host.spec (rollback_of_clean hclean') rfl).mono_crash ?_).mono ?_
  · rintro t ⟨_, rfl, hview⟩
    exact hview
  · rintro _ t ⟨_, rfl, hview⟩
    exact hview

/-- Work on a journal that is marked. -/
theorem Steady.rest (h : Steady N b none l) (hmarked : file ∈ l.ledger.marked)
    (helsewhere : Elsewhere file l.ledger t.ledger)
    (hoccupancy : t.native.occupancy = l.native.occupancy) (hclosed : Closed file t.ledger.disk) :
    Steady N b none t where
  idle hlive := hoccupancy.trans (h.idle hlive)
  planned := by simp
  underwent := by simp
  named := by simp
  unmarked := by simp
  closed other hother hactive := by
    by_cases hsame : other = file
    · exact hsame ▸ hclosed
    · rw [helsewhere.marked] at hother
      have hbefore := (helsewhere.names _ _ hactive).resolve_left hsame
      unfold Closed Salvages leavings
      rw [helsewhere.files other hsame]
      exact h.closed other hother hbefore
  others leaf other hleaf hother := by
    rw [helsewhere.marked]
    rcases helsewhere.names _ _ hother with rfl | hbefore
    · exact .inl hmarked
    · exact h.others leaf other hleaf hbefore
  distinct := helsewhere.distinct h.distinct

/-- A journal that asks for nothing asks for nothing after the recovery. -/
theorem closed_of_ran {r : Option RecoveryOutcome} (hclosed : Closed file l.ledger.disk)
    (hran : Ran N file Recovery.rollback l t r) :
    t.native.occupancy = l.native.occupancy ∧ Closed file t.ledger.disk := by
  have hback : ∀ s' ∈ t.os.found file, s'.native.occupancy = l.native.occupancy ∧
      replayJournal s'.records = .clean := by
    intro s' hs'
    obtain ⟨s, ⟨hnative, content, hcontent, hrecords⟩, trace, run⟩ := hran s' hs'
    have hclean : replayJournal s.records = .clean := by
      rw [hrecords]
      exact hclosed content hcontent
    have hview := ((rollbackHost_of_clean hclean).sound run).1
    refine ⟨(congrArg World.backend hview).trans (congrArg NativeState.occupancy hnative), ?_⟩
    exact (congrArg (fun s => replayJournal s.records) hview).trans hclean
  refine ⟨(hback _ (mem_found_self t file)).1, fun content hcontent => ?_⟩
  exact (hback ⟨t.native, salvaged content⟩ ⟨rfl, content, hcontent, rfl⟩).2

/-- What a recovery leaves, finished or cut. -/
structure Rolls (N : NativeVolume) (b : VolumeState) (live : Option (RenamePlan × FileId))
    (file : FileId) (journal : FileJournal) (t : Life) : Prop where
  steady : Steady N b live t
  file_eq : journal.file = file
  holds : Holds live t.ledger journal

theorem rolls_rollback (h : Steady N b live l) (holds : Holds live l.ledger journal)
    (hcovers : Covers journal live) :
    Spec N.lifeEnv (Steady N b live) (osProgram Recovery.rollback journal)
      (fun r t => Rolls N b live journal.file r.2.journal t) l := by
  rcases holds.accounted with ⟨plan, rfl⟩ | hmarked
  · have hunderwent := h.underwent plan _ rfl
    refine ((spec_process ⟨rfl, holds.kept⟩ holds.manages hunderwent.spec_rollback).mono_crash
      ?_).mono ?_
    · rintro t ⟨helsewhere, hran⟩
      exact h.work helsewhere (hunderwent.recover hran)
    · rintro r t ⟨⟨helsewhere, hmanages⟩, hretains, hran⟩
      have hworked := h.work helsewhere (hunderwent.recover hran)
      refine ⟨hworked, hretains.file_eq, ?_⟩
      rw [← hretains.file_eq] at hworked hmanages ⊢
      exact hworked.holds hretains.kept hmanages
  · have hnone : live = none := by
      refine Option.eq_none_iff_forall_ne_some.2 ?_
      rintro ⟨plan, file⟩ hlive
      obtain rfl := hcovers plan file hlive
      exact h.unmarked plan _ hlive hmarked
    subst hnone
    have hclosed := holds.closed hmarked
    have hstarts : ∀ s ∈ l.os.found journal.file, Spec N.hostEnv HostWorld.Replays
        (interpret carryCall Recovery.rollback) (fun _ _ => True) s := by
      rintro s ⟨-, content, hcontent, hrecords⟩
      have hclean : replayJournal s.records = .clean := by
        rw [hrecords]
        exact hclosed content hcontent
      refine ((rollbackHost_of_clean hclean).mono_crash fun t ht => ?_).mono fun _ _ _ => trivial
      unfold HostWorld.Replays
      rw [show t.records = s.records from congrArg World.records ht, hclean]
      rfl
    refine ((spec_process ⟨rfl, holds.kept⟩ holds.manages hstarts).mono_crash ?_).mono ?_
    · rintro t ⟨helsewhere, hran⟩
      obtain ⟨hoccupancy, hclosed'⟩ := closed_of_ran hclosed hran
      exact h.rest hmarked helsewhere hoccupancy hclosed'
    · rintro r t ⟨⟨helsewhere, hmanages⟩, hretains, hran⟩
      obtain ⟨hoccupancy, hclosed'⟩ := closed_of_ran hclosed hran
      refine ⟨h.rest hmarked helsewhere hoccupancy hclosed', hretains.file_eq, hretains.kept, ?_,
        .inr ?_, fun _ => ?_⟩
      · rw [hretains.file_eq]
        exact hmanages
      · rw [hretains.file_eq, helsewhere.marked]
        exact hmarked
      · rw [hretains.file_eq]
        exact hclosed'

theorem covers_of_canConfirm (h : state.canConfirmActiveRecovery = true)
    (hretaining : Retaining live g state.toSafeRuntime)
    (hactive : state.activeJournal = some journal) :
    Covers journal live ∧ state.stagedJournal = none := by
  simp only [AppState.canConfirmActiveRecovery, Bool.and_eq_true, Option.isNone_iff_eq_none,
    List.isEmpty_iff] at h
  obtain ⟨⟨⟨⟨⟨⟨-, hstaged⟩, hblocked⟩, -⟩, -⟩, -⟩, -⟩ := h
  refine ⟨fun plan file hlive => ?_, hstaged⟩
  cases hretaining.locked plan file hlive with
  | active hother hfile =>
      obtain rfl := Option.some.inj (hactive.symm.trans hother)
      exact hfile
  | staged hsome =>
      rw [hstaged] at hsome
      cases hsome
  | blocked hnonempty => exact absurd hblocked hnonempty
  | lost hnone _ =>
      rw [hactive] at hnone
      cases hnone

theorem arrives_recoverConfirmedActiveJournal (h : Steady N b live l)
    (hretaining : Retaining live l.ledger state.toSafeRuntime) :
    Spec N.lifeEnv (Onward N b live) state.recoverConfirmedActiveJournal
      (fun state t => Arrives N b live t state.toSafeRuntime) l := by
  have hstays : Arrives N b live l state.toSafeRuntime := ⟨b, live, .stays, h, hretaining⟩
  unfold AppState.recoverConfirmedActiveJournal
  split
  swap
  · exact ⟨h.onward, hstays⟩
  next hconfirm =>
  split
  · exact ⟨h.onward, hstays⟩
  next journal hactive =>
  obtain ⟨hcovers, hstaged⟩ := covers_of_canConfirm hconfirm hretaining hactive
  rw [Spec.bind_iff]
  refine ((rolls_rollback h (hretaining.active journal hactive) hcovers).mono_crash
    fun t ht => ht.onward).mono fun r t hrolls => ?_
  obtain ⟨hsteady, hfile, holds⟩ := hrolls
  have hcovers' : Covers r.2.journal live :=
    fun plan file hlive => hfile.trans (hcovers plan file hlive)
  have hretained : Arrives N b live t (state.retainActive r.2.journal).toSafeRuntime :=
    arrives_retainActive hsteady holds hcovers' hstaged
  have hcleanup : Spec N.lifeEnv (Onward N b live)
      (state.afterRecovery <$> interpret osFile (cleanupFileJournal r.2.journal))
      (fun state t => Arrives N b live t state.toSafeRuntime) t := by
    rw [Spec.map_iff]
    refine ((spec_osFile (cleaned_cleanupFileJournal hsteady holds hcovers')).mono_crash ?_).mono ?_
    · rintro ⟨native, u⟩ ⟨honward, rfl⟩
      exact honward
    · rintro cleanup ⟨native, u⟩ ⟨hcleaned, rfl⟩
      exact hcleaned.arrives hsteady holds hcovers' rfl hstaged
  split
  · exact hcleanup
  · exact hcleanup
  · exact ⟨hsteady.onward, hretained⟩
  · exact ⟨hsteady.onward, hretained⟩

end Recovery

/-! ### Discarding a candidate -/

section Discarding

theorem Retaining.lock (h : Retaining live g runtime) :
    Retaining live g { runtime with recoveryLocked := true } where
  locked plan file hlive := by
    cases h.locked plan file hlive with
    | active hactive hfile => exact .active hactive hfile
    | staged hstaged => exact .staged hstaged
    | blocked hblocked => exact .blocked hblocked
    | lost hactive _ => exact .lost hactive rfl
  active := h.active
  staged := h.staged

theorem records_of_isCompleteIntentCandidate (h : journal.isCompleteIntentCandidate = true) :
    journal.poisoned = false ∧ ∃ plan steps, journal.records = [.intent plan steps] := by
  simp only [isCompleteIntentCandidate, Bool.and_eq_true, Bool.not_eq_true',
    isIntentOnly_iff] at h
  exact ⟨h.1.1.1.1.2, h.1.1.2⟩

/-- Behind the intent that the user discards nothing has moved. -/
theorem HoldsCandidate.discard (hstages : HoldsCandidate live g journal)
    (h : Steady N b live ⟨native, g⟩)
    (hdiscardable : Discardable journal g.disk) :
    ∃ live', Advances b live b live' ∧ Steady N b live' ⟨native, g.mark journal.file⟩ := by
  obtain ⟨hcomplete, leaf, hphase, hvacant⟩ := hdiscardable
  obtain ⟨hunpoisoned, id, steps, hrecords⟩ := records_of_isCompleteIntentCandidate hcomplete
  rw [hstages.phase] at hphase
  obtain rfl := FileJournalPhase.candidate.inj hphase
  have hback : ∀ plan, live = some (plan, journal.file) → native.occupancy = b :=
    fun plan hlive => (h.underwent plan _ hlive).of_intent
      (Kept.salvages_of_records hstages.kept hunpoisoned hrecords)
  obtain ⟨live', hadvances, hsteady, -⟩ := h.discard hstages.accounted hvacant hback
  exact ⟨live', hadvances, hsteady⟩

/-- The candidate is marked and dropped, or it is not. -/
theorem discards_discardStaged (h : Steady N b live ⟨native, g⟩)
    (hretaining : Retaining live g state.toSafeRuntime) (prepared : PreparedDiscard) :
    Spec ledgerEnv (fun u => Onward N b live ⟨native, u⟩) (state.discardStaged prepared).run
      (fun r u => ExceptPost
        (fun _ => AtRest u.disk ∧ ∃ live', Advances b live b live' ∧ Steady N b live' ⟨native, u⟩)
        (fun state => Arrives N b live ⟨native, u⟩ state.toSafeRuntime) r) g := by
  have hstays : Arrives N b live ⟨native, g⟩ state.toSafeRuntime :=
    ⟨b, live, .stays, h, hretaining⟩
  unfold AppState.discardStaged
  split
  · exact ⟨h.onward, hstays⟩
  next staged hstaged =>
  have hstages := hretaining.staged staged hstaged
  split
  swap
  · exact ⟨h.onward, hstays⟩
  rw [Spec.except_lift_bind_iff]
  have hcrash : ∀ u, MayMark staged.file (Discardable staged g.disk) g u →
      Onward N b live ⟨native, u⟩ := by
    rintro u (rfl | ⟨hdiscardable, rfl⟩)
    · exact h.onward
    · obtain ⟨live', hadvances, hsteady⟩ := hstages.discard h hdiscardable
      exact ⟨b, live', hadvances, hsteady⟩
  refine (spec_markUnactivatedIntentDelete.mono_crash hcrash).with_crash.mono fun r u hr => ?_
  obtain ⟨honward, hok, herror⟩ := hr
  cases r with
  | error error =>
      obtain rfl := herror error rfl
      exact ⟨honward, b, live, .stays, h, hretaining.lock⟩
  | ok _ =>
      obtain ⟨hdiscardable, rfl⟩ := hok rfl
      exact ⟨honward, hstages.rest, hstages.discard h hdiscardable⟩

theorem retains_rediscover (h : Steady N b live ⟨native, g⟩) (hrest : AtRest g.disk) :
    Spec ledgerEnv (fun u => Steady N b live ⟨native, u⟩) state.rediscover
      (fun state u => Steady N b live ⟨native, u⟩ ∧ Retaining live u state.toSafeRuntime) g := by
  unfold AppState.rediscover
  rw [Spec.bind_iff]
  refine ((discovers_discoverJournals h.distinct).mono_crash
    fun u hcalm => h.calm hcalm).mono fun found u hfound => ?_
  have hsteady := h.calm hfound.calm
  exact ⟨hsteady, hsteady, (h.finds hrest hfound).retaining rfl rfl rfl⟩

end Discarding

end DarkReNamer
