import DarkReNamer.Rename.Atomicity
import DarkReNamer.Rename.Planner.Complete
import DarkReNamer.Rename.Schedule.Complete

/-!
# An undisturbed session completes

An admissible request is planned, and when its cycles have room for their temporary names the plan
is executed to the end: every row arrives at its destination and the journal is committed. The one
refusal that is left is a manifest that does not fit the journal. The ports may answer in any way
that is not a fault, and nobody cancels.
-/

namespace DarkReNamer

open Std Interaction Occupancy Schedule

namespace Volume

variable (V : Volume)

/-- What the ports answer when nothing disturbs them: the run may begin and is not cancelled, paths
are compared by `textual`, and the sources of the request are spelled as they are stored. -/
def Undisturbed (textual : LegacyText → PathKey) (request : PlanRequest) (o : VolumeState) :
    (call : Call) → Answer call → Prop
  | .control .cancellationRequested, cancelled => cancelled = false
  | .control .beginTransaction, begun => begun = true
  | .backend (.pathKey path), key => key = textual path
  | .backend (.resolveSource path), .ok resolved =>
      path ∈ request.entries.map RenameIntent.source →
        resolved.path = path ∧ (o (V.key path) ≠ none → resolved.entryKey ≠ none)
  | _, _ => True

/-- The volume without faults, undisturbed. -/
def undisturbedEnv (textual : LegacyText → PathKey) (request : PlanRequest) :
    Environment (World VolumeState) Call Answer :=
  fun s call answer t =>
    V.faultlessEnv s call answer t ∧ V.Undisturbed textual request s.backend call answer

variable {V} {textual : LegacyText → PathKey} {request : PlanRequest} {s : World VolumeState}

/-- The ports of the volume are undisturbed. -/
theorem ports_undisturbed (nonce : BitVec 128) (request : PlanRequest) (s : World VolumeState)
    (call : Call) : V.undisturbedEnv V.key request s call ((V.ports nonce).handler s call).1
      ((V.ports nonce).handler s call).2 := by
  refine ⟨V.ports_faultless nonce s call, ?_⟩
  cases call with
  | control call => cases call <;> trivial
  | journal call => trivial
  | backend call =>
      cases call with
      | resolveSource path => exact fun _ => ⟨rfl, by simp⟩
      | pathKey path => rfl
      | _ => trivial

/-- An undisturbed call that may fail and is no rename does not fail. -/
theorem not_fails_of_undisturbed {call : Call} {answer : Answer call} {t : World VolumeState}
    (step : V.undisturbedEnv textual request s call answer t)
    (hcall : ∀ op, call ≠ .backend (.renameNoReplace op)) : ¬ Fails call answer := by
  intro hfails
  obtain ⟨op, hop, -⟩ := step.1.2 hfails
  exact hcall op hop

theorem polls_undisturbed : Polls (V.undisturbedEnv textual request) s False := by
  intro cancelled t step
  refine ⟨step.1.1, fun hcancelled => ?_⟩
  have hfalse : cancelled = false := step.2
  rw [hfalse] at hcancelled
  cases hcancelled

theorem admits_undisturbed : V.Admits (V.undisturbedEnv textual request) s :=
  fun _ _ _ step => step.1.1

/-- The planner is served. -/
theorem serves_undisturbed : Serves V textual request (V.undisturbedEnv textual request) s where
  admits := admits_undisturbed
  polls := polls_undisturbed
  environment path error t step := not_fails_of_undisturbed step (by simp) trivial
  pathKey path key t step := step.2
  plannedEntryKey parent leaf error t step := not_fails_of_undisturbed step (by simp) trivial
  observe path error t step := not_fails_of_undisturbed step (by simp) trivial
  resolving path error t step := not_fails_of_undisturbed step (by simp) trivial
  stored intent hintent resolved t step := step.2 (List.mem_map_of_mem hintent)

/-- The builder of schedules is answered. -/
theorem probes_undisturbed :
    Probes V s.backend (V.undisturbedEnv textual request) s fun _ => False where
  polls := polls_undisturbed
  nonce a t step := by
    refine ⟨admits_undisturbed.read step (by simp), ?_⟩
    rintro error rfl
    exact not_fails_of_undisturbed step (by simp) trivial
  key parent leaf a t step := by
    refine ⟨admits_undisturbed.read step (by simp), ?_⟩
    cases a with
    | error error => exact not_fails_of_undisturbed step (by simp) trivial
    | ok key => exact step.1.1.1.1
  observe path a t step := by
    refine ⟨admits_undisturbed.read step (by simp), ?_⟩
    cases a with
    | error error => exact not_fails_of_undisturbed step (by simp) trivial
    | ok snapshot => exact step.1.1.1.1

end Volume

namespace IndexedEntryExecutions

/-- Rows with distinct identifiers are indexed. -/
theorem exists_fromRows {rows : List PlanRow} {indexed : IndexedEntryExecutions}
    (hnew : ∀ row ∈ rows, indexed.byId.contains row.id = false)
    (hnodup : (rows.map PlanRow.id).Nodup) : ∃ indexed', fromRows rows indexed = .ok indexed' := by
  induction rows generalizing indexed with
  | nil => exact ⟨_, rfl⟩
  | cons row rows ih =>
      rw [List.map_cons, List.nodup_cons] at hnodup
      rw [fromRows, hnew row List.mem_cons_self]
      refine ih (fun other hother => ?_) hnodup.2
      have hne : row.id ≠ other.id := fun heq => hnodup.1 (heq ▸ List.mem_map_of_mem hother)
      rw [ExtTreeMap.contains_insert, hnew other (List.mem_cons_of_mem _ hother), Bool.or_false]
      simpa using hne

theorem exists_fromPlan {entries : List PlanRow} (h : (entries.map PlanRow.id).Nodup) :
    ∃ indexed, fromPlan entries = .ok indexed :=
  exists_fromRows (by simp) h

theorem validateSchedule_eq_ok {indexed : IndexedEntryExecutions} {schedule : List ScheduleStep}
    (h : ∀ step ∈ schedule, indexed.byId.contains step.entry = true) :
    indexed.validateSchedule schedule = .ok () := by
  induction schedule with
  | nil => rfl
  | cons step schedule ih =>
      rw [validateSchedule, if_pos (h step List.mem_cons_self)]
      exact ih fun other hother => h other (List.mem_cons_of_mem _ hother)

end IndexedEntryExecutions

namespace Executor

open IndexedEntryExecutions

variable {V : Volume} {textual : LegacyText → PathKey} {request : PlanRequest} {plan : RenamePlan}
  {env : Environment (World VolumeState) Call Answer} {s : World VolumeState}
  {E : ExecuteError → Prop}

section Freeze

theorem checks_checkCancelled (h : Polls env s False) :
    Checks env checkCancelled s (fun _ => True) E := by
  refine Checks.bind (Checks.lift (Reads.ask h)) fun cancelled hcancelled => ?_
  cases cancelled with
  | true => exact (hcancelled rfl).elim
  | false => exact Checks.pure trivial

theorem checks_buildManifest (h : Polls env s False) (schedule : List ScheduleStep) :
    Checks env (buildManifest schedule) s (fun manifest => manifest = schedule.map journalStep)
      E := by
  induction schedule with
  | nil => exact Checks.pure rfl
  | cons step schedule ih =>
      refine Checks.bind (checks_checkCancelled h) fun _ _ => ?_
      refine Checks.bind ih ?_
      rintro _ rfl
      exact Checks.pure rfl

variable {intent : RenameIntent}

/-- The source of a row of the request is as it was planned. -/
theorem checks_freezeSource_rowOf (h : Serves V textual request env s)
    (hrequest : Admissible V textual s.backend request) (hintent : intent ∈ request.changed) :
    Checks env (freezeSource (Planner.rowOf V s.backend intent)) s (fun _ => True) E := by
  obtain ⟨identity, hobserved, -⟩ := Planner.observed_source hrequest hintent
  have hmem := PlanRequest.mem_of_changed hintent
  refine Checks.bind (checks_checkCancelled h.polls) fun _ _ => ?_
  refine Checks.bind (Checks.lift (h.admits.reads_resolveSource _).answered) fun answer hanswer =>
    ?_
  obtain ⟨hresolves, t, step⟩ := hanswer
  cases answer with
  | error error => exact (h.resolving _ _ _ step).elim
  | ok current =>
      obtain ⟨hpath, hkeyed⟩ := h.stored intent hmem current t step
      have hcurrent : V.Resolves s.backend intent.source current := hresolves current rfl
      obtain ⟨hsnapshot, hkey⟩ := hcurrent.exact_path hpath
      have hoccupied : s.backend (V.key intent.source) ≠ none := by
        intro hnone
        simp [Volume.observed, hnone] at hobserved
      obtain ⟨key, hsome⟩ := Option.ne_none_iff_exists'.1 (hkeyed hoccupied)
      have hentryKey : current.entryKey = some (V.key intent.source) := by
        rw [hsome, hkey key hsome]
      have hkind : current.snapshot.entry.map ObservedEntry.kind =
          some (Planner.rowOf V s.backend intent).kind := by
        rw [hsnapshot, Volume.snapshot, hobserved, Planner.rowOf, hrequest.files intent hintent]
        rfl
      refine Checks.bind (checks_checkCancelled h.polls) fun _ _ => ?_
      have hparent : current.snapshot.parent =
          (Planner.rowOf V s.backend intent).sourceSnapshot.parent := by
        rw [hsnapshot]
        rfl
      have hsame : ¬ (current.snapshot.entry ≠
            (Planner.rowOf V s.backend intent).sourceSnapshot.entry ∨
          current.path ≠ (Planner.rowOf V s.backend intent).source ∨
          current.entryKey ≠ some (Planner.rowOf V s.backend intent).sourceEntryKey) := by
        simp only [not_or, not_not]
        exact ⟨congrArg PathSnapshot.entry hsnapshot, hpath, hentryKey⟩
      rw [if_neg (not_not.2 hparent), if_neg hsame, if_neg (not_not.2 hkind)]
      exact Checks.pure trivial

/-- The destination of a row is as it was planned. -/
theorem checks_freezeDestination_rowOf (h : Serves V textual request env s)
    (intent : RenameIntent) :
    Checks env (freezeDestination (Planner.rowOf V s.backend intent)) s (fun _ => True) E := by
  refine Checks.bind (Checks.lift (h.admits.reads_observe _).answered) fun answer hanswer => ?_
  obtain ⟨hsnapshot, t, step⟩ := hanswer
  cases answer with
  | error error => exact (h.observe _ _ _ step).elim
  | ok current =>
      have hcurrent : current = (Planner.rowOf V s.backend intent).destinationSnapshot :=
        hsnapshot current rfl
      refine Checks.bind (checks_checkCancelled h.polls) fun _ _ => ?_
      rw [hcurrent, if_neg (not_not.2 rfl), if_neg (not_not.2 rfl)]
      exact Checks.pure trivial

theorem checks_freezeRows_rowOf (h : Serves V textual request env s)
    (hrequest : Admissible V textual s.backend request) {intents : List RenameIntent}
    (hintents : ∀ intent ∈ intents, intent ∈ request.changed) :
    Checks env (freezeRows (intents.map (Planner.rowOf V s.backend))) s (fun _ => True) E := by
  induction intents with
  | nil => exact Checks.pure trivial
  | cons intent intents ih =>
      have hintent := hintents intent List.mem_cons_self
      refine Checks.bind (checks_freezeSource_rowOf h hrequest hintent) fun _ _ => ?_
      refine Checks.bind (checks_freezeDestination_rowOf h intent) fun _ _ => ?_
      exact ih fun other hother => hintents other (List.mem_cons_of_mem _ hother)

/-- The temporary path of a row is still free. -/
theorem checks_freezeTemporary_free (h : Serves V textual request env s)
    {indexed : IndexedEntryExecutions} {step : ScheduleStep} {row : plan.Row}
    {temporary : LegacyText} (hrow : indexed.planRow plan.entries step.entry = some (plan.row row))
    (htemporary : IsTemporary V plan s.backend row temporary)
    (hdestination : step.destination = temporary) :
    Checks env (freezeTemporary plan.entries indexed step) s (fun _ => True) E := by
  refine Checks.bind (checks_checkCancelled h.polls) fun _ _ => ?_
  refine Checks.bind (Checks.lift (h.admits.reads_observe _).answered) fun answer hanswer => ?_
  obtain ⟨hsnapshot, t, hstep⟩ := hanswer
  cases answer with
  | error error => exact (h.observe _ _ _ hstep).elim
  | ok current =>
      obtain rfl := hsnapshot current rfl
      refine Checks.bind (checks_checkCancelled h.polls) fun _ _ => ?_
      have hsame : (V.snapshot s.backend temporary).parent =
          (plan.row row).sourceSnapshot.parent := htemporary.parent
      have hfree : (V.snapshot s.backend temporary).entry = none := by
        have hkey : V.key temporary = temporaryKey V plan row temporary := by
          rw [Volume.key, htemporary.parent]
          rfl
        rw [Volume.snapshot, hkey, Volume.observed, htemporary.free, Option.map_none]
      rw [hrow, hdestination]
      dsimp only
      rw [if_neg (not_not.2 hsame), hfree]
      exact Checks.pure trivial

theorem checks_freezeTemporaries_free (h : Serves V textual request env s)
    {indexed : IndexedEntryExecutions} {schedule : List ScheduleStep}
    (hfree : ∀ step ∈ schedule, step.temporaryPhase = .intoTemporary →
      ∃ (row : plan.Row) (temporary : LegacyText),
        indexed.planRow plan.entries step.entry = some (plan.row row) ∧
          IsTemporary V plan s.backend row temporary ∧ step.destination = temporary) :
    Checks env (freezeTemporaries plan.entries indexed schedule) s (fun _ => True) E := by
  induction schedule with
  | nil => exact Checks.pure trivial
  | cons step schedule ih =>
      have hrest := ih fun other hother => hfree other (List.mem_cons_of_mem _ hother)
      rw [freezeTemporaries]
      split
      · next hphase =>
          obtain ⟨row, temporary, hrow, htemporary, hdestination⟩ :=
            hfree step List.mem_cons_self hphase
          refine Checks.bind (checks_freezeTemporary_free h hrow htemporary hdestination)
            fun _ _ => hrest
      · exact hrest

theorem authorizeSteps_eq_ok {schedule : List ScheduleStep}
    (h : ∀ step ∈ schedule, (forwardOperation step).authorizationError = none) :
    authorizeSteps schedule = .ok () := by
  induction schedule with
  | nil => rfl
  | cons step schedule ih =>
      rw [authorizeSteps, h step List.mem_cons_self]
      exact ih fun other hother => h other (List.mem_cons_of_mem _ hother)

end Freeze

section Prepare

/-- The manifest of some schedule of the plan does not fit the journal. -/
def ExceedsJournal (V : Volume) (plan : RenamePlan) (o : VolumeState) (error : ExecuteError) :
    Prop :=
  ∃ schedule capacity, Scheduled V plan o (atDestination plan) schedule ∧
    journalRequirements (schedule.map journalStep) = .error capacity ∧
      error = ⟨none, .journalCapacity capacity⟩

/-- The row of an identifier is found. -/
theorem planRow_fromPlan {indexed : IndexedEntryExecutions}
    (hindexed : fromPlan plan.entries = .ok indexed) (row : plan.Row) :
    indexed.planRow plan.entries (plan.row row).id = some (plan.row row) := by
  rw [planRow, (reports_fromPlan hindexed).byId row, Option.bind_some]
  exact List.getElem?_eq_getElem row.2

/-- Every step is one of a row, and a temporary path of the row is free. -/
theorem exists_row_of_follows {o : VolumeState} {standing : plan.Row → Standing}
    {schedule : List ScheduleStep} {rs : List (plan.Row × Standing)}
    (h : Follows V plan o standing schedule rs) {step : ScheduleStep} (hstep : step ∈ schedule) :
    ∃ row : plan.Row, step.entry = (plan.row row).id ∧
      (step.temporaryPhase = .intoTemporary →
        ∃ temporary, IsTemporary V plan o row temporary ∧ step.destination = temporary) := by
  obtain ⟨i, hi⟩ := List.mem_iff_getElem?.1 hstep
  obtain ⟨row, next, -, hmoves⟩ := h.getElem? hi
  refine ⟨row, ?_⟩
  cases hmoves with
  | straight _ hstanding => exact ⟨rfl, by rintro ⟨⟩⟩
  | intoTemporary _ temporary hstanding htemporary => exact ⟨rfl, fun _ => ⟨_, htemporary, rfl⟩⟩
  | fromTemporary _ temporary hstanding htemporary => exact ⟨rfl, by rintro ⟨⟩⟩

/-- The endpoints of the plan are still as they were planned, and the steps may be made. -/
theorem checks_freeze_complete (h : Serves V textual request env s)
    (hrequest : Admissible V textual s.backend request)
    (hplanned : Planned V s.backend request plan)
    (hentries : plan.entries = request.changed.map (Planner.rowOf V s.backend))
    (hfits : Schedulable plan s.backend) {indexed : IndexedEntryExecutions}
    (hindexed : fromPlan plan.entries = .ok indexed) {schedule : List ScheduleStep}
    (hschedule : Scheduled V plan s.backend (atDestination plan) schedule) :
    Checks env (freeze plan.entries schedule indexed) s (fun _ => True) E := by
  obtain ⟨rs, hfollows, -, -⟩ := hschedule
  have hrows : Checks env (freezeRows plan.entries) s (fun _ => True) E := by
    rw [hentries]
    exact checks_freezeRows_rowOf h hrequest fun _ => id
  refine Checks.bind hrows fun _ _ => ?_
  refine Checks.bind (checks_freezeTemporaries_free h fun step hstep hphase => ?_) fun _ _ => ?_
  · obtain ⟨row, hrow, htemporary⟩ := exists_row_of_follows hfollows hstep
    obtain ⟨temporary, htemporary, hdestination⟩ := htemporary hphase
    exact ⟨row, temporary, hrow ▸ planRow_fromPlan hindexed row, htemporary, hdestination⟩
  · rw [authorizeSteps_eq_ok]
    · exact Checks.pure trivial
    · intro step hstep
      obtain ⟨move, -, hmoves⟩ :=
        exists_mem_of_forall₂ (stepMoves_of_follows hfits hfollows).flip step hstep
      exact hplanned.authorizationError_eq_none hmoves

/-- Preparation refuses nothing but a manifest that does not fit the journal. -/
theorem checks_prepare_complete (h : Serves V textual request env s)
    (hprobes : Probes V s.backend env s fun _ => False)
    (hrequest : Admissible V textual s.backend request)
    (hplanned : Planned V s.backend request plan)
    (hentries : plan.entries = request.changed.map (Planner.rowOf V s.backend))
    (hfits : Schedulable plan s.backend) (hroom : HasRoom V plan s.backend) :
    Checks env (prepare plan) s (fun _ => True) (ExceedsJournal V plan s.backend) := by
  obtain ⟨entries, hindexed⟩ := exists_fromPlan hplanned.ids_nodup
  refine Checks.bind (checks_checkCancelled h.polls) fun _ _ => ?_
  rw [hindexed]
  refine Checks.bind (Checks.pure (a := entries) (Eq.refl entries)) ?_
  rintro _ rfl
  refine Checks.bind ((checks_buildSchedule_complete hprobes hfits hroom).mapError
    scheduleError fun _ => False.elim) fun schedule hschedule => ?_
  have hvalid : entries.validateSchedule schedule = .ok () := by
    obtain ⟨rs, hfollows, -, -⟩ := hschedule
    refine validateSchedule_eq_ok fun step hstep => ?_
    obtain ⟨row, hrow, -⟩ := exists_row_of_follows hfollows hstep
    rw [hrow, ExtTreeMap.contains_eq_isSome_getElem?, (reports_fromPlan hindexed).byId row]
    rfl
  rw [hvalid]
  refine Checks.bind (Checks.pure trivial) fun _ (_ : True) => ?_
  refine Checks.bind (checks_buildManifest h.polls schedule) ?_
  rintro _ rfl
  have hcapacity : Checks env (ExceptT.mk (pure ((journalRequirements
      (schedule.map journalStep)).mapError fun error => ⟨none, .journalCapacity error⟩))) s
      (fun _ => True) (ExceedsJournal V plan s.backend) := by
    refine Checks.ofExcept ?_
    cases hcapacity : journalRequirements (schedule.map journalStep) with
    | error capacity => exact ⟨schedule, capacity, hschedule, hcapacity, rfl⟩
    | ok required => trivial
  refine Checks.bind hcapacity fun _ _ => ?_
  refine Checks.bind (checks_freeze_complete h hrequest hplanned hentries hfits hindexed hschedule)
    fun _ _ => ?_
  exact Checks.bind (checks_checkCancelled h.polls) fun _ _ => Checks.pure trivial

end Prepare

section Transact

variable {α : Type} {post : α → World VolumeState → Prop}

/-- An undisturbed append succeeds. -/
theorem spec_append_undisturbed {record : JournalRecord}
    {f : Except JournalError Unit → Engine α}
    (h : ∀ records, Spec (V.undisturbedEnv textual request) (fun _ => True) (f (.ok ())) post
      ⟨s.backend, records⟩) :
    Spec (V.undisturbedEnv textual request) (fun _ => True) (append record >>= f) post s := by
  refine ⟨trivial, ?_⟩
  rintro answer ⟨b, records⟩ step
  cases answer with
  | error error => exact (Volume.not_fails_of_undisturbed step (by simp) trivial).elim
  | ok value =>
      obtain rfl : b = s.backend := step.1.1.2
      exact h records

/-- An undisturbed rename that is possible succeeds. -/
theorem spec_rename_undisturbed {op : RenameOperation} {f : Except BackendError Unit → Engine α}
    (henabled : (V.operationMove op).Enabled s.backend)
    (h : Spec (V.undisturbedEnv textual request) (fun _ => True) (f (.ok ())) post
      ⟨(V.operationMove op).apply s.backend, s.records⟩) :
    Spec (V.undisturbedEnv textual request) (fun _ => True) (renameNoReplace op >>= f) post s := by
  refine ⟨trivial, ?_⟩
  rintro answer ⟨b, records⟩ step
  cases answer with
  | error error =>
      obtain ⟨op', hop, hrefused⟩ := step.1.2 trivial
      obtain rfl : op = op' := by simpa using hop
      exact (hrefused henabled).elim
  | ok value =>
      obtain ⟨⟨-, rfl⟩, rfl⟩ := step.1.1
      exact h

/-- Nobody cancels. -/
theorem spec_cancelled_undisturbed {f : Bool → Engine α}
    (h : Spec (V.undisturbedEnv textual request) (fun _ => True) (f false) post s) :
    Spec (V.undisturbedEnv textual request) (fun _ => True) (cancellationRequested >>= f) post
      s := by
  refine ⟨trivial, fun cancelled t step => ?_⟩
  obtain rfl : s = t := step.1.1.symm
  obtain rfl : cancelled = false := step.2
  exact h

theorem spec_progress_undisturbed {phase : ExecutionPhase} {completed total : ℕ}
    {f : Unit → Engine α}
    (h : Spec (V.undisturbedEnv textual request) (fun _ => True) (f ()) post s) :
    Spec (V.undisturbedEnv textual request) (fun _ => True)
      (progress phase completed total >>= f) post s := by
  refine ⟨trivial, fun answer t step => ?_⟩
  obtain rfl : s = t := step.1.1.symm
  exact h

/-- The steps that are left are all made, and the journal is committed. -/
theorem spec_forwardLoop_completes {id : PlanId} {total : ℕ} {todo : List ScheduleStep} {i : ℕ}
    {done : List (ℕ × ScheduleStep)} {entries : IndexedEntryExecutions}
    (hmoves : Executable s.backend (todo.map fun step => V.operationMove (forwardOperation step))) :
    Spec (V.undisturbedEnv textual request) (fun _ => True)
      (forwardLoop id total todo i done entries)
      (fun report _ => report.outcome = .completed) s := by
  induction todo generalizing i done entries s with
  | nil =>
      refine spec_progress_undisturbed ?_
      refine spec_cancelled_undisturbed ?_
      refine spec_append_undisturbed fun records => ?_
      exact spec_progress_undisturbed ⟨trivial, rfl⟩
  | cons step todo ih =>
      obtain ⟨henabled, hrest⟩ := hmoves
      refine spec_cancelled_undisturbed ?_
      refine spec_append_undisturbed fun records => ?_
      refine spec_rename_undisturbed henabled ?_
      refine spec_append_undisturbed fun records' => ?_
      exact spec_progress_undisturbed (ih hrest)

/-- The transaction completes. -/
theorem spec_transact_completes {id : PlanId} {schedule : List ScheduleStep}
    {manifest : List JournalStep} {entries : IndexedEntryExecutions}
    (hmoves : Executable s.backend
      (schedule.map fun step => V.operationMove (forwardOperation step))) :
    Spec (V.undisturbedEnv textual request) (fun _ => True)
      (transact id schedule manifest entries).run
      (fun result _ => ∃ report, result = .ok report ∧ report.outcome = .completed) s := by
  refine Spec.except_ask_bind trivial fun answer t step => ?_
  obtain rfl : s = t := step.1.1.symm
  split
  · exact ⟨trivial, _, rfl, rfl⟩
  refine Spec.except_ask_bind trivial fun begun t step => ?_
  obtain rfl : s = t := step.1.1.symm
  obtain rfl : begun = true := step.2
  refine Spec.except_ask_bind trivial ?_
  rintro answer ⟨b, records⟩ step
  cases answer with
  | error error => exact (Volume.not_fails_of_undisturbed step (by simp) trivial).elim
  | ok value =>
      obtain rfl : b = s.backend := step.1.1.2
      refine (Spec.except_lift_iff _ _ _).2 ?_
      refine (spec_forwardLoop_completes (s := ⟨s.backend, records⟩) hmoves).mono ?_
      exact fun report t houtcome => ⟨report, rfl, houtcome⟩

end Transact

section Session

/-- An execution came to its end, or the manifest does not fit the journal and nothing happened. -/
def Completes (V : Volume) (plan : RenamePlan) (s t : World VolumeState) :
    Except ExecuteError ExecutionReport → Prop
  | .ok report => report.outcome = .completed ∧ Truthful plan s t report
  | .error error => t = s ∧ ExceedsJournal V plan s.backend error

/-- An admissible plan with room for its cycles is executed to the end. -/
theorem spec_execute_completes (hrequest : Admissible V textual s.backend request)
    (hplanned : Planned V s.backend request plan)
    (hentries : plan.entries = request.changed.map (Planner.rowOf V s.backend))
    (hroom : HasRoom V plan s.backend) (hempty : s.records = []) :
    Spec (V.undisturbedEnv textual request) (fun _ => True) (executeWithControl ⟨plan⟩).run
      (fun result t => Completes V plan s t result) s := by
  have htruthful : Spec (V.undisturbedEnv textual request) _ _ _ s :=
    (spec_execute hplanned.checked hempty).mono_env fun _ _ _ _ step => step.1.1
  have hprepare := (checks_prepare_complete Volume.serves_undisturbed Volume.probes_undisturbed
    hrequest hplanned hentries hplanned.schedulable hroom).and
      ((checks_prepare hplanned.checked s).mono_env fun _ _ _ _ step => step.1.1)
  have houtcome : Spec (V.undisturbedEnv textual request) (fun _ => True)
      (executeWithControl ⟨plan⟩).run
      (fun result _ => (∃ report, result = .ok report ∧ report.outcome = .completed) ∨
        ∃ error, result = .error error ∧ ExceedsJournal V plan s.backend error) s := by
    unfold executeWithControl
    rw [Spec.except_bind_iff]
    refine (hprepare.mono_crash fun _ _ => trivial).mono ?_
    rintro result t ⟨rfl, hresult⟩
    cases result with
    | error error => exact ⟨trivial, .inr ⟨error, rfl, hresult.1⟩⟩
    | ok prepared =>
        obtain ⟨schedule, manifest, entries⟩ := prepared
        obtain ⟨rs, hexecutes⟩ := hresult.2.exists_executes hplanned.checked
        have hmoves := hexecutes.executable
        rw [List.map_map] at hmoves
        exact (spec_transact_completes hmoves).mono fun _ _ => .inl
  refine ((htruthful.both houtcome).mono_crash fun _ _ => trivial).mono ?_
  rintro result t ⟨hresult, ⟨report, rfl, hcompleted⟩ | ⟨error, rfl, hexceeds⟩⟩
  · obtain ⟨schedule, rs, hexecutes, hreport⟩ := hresult
    exact ⟨hcompleted, truthful_of_reported hexecutes hreport⟩
  · exact ⟨hresult, hexceeds⟩

/-- An undisturbed session completes: an admissible request is planned, one row for each changed
intent, and once the plan is confirmed it is executed to the end, unless its manifest does not fit
the journal. -/
theorem executeWithControl_completes (V : Volume) (textual : LegacyText → PathKey)
    (request : PlanRequest) {s t₀ : World VolumeState} {trace₀ : List EngineEvent}
    {attempt : Except PlanAttemptError RenamePlan}
    (hrequest : Admissible V textual s.backend request) (hempty : s.records = [])
    (planned : Runs (V.undisturbedEnv textual request) (Planner.planCancellable request).run s
      trace₀ (some attempt) t₀) :
    t₀ = s ∧ ∃ plan, attempt = .ok plan ∧
      plan.entries = request.changed.map (Planner.rowOf V s.backend) ∧
        (HasRoom V plan s.backend → ∀ displayedId displayedRevision confirmed,
          plan.confirmPresented displayedId displayedRevision = .ok confirmed →
            ∀ trace result t, Runs (V.undisturbedEnv textual request)
              (executeWithControl confirmed).run s trace (some result) t →
                Completes V plan s t result) := by
  have hspec := (Planner.checks_planCancellable_complete Volume.serves_undisturbed hrequest).and
    (Planner.checks_planCancellable Volume.admits_undisturbed request)
  obtain ⟨-, hpost⟩ := hspec.sound planned
  obtain ⟨rfl, hattempt⟩ := hpost _ rfl
  cases attempt with
  | error error => exact hattempt.1.elim
  | ok plan =>
      obtain ⟨hentries, hplanned⟩ := hattempt
      refine ⟨rfl, plan, rfl, hentries, fun hroom displayedId displayedRevision confirmed
        hconfirmed trace result t run => ?_⟩
      obtain rfl : confirmed = ⟨plan⟩ := by
        unfold RenamePlan.confirmPresented at hconfirmed
        split_ifs at hconfirmed
        exact (Except.ok.inj hconfirmed).symm
      exact ((spec_execute_completes hrequest hplanned hentries hroom hempty).sound run).2 _ rfl

/-- A name that is longer than all that is known is unused. -/
theorem flatKey_ne {parent : EntryIdentity} {leaf leaf' : LegacyText}
    (h : leaf.units.length ≠ leaf'.units.length) : flatKey parent leaf ≠ flatKey parent leaf' := by
  intro heq
  refine h ?_
  have hunits := congrArg (fun key => key.units.length) heq
  simpa [flatKey, unaryUnits] using hunits

theorem admissible_swap : Admissible (flatVolume sampleParent) (flatVolume sampleParent).key
    swapState Planner.swapRequest where
  shallow := by decide
  absolute := by decide
  parents := by decide
  names := by decide
  files := by decide
  ids := by decide
  separate _ _ := id
  ancestors := by decide
  sources := by decide
  present := by decide
  destinations := by decide
  boundary := by decide
  occupied := by decide

/-- The swap has room for its temporary name. -/
theorem hasRoom_swap {plan : RenamePlan} (hentries : plan.entries = Planner.swapRequest.changed.map
      (Planner.rowOf (flatVolume sampleParent) swapState)) :
    HasRoom (flatVolume sampleParent) plan swapState := by
  have hnodup : (plan.entries.map PlanRow.id).Nodup := by
    rw [hentries]
    decide
  obtain ⟨indexed, hindexed⟩ := exists_fromPlan hnodup
  have hlong : ∀ nonce pivot ordinal, ∀ leaf : LegacyText, leaf.units.length = 1 →
      flatKey sampleParent (temporaryLeaf plan.id nonce pivot ordinal) ≠
        flatKey sampleParent leaf := fun nonce pivot ordinal leaf hleaf =>
    flatKey_ne (by rw [length_temporaryLeaf, hleaf]; decide)
  have hrows : ∀ row ∈ plan.entries, row.sourceSnapshot.parent = sampleParent ∧
      (∃ leaf : LegacyText, leaf.units.length = 1 ∧
        row.sourceEntryKey = flatKey sampleParent leaf) ∧
      ∃ leaf : LegacyText, leaf.units.length = 1 ∧
        row.destinationEntryKey = flatKey sampleParent leaf := by
    intro row hrow
    rw [hentries] at hrow
    obtain ⟨intent, hintent, rfl⟩ := List.mem_map.1 hrow
    refine ⟨rfl, ⟨pathLeaf intent.source, ?_, rfl⟩, pathLeaf intent.destination, ?_, rfl⟩
    · revert intent
      decide
    · revert intent
      decide
  refine hasRoom_of_unused (reports_fromPlan hindexed).ids_injective
    (fun parent nonce nonce' pivot pivot' ordinal ordinal' hkey => ?_)
    (fun row hrow nonce ordinal => ?_) fun row hrow nonce ordinal => (hrows row hrow).1.symm
  · obtain ⟨-, hrest⟩ := unaryUnits_inj (congrArg PathKey.units hkey)
    exact LegacyText.ext (unaryUnits_inj hrest).2
  · have hcandidate : candidateKey (flatVolume sampleParent) plan row nonce ordinal =
        flatKey sampleParent (temporaryLeaf plan.id nonce row.id ordinal) := by
      rw [candidateKey, (hrows row hrow).1]
      rfl
    rw [hcandidate]
    refine ⟨?_, fun other hother => ?_⟩
    · rw [swapState, if_neg (hlong _ _ _ _ rfl), if_neg (hlong _ _ _ _ rfl)]
    · obtain ⟨-, ⟨source, hsource, hsourceKey⟩, destination, hdestination, hdestinationKey⟩ :=
        hrows other hother
      rw [hsourceKey, hdestinationKey]
      exact ⟨hlong _ _ _ _ hsource, hlong _ _ _ _ hdestination⟩

/-- The swap is planned, confirmed and completed. -/
theorem executeWithControl_completes_swap : ∃ (plan : RenamePlan) (report : ExecutionReport)
    (t : World VolumeState), plan.entries.length = 2 ∧ report.outcome = .completed ∧
      t.backend = plan.simultaneous swapState := by
  let V := flatVolume sampleParent
  let handler := (V.ports 5).handler
  have hallowed := V.ports_undisturbed 5 Planner.swapRequest
  have hplan : (((Planner.planCancellable Planner.swapRequest).run.run handler
      ⟨swapState, []⟩).1.toOption.map fun plan => (plan.entries.length,
        ((executeWithControl ⟨plan⟩).run.run handler ⟨swapState, []⟩).1.toOption.map
          fun report => report.entries.length)) = some (2, some 2) := by decide +kernel
  obtain ⟨plan, trace₀, hexecuted, planned⟩ := Runs.of_toOption hallowed hplan
  obtain ⟨htwo, hreported⟩ := Prod.mk.inj hexecuted
  obtain ⟨report, trace, -, run⟩ := Runs.of_toOption hallowed hreported
  obtain ⟨-, plan', hplan', hentries, hcompletes⟩ := executeWithControl_completes V V.key
    Planner.swapRequest admissible_swap rfl planned
  obtain rfl : plan = plan' := Except.ok.inj hplan'
  have hconfirmed : plan.confirmPresented plan.id plan.revision = .ok ⟨plan⟩ := by
    simp [RenamePlan.confirmPresented]
  obtain ⟨hcompleted, htruthful⟩ :=
    hcompletes (hasRoom_swap hentries) _ _ _ hconfirmed _ _ _ run
  rw [Truthful, hcompleted] at htruthful
  exact ⟨plan, report, _, htwo, hcompleted, htruthful.2.2.1⟩

end Session

end Executor

end DarkReNamer
