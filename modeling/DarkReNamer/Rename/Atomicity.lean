import DarkReNamer.Rename.Executor.Report
import DarkReNamer.Rename.Recovery.Occupancy
import DarkReNamer.Rename.Session

/-!
# A transaction is atomic

A session leaves a volume as it was, or as the plan asks for, or in a state from which
recovery takes every move back. The manifest of a schedule that can be executed is well
laid out, so recovery can find out how the step in doubt ended, and every state between
two calls of the executor or of recovery is one of the occupancies after some of the
steps. What has to be shown of the schedule is where each row stands before its first
step, and that an endpoint that is occupied at the start is the source of some row.
-/

namespace DarkReNamer

open Std Interaction Occupancy UndoLog Schedule

variable {V : Volume} {plan : RenamePlan} {o b : VolumeState}

namespace Executor

variable {schedule : List ScheduleStep} {rs : List (plan.Row × Standing)}

/-- The relocation that a step of the manifest journals. -/
theorem Executes.relocates (h : Executes V plan o schedule rs) {i : ℕ} {step : JournalStep}
    (hstep : (schedule.map journalStep)[i]? = some step) :
    ∃ scheduled row next, schedule[i]? = some scheduled ∧ step = journalStep scheduled ∧
      rs[i]? = some (row, next) ∧
      Relocates V plan o (standingAfter plan rs i) scheduled row next := by
  rw [List.getElem?_map, Option.map_eq_some_iff] at hstep
  obtain ⟨scheduled, hscheduled, rfl⟩ := hstep
  obtain ⟨row, next, hrow, hmoves⟩ := h.follows.getElem? hscheduled
  exact ⟨scheduled, row, next, hscheduled, rfl, hrow, hmoves⟩

/-- The move of a relocation. -/
theorem Executes.journalMove (h : Executes V plan o schedule rs)
    {standing : plan.Row → Standing} {step : ScheduleStep} {row : plan.Row} {next : Standing}
    (hmoves : Relocates V plan o standing step row next) : V.journalMove (journalStep step) =
      relocate plan.identity (places V plan standing) row (next.key V plan row) :=
  journalMove_of_stepMoves h.checked
    (stepMoves_of_relocates (h.checked.schedulable h.frozen) hmoves)

theorem relocates_entry {standing : plan.Row → Standing} {step : ScheduleStep}
    {row : plan.Row} {next : Standing} (h : Relocates V plan o standing step row next) :
    (journalStep step).entry = (plan.row row).id := by
  cases h <;> rfl

theorem relocates_expectedSource {standing : plan.Row → Standing} {step : ScheduleStep}
    {row : plan.Row} {next : Standing} (h : Relocates V plan o standing step row next) :
    (journalStep step).expectedSource = plan.identity row := by
  cases h <;> rfl

/-- A place between which the steps move is the source of some row when something was
there at the start. -/
theorem Executes.exists_sourceKey (h : Executes V plan o schedule rs)
    {standing : plan.Row → Standing} {step : ScheduleStep} {row : plan.Row} {next : Standing}
    (hmoves : Relocates V plan o standing step row next) {place : Standing}
    (hplace : place = standing row ∨ place = next) (hoccupied : o (place.key V plan row) ≠ none) :
    ∃ other : plan.Row, plan.sourceKey other = place.key V plan row := by
  have hsource : ∀ i : plan.Row,
      ∃ other : plan.Row, plan.sourceKey other = Standing.source.key V plan i :=
    fun i => ⟨i, rfl⟩
  have hdestination : ∀ i : plan.Row, o (Standing.destination.key V plan i) ≠ none →
      ∃ other : plan.Row, plan.sourceKey other = Standing.destination.key V plan i := by
    intro i hi
    obtain ⟨other, hother, hkey⟩ :=
      (h.checked.schedulable h.frozen).destination_free _ (row_mem i) hi
    obtain ⟨j, rfl⟩ := exists_row hother
    exact ⟨j, hkey⟩
  cases hmoves with
  | straight _ hstanding =>
      rcases hplace with rfl | rfl
      · rw [hstanding]
        exact hsource row
      · exact hdestination row hoccupied
  | intoTemporary _ temporary hstanding htemporary =>
      rcases hplace with rfl | rfl
      · rw [hstanding]
        exact hsource row
      · exact absurd htemporary.free hoccupied
  | fromTemporary _ temporary hstanding htemporary =>
      rcases hplace with rfl | rfl
      · rw [hstanding] at hoccupied
        exact absurd htemporary.free hoccupied
      · exact hdestination row hoccupied

/-- The step before which nothing has moved its entry starts at the source of its row. -/
theorem Executes.standing_first (h : Executes V plan o schedule rs)
    {front back : List JournalStep} {step : JournalStep}
    (hsplit : schedule.map journalStep = front ++ step :: back)
    (hnew : ∀ earlier ∈ front, earlier.entry ≠ step.entry) {scheduled : ScheduleStep}
    {row : plan.Row} {next : Standing} (hstep : step = journalStep scheduled)
    (hmoves : Relocates V plan o (standingAfter plan rs front.length) scheduled row next) :
    standingAfter plan rs front.length row = .source := by
  refine placesAfter_of_forall_ne fun r hr hrow => ?_
  obtain ⟨j, hj, hget⟩ := List.mem_iff_getElem.1 hr
  rw [List.length_take] at hj
  have hlt : j < front.length := Nat.lt_of_lt_of_le hj (Nat.min_le_left _ _)
  have hearlier : (schedule.map journalStep)[j]? = some front[j] := by
    rw [hsplit, List.getElem?_append_left hlt, List.getElem?_eq_getElem hlt]
  obtain ⟨before, other, place, -, hbefore, hother, hmoved⟩ := h.relocates hearlier
  have hsame : other = row := by
    rw [← hrow, ← hget, List.getElem_take]
    rw [List.getElem?_eq_getElem (Nat.lt_of_lt_of_le hj (Nat.min_le_right _ _))] at hother
    rw [Option.some.inj hother]
  refine hnew front[j] (List.getElem_mem hlt) ?_
  rw [hbefore, hstep, relocates_entry hmoved, relocates_entry hmoves, hsame]

/-- Every row has a first step, and it starts at the source of the row. -/
theorem Executes.firsts (h : Executes V plan o schedule rs) (row : plan.Row) :
    Recovery.Firsts V (schedule.map journalStep) (plan.sourceKey row) := by
  have hmoved : placesAfter (atSource plan) rs row ≠ atSource plan row := by
    rw [h.standing]
    simp [atSource, atDestination]
  obtain ⟨front, next, back, hrs, hfront⟩ := exists_first_of_placesAfter_ne hmoved
  have hlt : front.length < (schedule.map journalStep).length := by
    rw [List.length_map, h.follows.length_eq, hrs]
    simp
  have hstep := List.getElem?_eq_getElem hlt
  obtain ⟨scheduled, row', next', -, hscheduled, hrow, hmoves⟩ := h.relocates hstep
  have hsame : row' = row := by
    rw [hrs, List.getElem?_append_right (Nat.le_refl _), Nat.sub_self] at hrow
    exact (Prod.mk.inj (Option.some.inj hrow)).1.symm
  subst hsame
  have hstanding : standingAfter plan rs front.length row' = .source := by
    rw [standingAfter, hrs, List.take_left]
    exact placesAfter_of_forall_ne hfront
  have hsplit : schedule.map journalStep = (schedule.map journalStep).take front.length ++
      (schedule.map journalStep)[front.length] ::
        (schedule.map journalStep).drop (front.length + 1) := by
    rw [List.getElem_cons_drop hlt, List.take_append_drop]
  refine ⟨_, _, _, hsplit, ?_, ?_⟩
  · intro earlier hearlier hentry
    obtain ⟨j, hj, hget⟩ := List.mem_iff_getElem.1 hearlier
    rw [List.length_take] at hj
    have hjlt : j < front.length := Nat.lt_of_lt_of_le hj (Nat.min_le_left _ _)
    have hearlier' : (schedule.map journalStep)[j]? = some earlier := by
      rw [← hget, List.getElem_take, List.getElem?_eq_getElem]
    obtain ⟨before, other, place, -, hbefore, hother, hmoved'⟩ := h.relocates hearlier'
    rw [hscheduled, hbefore, relocates_entry hmoved', relocates_entry hmoves] at hentry
    rw [hrs, List.getElem?_append_left hjlt, List.getElem?_eq_getElem hjlt] at hother
    refine hfront front[j] (List.getElem_mem hjlt) ?_
    rw [Option.some.inj hother]
    exact h.ids hentry
  · rw [hscheduled, h.journalMove hmoves]
    simp only [relocate, places, hstanding]
    rfl

/-- The manifest of a schedule is well laid out. -/
theorem Executes.layout (h : Executes V plan o schedule rs) :
    Recovery.Layout V o (schedule.map journalStep) := by
  have hfits := h.checked.schedulable h.frozen
  have hmem : ∀ step ∈ schedule.map journalStep, ∃ i scheduled row next,
      step = journalStep scheduled ∧
        Relocates V plan o (standingAfter plan rs i) scheduled row next := by
    intro step hstep
    obtain ⟨i, hi, hget⟩ := List.mem_iff_getElem.1 hstep
    obtain ⟨scheduled, row, next, -, hscheduled, -, hmoves⟩ :=
      h.relocates (hget ▸ List.getElem?_eq_getElem hi)
    exact ⟨i, scheduled, row, next, hscheduled, hmoves⟩
  refine ⟨h.executable, fun front step back hsplit hnew => ?_, fun key hkey hoccupied => ?_,
    fun step hstep => ?_, fun step hstep => ?_, fun step hstep => ?_, fun step hstep => ?_⟩
  · have hstep : (schedule.map journalStep)[front.length]? = some step := by
      rw [hsplit, List.getElem?_append_right (Nat.le_refl _), Nat.sub_self]
      rfl
    obtain ⟨scheduled, row, next, -, hscheduled, -, hmoves⟩ := h.relocates hstep
    have hstanding := h.standing_first hsplit hnew hscheduled hmoves
    rw [hscheduled, relocates_expectedSource hmoves, h.journalMove hmoves]
    simp only [relocate, places, hstanding]
    exact (placed_source hfits).occupied row
  · obtain ⟨step, hstep, hends⟩ := List.mem_flatMap.1 hkey
    obtain ⟨i, scheduled, row, next, rfl, hmoves⟩ := hmem step hstep
    have hsource : ∃ other : plan.Row, plan.sourceKey other = key := by
      simp only [h.journalMove hmoves, relocate, List.mem_cons, List.not_mem_nil,
        or_false] at hends
      rcases hends with rfl | rfl
      · exact h.exists_sourceKey hmoves (.inl rfl) hoccupied
      · exact h.exists_sourceKey hmoves (.inr rfl) hoccupied
    obtain ⟨other, rfl⟩ := hsource
    exact h.firsts other
  · obtain ⟨i, scheduled, row, next, rfl, hmoves⟩ := hmem step hstep
    cases hmoves with
    | straight _ hstanding => exact h.frozen.parent_source (row_mem row)
    | intoTemporary _ temporary hstanding htemporary =>
        exact h.frozen.parent_source (row_mem row)
    | fromTemporary _ temporary hstanding htemporary => exact htemporary.parent
  · obtain ⟨i, scheduled, row, next, rfl, hmoves⟩ := hmem step hstep
    cases hmoves with
    | straight _ hstanding => exact h.frozen.parent_destination (row_mem row)
    | intoTemporary _ temporary hstanding htemporary => exact htemporary.parent
    | fromTemporary _ temporary hstanding htemporary =>
        exact h.frozen.parent_destination (row_mem row)
  · obtain ⟨i, scheduled, row, next, rfl, hmoves⟩ := hmem step hstep
    obtain ⟨identity, hentry, -, -, hplain⟩ := h.checked.source_occupied h.frozen (row_mem row)
    rw [relocates_expectedSource hmoves, RenamePlan.identity, hentry]
    exact hplain
  · obtain ⟨i, scheduled, row, next, rfl, hmoves⟩ := hmem step hstep
    obtain ⟨identity, hentry, -, hkind, -⟩ := h.checked.source_occupied h.frozen (row_mem row)
    rw [relocates_expectedSource hmoves, RenamePlan.identity, hentry]
    rintro kind hkind'
    refine hkind.trans ?_
    cases hmoves <;> exact Option.some.inj hkind'

theorem Executes.any_unauthorized (h : Executes V plan o schedule rs) :
    ((schedule.map journalStep).any fun step =>
      (Recovery.forwardOperation step).authorizationError.isSome) = false := by
  rw [List.any_map, List.any_eq_false]
  intro step hstep
  rw [Function.comp_apply, show Recovery.forwardOperation (journalStep step) =
    forwardOperation step from rfl, h.authorized step hstep]
  simp

end Executor

namespace Recovery

theorem reading_engineEnv (s : World VolumeState) :
    Reading V (engineEnv V.backendRel) s fun _ => True :=
  ⟨V.admits_self s, fun _ => trivial, fun _ => trivial⟩

end Recovery

namespace Volume

variable (V)

/-- The volume without faults of its ports: a call fails only when it asks for a move
that is not possible. -/
def faultlessEnv : Environment (World VolumeState) Call Answer :=
  fun s call answer t => engineEnv V.backendRel s call answer t ∧
    (Fails call answer → ∃ op, call = .backend (.renameNoReplace op) ∧
      ¬ (V.operationMove op).Enabled s.backend)

variable {V}

theorem ports_faultless (nonce : BitVec 128) (s : World VolumeState) (call : Call) :
    V.faultlessEnv s call ((V.ports nonce).handler s call).1
      ((V.ports nonce).handler s call).2 := by
  refine ⟨V.ports_allowed nonce s call, fun hfails => ?_⟩
  cases call with
  | control call => exact hfails.elim
  | journal call => cases call <;> exact hfails.elim
  | backend call =>
      cases call with
      | renameNoReplace op =>
          refine ⟨op, rfl, fun henabled => ?_⟩
          simp [Ports.handler, ports, serve, henabled, Fails] at hfails
      | _ => exact hfails.elim

theorem reading_faultlessEnv (s : World VolumeState) :
    Recovery.Reading V V.faultlessEnv s fun _ => False where
  admits _ _ _ step := step.1
  key step := by
    obtain ⟨op, hop, -⟩ := step.2 trivial
    cases hop
  observe step := by
    obtain ⟨op, hop, -⟩ := step.2 trivial
    cases hop

theorem within_faultlessEnv {steps : List JournalStep}
    (hlayout : Recovery.Layout V o steps) :
    Within V.faultlessEnv V.backendRel (fun k b => b = V.occupancyAfter o steps k) steps
      False where
  allowed step := step.1
  journal step hfails := by
    obtain ⟨op, hop, -⟩ := step.2 hfails
    cases hop
  reverse {i step s error t} hstep hat hrename := by
    obtain ⟨op, hop, hrefused⟩ := hrename.2 trivial
    obtain rfl : Recovery.reverseOperation step = op := by simpa using hop
    rw [hat, V.operationMove_reverseOperation step] at hrefused
    exact hrefused (hlayout.reverse hstep).1

end Volume

/-- What a session has made of a volume: some of the moves of a manifest that is laid out
over the initial occupancy and ends in it or in the one that the plan asks for. -/
structure Underway (V : Volume) (plan : RenamePlan) (b : VolumeState)
    (steps : List JournalStep) (s : World VolumeState) : Prop where
  layout : Recovery.Layout V b steps
  authorized : (steps.any fun step =>
    (Recovery.forwardOperation step).authorizationError.isSome) = false
  final : V.occupancyAfter b steps steps.length = b ∨
    V.occupancyAfter b steps steps.length = plan.simultaneous b
  consistent : Consistent (fun k o => o = V.occupancyAfter b steps k) plan.id steps s

theorem underway_initial (V : Volume) (plan : RenamePlan) (b : VolumeState) :
    Underway V plan b [] ⟨b, []⟩ where
  layout := ⟨trivial, by simp, by simp [Recovery.endpoints], by simp, by simp, by simp,
    by simp⟩
  authorized := rfl
  final := .inl rfl
  consistent := .inl ⟨rfl, rfl⟩

/-- Recovery of a session, with faults of any kind or without. -/
theorem Underway.spec_rollback {steps : List JournalStep} {s : World VolumeState}
    {env : Environment (World VolumeState) Call Answer} {faulty : Prop}
    (h : Underway V plan b steps s)
    (henv : Within env V.backendRel (fun k o => o = V.occupancyAfter b steps k) steps faulty)
    (hreading : ∀ s, Recovery.Reading V env s fun _ => faulty) :
    Spec env (Underway V plan b steps) Recovery.rollback
      (Recovery.Reconciled (fun k o => o = V.occupancyAfter b steps k) plan.id steps faulty s)
      s := by
  refine (Recovery.spec_rollback henv (Volume.carries h.layout.executable)
    (Recovery.settles_volume hreading h.layout plan.id) (fun hrefused => ?_)
    h.consistent).mono_crash fun t ht => ⟨h.layout, h.authorized, h.final, ht⟩
  rw [h.authorized] at hrefused
  cases hrefused

/-- Every session leaves a volume underway. -/
theorem Session.exists_underway (hplan : CheckedPlan V plan) {s : World VolumeState}
    (h : Session V.backendRel ⟨plan⟩ b s) : ∃ steps, Underway V plan b steps s := by
  induction h with
  | execute run =>
      rcases ((Executor.spec_execute hplan rfl).sound run).1 with
        rfl | ⟨schedule, rs, hexecutes, hjournalled⟩
      · exact ⟨[], underway_initial V plan b⟩
      · refine ⟨_, hexecutes.layout, hexecutes.any_unauthorized,
          .inr ?_, hjournalled⟩
        rw [List.length_map]
        exact hexecutes.simultaneous
  | recover past run ih =>
      obtain ⟨steps, hunderway⟩ := ih
      have hspec := hunderway.spec_rollback within_engineEnv Recovery.reading_engineEnv
      exact ⟨steps, (hspec.sound run).1⟩

/-- The journal is closed and nothing has moved. -/
structure RolledBack (b : VolumeState) (s : World VolumeState) : Prop where
  clean : replayJournal s.records = .clean
  backend : s.backend = b

theorem Recovery.Reconciled.rolledBack {steps : List JournalStep} {s t : World VolumeState}
    {faulty : Prop} {recovered : PlanId} {restored : ℕ}
    (h : Reconciled (fun k o => o = V.occupancyAfter b steps k) plan.id steps faulty s
      (.recovered recovered restored) t) : recovered = plan.id ∧ RolledBack b t :=
  ⟨h.1, h.2.2.replayJournal, h.2.1⟩

/-- Recovery takes a session back: a run that meets no fault recovers the plan, such a
run exists, and a run that reports that it recovered a plan has done so, whatever faults
it met. -/
structure Recoverable (V : Volume) (plan : PlanId) (b : VolumeState) (s : World VolumeState) :
    Prop where
  required : ∃ total completed reason,
    replayJournal s.records = .recoveryRequired plan total completed reason
  accepted : (replayJournal s.records).isCorrupt = false
  faultless : ∀ trace outcome t,
    Runs V.faultlessEnv Recovery.rollback s trace (some outcome) t →
      (∃ restored, outcome = .recovered plan restored) ∧ RolledBack b t
  exists_faultless : ∃ trace outcome t,
    Runs V.faultlessEnv Recovery.rollback s trace (some outcome) t
  truthful : ∀ trace recovered restored t,
    Runs (engineEnv V.backendRel) Recovery.rollback s trace
      (some (.recovered recovered restored)) t → recovered = plan ∧ RolledBack b t

theorem Underway.recoverable {steps : List JournalStep} {s : World VolumeState}
    (h : Underway V plan b steps s) (hrequired : replayJournal s.records ≠ .clean) :
    Recoverable V plan.id b s where
  required := by
    rcases h.consistent with ⟨hempty, -⟩ | ⟨phase, hlogs, -⟩
    · rw [hempty] at hrequired
      exact absurd rfl hrequired
    · rw [hlogs.replayJournal] at hrequired ⊢
      cases phase with
      | ended value => exact absurd rfl hrequired
      | _ => exact ⟨_, _, _, rfl⟩
  accepted := h.consistent.isCorrupt_eq_false
  faultless trace outcome t run := by
    have hspec := h.spec_rollback (Volume.within_faultlessEnv h.layout)
      Volume.reading_faultlessEnv
    have houtcome := (hspec.sound run).2 outcome rfl
    cases outcome with
    | notRequired => exact absurd houtcome.2 hrequired
    | recovered recovered restored =>
        obtain ⟨rfl, hback⟩ := houtcome.rolledBack
        exact ⟨⟨restored, rfl⟩, hback⟩
    | blocked plan reason => exact houtcome.elim
    | recoveryRequired plan reason => exact houtcome.elim
  exists_faultless := ⟨_, _, _, Runs.of_run (Volume.ports_faultless 0) Recovery.rollback s⟩
  truthful trace recovered restored t run := by
    have hspec := h.spec_rollback within_engineEnv Recovery.reading_engineEnv
    exact ((hspec.sound run).2 _ rfl).rolledBack

/-- A transaction is atomic: whatever failed and wherever it was cut, the journal is
closed and the volume is as it was or as the plan asks for, or recovery takes the
transaction back. -/
theorem Session.atomic (V : Volume) {plan : RenamePlan} (hplan : CheckedPlan V plan)
    {b : VolumeState} {s : World VolumeState} (h : Session V.backendRel ⟨plan⟩ b s) :
    replayJournal s.records = .clean ∧
        (s.backend = b ∨ s.backend = plan.simultaneous b) ∨
      Recoverable V plan.id b s := by
  obtain ⟨steps, hunderway⟩ := h.exists_underway hplan
  by_cases hclean : replayJournal s.records = .clean
  · refine .inl ⟨hclean, ?_⟩
    rcases hunderway.consistent with ⟨-, hat⟩ | ⟨phase, hlogs, hholds⟩
    · exact .inl hat
    · rw [hlogs.replayJournal] at hclean
      cases phase with
      | ended value =>
          cases value with
          | committed =>
              rw [show s.backend = _ from hholds]
              exact hunderway.final
          | rolledBack => exact .inl hholds
      | _ => cases hclean
  · exact .inr (hunderway.recoverable hclean)

section Sample

theorem swapPlan_checked : CheckedPlan (flatVolume sampleParent) swapPlan where
  sources_nodup := by decide
  destinations_nodup := by decide
  source_entry row hrow := by
    simp only [swapPlan, List.mem_cons, List.not_mem_nil, or_false] at hrow
    rcases hrow with rfl | rfl
    · exact ⟨_, rfl⟩
    · exact ⟨_, rfl⟩
  source_key := by decide +kernel
  destination_key := by decide +kernel
  destination_source := by decide

/-- The ports of a volume whose journal fails for good once it holds `limit` records. -/
def brokenPorts (V : Volume) (limit : ℕ) : Ports VolumeState :=
  { V.ports 5 with
    journal := fun records call =>
      if records.length < limit then serveJournal records call
      else match call with
        | .snapshot => (.error ⟨5, .notAppended⟩, records)
        | .append _ => (.error ⟨5, .mayHaveAppended⟩, records) }

theorem brokenPorts_allowed (V : Volume) (limit : ℕ) (s : World VolumeState) (call : Call) :
    engineEnv V.backendRel s call ((brokenPorts V limit).handler s call).1
      ((brokenPorts V limit).handler s call).2 := by
  refine Ports.allowed (V.serve_allowed 5) (fun records call => ?_) s call
  by_cases hlimit : records.length < limit
  · simp only [brokenPorts, hlimit, if_true]
    exact serveJournal_allowed records call
  · simp only [brokenPorts, hlimit, if_false]
    cases call with
    | snapshot => rfl
    | append record => exact .inl rfl

/-- A swap whose journal fails after three records is taken back by recovery. -/
theorem Session.atomic_swap : ∃ s : World VolumeState,
    Session (flatVolume sampleParent).backendRel ⟨swapPlan⟩ swapState s ∧
      s.records.length = 3 ∧
      Recoverable (flatVolume sampleParent) swapPlan.id swapState s := by
  have hrun := Runs.of_run (brokenPorts_allowed (flatVolume sampleParent) 3)
    (Executor.executeWithControl ⟨swapPlan⟩).run ⟨swapState, []⟩
  have hcut : ((Executor.executeWithControl ⟨swapPlan⟩).run.run
      (brokenPorts (flatVolume sampleParent) 3).handler ⟨swapState, []⟩).2.records.length = 3 ∧
      replayJournal ((Executor.executeWithControl ⟨swapPlan⟩).run.run
        (brokenPorts (flatVolume sampleParent) 3).handler ⟨swapState, []⟩).2.records ≠
          .clean := by
    decide +kernel
  refine ⟨_, .execute hrun, hcut.1, ?_⟩
  rcases Session.atomic _ swapPlan_checked (.execute hrun) with ⟨hclean, -⟩ | hrecoverable
  · exact absurd hclean hcut.2
  · exact hrecoverable

end Sample

end DarkReNamer
