import DarkReNamer.Interaction.Trace
import DarkReNamer.Rename.Executor
import DarkReNamer.Rename.Planner.Duplicates
import DarkReNamer.Rename.Schedule.Execution

/-!
# Soundness of the planner

What a plan promises over the volume it was made on. The scheduler and the executor
rely on these facts without checking them again: the rows are the changed intents, no
key is repeated, an occupied destination is the source of another row, and no row
crosses a boundary that the request does not allow.
-/

namespace DarkReNamer

open Std Interaction Occupancy

/-- A plan the planner makes for a request. -/
structure Planned (V : Volume) (o : VolumeState) (request : PlanRequest) (plan : RenamePlan) :
    Prop where
  scope : plan.scope = request.scope
  rows : List.Forall₂ (PlannedRow V o request.scope)
    (request.entries.filter RenameIntent.changes) plan.entries
  names : ∀ intent ∈ request.entries, intent.changes = true →
    validateWindowsLeafName intent.destinationName = .ok ()
  ids_nodup : (plan.entries.map PlanRow.id).Nodup
  sources_nodup : (plan.entries.map PlanRow.sourceEntryKey).Nodup
  destinations_nodup : (plan.entries.map PlanRow.destinationEntryKey).Nodup
  destination_source : ∀ row ∈ plan.entries, row.destinationSnapshot.entry.isSome = true →
    ∃ other ∈ plan.entries, other.sourceEntryKey = row.destinationEntryKey

/-- The leaf of a destination is the name it was built from. -/
theorem RenameIntent.pathLeaf_destination {intent : RenameIntent}
    (h : validateWindowsLeafName intent.destinationName = .ok ()) :
    pathLeaf intent.destination = intent.destinationName := by
  have hname := isSeparator_of_validateWindowsLeafName h
  unfold RenameIntent.destination
  split
  · next hends =>
      obtain ⟨unit, hlast, hunit⟩ := (Option.any_eq_true _ _).1 hends
      obtain ⟨parent, hparent⟩ := List.getLast?_eq_some_iff.1 hlast
      rw [pathLeaf, hparent, List.append_assoc, List.singleton_append]
      rw [afterLastSeparator_append hname hunit]
  · rw [pathLeaf, afterLastSeparator_append hname (by decide)]

namespace Planned

variable {V : Volume} {o : VolumeState} {request : PlanRequest} {plan : RenamePlan}

/-- Every row was planned for a changed intent. -/
theorem intent_of_row (h : Planned V o request plan) {row : PlanRow}
    (hrow : row ∈ plan.entries) :
    ∃ intent ∈ request.entries, intent.changes = true ∧
      PlannedRow V o request.scope intent row := by
  obtain ⟨intent, hintent, hplanned⟩ := exists_mem_of_forall₂ h.rows row hrow
  obtain ⟨hmem, hchanges⟩ := List.mem_filter.1 hintent
  exact ⟨intent, hmem, hchanges, hplanned⟩

/-- What each row holds is found under its keys. -/
theorem schedulable (h : Planned V o request plan) : Schedulable plan o where
  sources_nodup := h.sources_nodup
  destinations_nodup := h.destinations_nodup
  source_occupied row hrow := by
    obtain ⟨intent, -, -, hplanned⟩ := h.intent_of_row hrow
    exact hplanned.exists_source
  destination_free row hrow hoccupied := by
    obtain ⟨intent, hintent, hchanges, hplanned⟩ := h.intent_of_row hrow
    refine h.destination_source row hrow ?_
    rw [hplanned.destination_snapshot, hplanned.destination, Volume.snapshot, Volume.observed,
      Option.isSome_map]
    have hkey : row.destinationEntryKey = V.key intent.destination := by
      rw [hplanned.destination_key, hplanned.destination_snapshot, hplanned.destination,
        Volume.snapshot, Volume.key, RenameIntent.pathLeaf_destination (h.names _ hintent hchanges)]
    rw [← hkey]
    exact Option.isSome_iff_ne_none.2 hoccupied

/-- A step of a planned row is authorized: it stays on its volume, and it changes the
parent only when the request allows it. -/
theorem authorizationError_eq_none (h : Planned V o request plan) {step : ScheduleStep}
    {move : KeyMove} (hstep : StepMoves V plan step move) :
    (forwardOperation step).authorizationError = none := by
  have hbetween : ∀ row ∈ plan.entries, ∀ identity,
      Schedule.sourceIdentity row = .ok identity →
      identity.volume = row.sourceSnapshot.parent.volume ∧
        row.sourceSnapshot.parent.volume = row.destinationSnapshot.parent.volume ∧
        (row.sourceSnapshot.parent ≠ row.destinationSnapshot.parent →
          plan.scope = .sameVolumeFilesOnly ∧ row.kind = .file) := by
    intro row hrow identity hidentity
    obtain ⟨intent, -, -, hplanned⟩ := h.intent_of_row hrow
    obtain ⟨source, hsource, -⟩ := hplanned.exists_source
    rw [Schedule.sourceIdentity, hsource] at hidentity
    obtain rfl := Except.ok.inj hidentity
    obtain ⟨hvolume, hparents⟩ := hplanned.volume _ hsource
    rw [h.scope]
    exact ⟨hvolume, hparents, hplanned.boundary⟩
  cases hstep with
  | straight row hrow identity hidentity =>
      obtain ⟨hvolume, hparents, hboundary⟩ := hbetween row hrow identity hidentity
      refine RenameOperation.authorizationError_eq_none hvolume hparents fun hne => ?_
      obtain ⟨hscope, hkind⟩ := hboundary hne
      exact ⟨hscope, congrArg some hkind⟩
  | intoTemporary row hrow temporary identity hidentity =>
      obtain ⟨hvolume, -, -⟩ := hbetween row hrow identity hidentity
      exact RenameOperation.authorizationError_eq_none hvolume rfl fun hne => absurd rfl hne
  | fromTemporary row hrow temporary identity hidentity =>
      obtain ⟨hvolume, hparents, hboundary⟩ := hbetween row hrow identity hidentity
      refine RenameOperation.authorizationError_eq_none hvolume hparents fun hne => ?_
      obtain ⟨hscope, hkind⟩ := hboundary hne
      exact ⟨hscope, congrArg some hkind⟩

end Planned

namespace Planner

variable {V : Volume} {env : Environment (World VolumeState) Call Answer}
  {s : World VolumeState}

/-- The rows carry the identifiers of their intents. -/
theorem ids_eq_of_planned {o : VolumeState} {scope : MoveScope} {intents : List RenameIntent}
    {rows : List PlanRow} (h : List.Forall₂ (PlannedRow V o scope) intents rows) :
    rows.map PlanRow.id = intents.map RenameIntent.id := by
  induction h with
  | nil => rfl
  | cons hrow _ ih => simp [hrow.id, ih]

/-- Rows with the same source key are in the same candidate group. -/
theorem rowIdentity_eq_of_planned {o : VolumeState} {scope : MoveScope}
    {intent intent' : RenameIntent} {row row' : PlanRow} (h : PlannedRow V o scope intent row)
    (h' : PlannedRow V o scope intent' row') (hkey : row.sourceEntryKey = row'.sourceEntryKey) :
    rowIdentity row = rowIdentity row' := by
  have hparent : row.sourceSnapshot.parent = row'.sourceSnapshot.parent := by
    rw [h.source_key, h'.source_key] at hkey
    exact V.parent_eq_of_entryKey_eq hkey
  have hentry : row.sourceSnapshot.entry = row'.sourceSnapshot.entry := by
    rw [← h.occupant, ← h'.occupant, hkey]
  rw [rowIdentity, rowIdentity, hparent, hentry]

/-- The identifiers of a request without textual duplicates are distinct. -/
theorem checks_checkPathKeys (h : V.Admits env s) (changed : List RenameIntent) :
    Checks env (checkPathKeys changed) s
      (fun issues => issues = [] → (changed.map RenameIntent.id).Nodup) fun _ => True := by
  have hread : ∀ path, Reads env (pathKey path) s fun _ => True := fun path =>
    Reads.ask fun answer t step => ⟨h.read step (by simp), trivial⟩
  unfold checkPathKeys
  refine Checks.bind (checks_collectOwners h.polls hread changed) ?_
  rintro _ ⟨keyed, rfl, -, rfl⟩
  refine Checks.bind (checks_appendDuplicateIssues h.polls _ _ _) ?_
  rintro _ rfl
  refine Checks.bind (checks_appendDuplicateIssues h.polls _ _ _) ?_
  rintro _ rfl
  refine Checks.bind (checks_appendDuplicateIssues h.polls _ _ _) ?_
  rintro _ rfl
  refine Checks.bind (h.checks_of_tries (tries_collectOverlap _ _)) fun overlap _ => ?_
  refine (checks_issueEach h.polls _ _ _).mono (fun issues hissues hnil => ?_) fun _ => id
  rw [hissues] at hnil
  simp only [List.append_eq_nil_iff] at hnil
  obtain ⟨⟨⟨⟨-, -⟩, hentry⟩, -⟩, -⟩ := hnil
  have hnodup := forall_ownerSets_length_le_one_iff.1 (duplicateIssues_eq_nil_iff.1 hentry)
  rw [List.map_map]
  exact hnodup

/-- The texts of a request without issues are in order. -/
theorem name_of_textIssues {entries changed : List RenameIntent}
    (h : textIssues entries changed = []) {intent : RenameIntent} (hintent : intent ∈ changed) :
    validateWindowsLeafName intent.destinationName = .ok () := by
  unfold textIssues at h
  have hreport := List.flatMap_eq_nil_iff.1 (List.append_eq_nil_iff.1 h).1 intent hintent
  have hvalid := (List.append_eq_nil_iff.1 (List.map_eq_nil_iff.1 hreport)).2
  cases hname : validateWindowsLeafName intent.destinationName with
  | error error =>
      rw [hname] at hvalid
      simp at hvalid
  | ok _ => rfl

/-- A plan that is made is a plan of the request, and its rows have what the pass over the
directories makes of what is kept about them. -/
theorem checks_planCancellable_keeping (h : V.Admits env s) (request : PlanRequest)
    {K : RowsState → Prop} {D : List PlanRow → Prop}
    (hkept : textIssues request.entries (request.entries.filter RenameIntent.changes) = [] →
      ((request.entries.filter RenameIntent.changes).map RenameIntent.id).Nodup →
      Checks env (planRows request.scope ((request.entries.filter RenameIntent.changes).any
        fun intent => intent.kind == .directory) (request.entries.filter RenameIntent.changes)) s
        (fun rows => rows.issues = [] → K rows) fun _ => True)
    (haccepted : ∀ rows, K rows → Checks env (checkDirectories request.entries
      (request.entries.filter RenameIntent.changes) ((request.entries.filter
        RenameIntent.changes).any fun intent => intent.kind == .directory) rows) s
        (fun issues => issues = [] → D rows.entries) fun _ => True) :
    Checks env (planCancellable request) s
      (fun plan => Planned V s.backend request plan ∧ D plan.entries) fun _ => True := by
  unfold planCancellable
  refine Checks.bind (checks_collectChanged h.polls _) ?_
  rintro changed rfl
  refine Checks.bind (checks_validateTexts h.polls _ _) ?_
  rintro _ rfl
  refine Checks.bind (checks_refuse fun _ => trivial) fun _ htexts => ?_
  refine Checks.bind (h.checks_of_tries (tries_foldChecked tries_validateEnvironment _ _))
    fun environment _ => ?_
  refine Checks.bind (checks_refuse fun _ => trivial) fun _ _ => ?_
  refine Checks.bind (checks_checkPathKeys h _) fun keys hkeys => ?_
  refine Checks.bind (checks_refuse fun _ => trivial) fun _ hnokeys => ?_
  refine Checks.bind (((checks_planRows h _ _ _).and (hkept htexts (hkeys hnokeys))).mono
    (fun _ => id) fun _ _ => trivial) fun rows hrows => ?_
  refine Checks.bind (checks_refuse fun _ => trivial) fun _ hnorows => ?_
  have hplanned := hrows.1 hnorows
  refine Checks.bind (checks_checkDestinationKeys h.polls _) fun destinations hdestinations => ?_
  refine Checks.bind (checks_refuse fun _ => trivial) fun _ hnodestinations => ?_
  have hrow := exists_mem_of_forall₂ hplanned
  have hentry : ∀ row ∈ rows.entries, ∃ source, row.sourceSnapshot.entry = some source := by
    intro row hmem
    obtain ⟨intent, -, hrow⟩ := hrow row hmem
    obtain ⟨source, hsource, -⟩ := hrow.exists_source
    exact ⟨source, hsource⟩
  have hsame : ∀ row ∈ rows.entries, ∀ row' ∈ rows.entries,
      row.sourceEntryKey = row'.sourceEntryKey → rowIdentity row = rowIdentity row' := by
    intro row hmem row' hmem' hkey
    obtain ⟨intent, -, hrow₁⟩ := hrow row hmem
    obtain ⟨intent', -, hrow₂⟩ := hrow row' hmem'
    exact rowIdentity_eq_of_planned hrow₁ hrow₂ hkey
  refine Checks.bind (checks_actualDuplicates_sound h hentry hsame) fun sources hsources => ?_
  refine Checks.bind (checks_refuse fun _ => trivial) fun _ hnosources => ?_
  refine Checks.bind (haccepted rows (hrows.2 hnorows)) fun directories hdirectories => ?_
  refine Checks.bind (checks_refuse fun _ => trivial) fun _ hnodirectories => ?_
  refine Checks.bind (checks_checkOccupied h.polls _) fun occupied hoccupied => ?_
  refine Checks.bind (checks_refuse fun _ => trivial) fun _ hnooccupied => ?_
  refine Checks.bind (checks_checkCancelled h.polls) fun _ _ => ?_
  refine Checks.bind (h.checks_of_tries (tries_planIdCancellable _)) fun id _ => ?_
  refine Checks.pure ⟨?_, hdirectories hnodirectories⟩
  refine
    { scope := rfl
      rows := hplanned
      names := fun intent hintent hchanges =>
        name_of_textIssues htexts (List.mem_filter.2 ⟨hintent, hchanges⟩)
      ids_nodup := ?_
      sources_nodup := hsources hnosources
      destinations_nodup := hdestinations.1 hnodestinations
      destination_source := hoccupied.1 hnooccupied }
  rw [ids_eq_of_planned hplanned]
  exact hkeys hnokeys

/-- A plan that is made is a plan of the request, of what the backend answers for it. -/
theorem checks_planCancellable_answered (h : V.Admits env s) (request : PlanRequest) :
    Checks env (planCancellable request) s
      (fun plan => Planned V s.backend request plan ∧ List.Forall₂ (Answered env s)
        (request.entries.filter RenameIntent.changes) plan.entries) fun _ => True := by
  refine checks_planCancellable_keeping (K := fun rows => List.Forall₂ (Answered env s)
      (request.entries.filter RenameIntent.changes) rows.entries) h request
    (fun _ _ => (checks_planRows_answered h _ _ _).mono
      (fun _ hrows hnil => (hrows hnil).imp fun _ _ hrow => hrow.2) fun _ => id)
    fun rows hrows => ?_
  exact (h.checks_of_tries (tries_checkDirectories _ _ _ _)).mono
    (fun _ _ _ => hrows) fun _ => id

theorem checks_planCancellable (h : V.Admits env s) (request : PlanRequest) :
    Checks env (planCancellable request) s (Planned V s.backend request) fun _ => True :=
  (checks_planCancellable_answered h request).mono (fun _ hplan => hplan.1) fun _ => id

/-- What a plan says about one of its rows, over the occupancy it was made on. -/
structure SoundRow (V : Volume) (o : VolumeState) (plan : RenamePlan) (row : PlanRow) : Prop where
  source : ∃ identity, row.sourceSnapshot.entry = some ⟨identity, row.kind, false⟩ ∧
    V.observed o row.sourceEntryKey = row.sourceSnapshot.entry ∧
    identity.volume = row.sourceSnapshot.parent.volume
  source_key : row.sourceEntryKey = V.entryKey row.sourceSnapshot.parent (pathLeaf row.source)
  destination_key : row.destinationEntryKey = V.key row.destination
  destination_parent : row.destinationSnapshot.parent = V.parent row.destination
  volume : row.sourceSnapshot.parent.volume = row.destinationSnapshot.parent.volume
  boundary : row.sourceSnapshot.parent ≠ row.destinationSnapshot.parent →
    plan.scope = .sameVolumeFilesOnly ∧ row.kind = .file
  name : validateWindowsLeafName (pathLeaf row.destination) = .ok ()
  destination_source : o row.destinationEntryKey ≠ none →
    ∃ other ∈ plan.entries, other.sourceEntryKey = row.destinationEntryKey

theorem soundRow_of_planned {o : VolumeState} {request : PlanRequest} {plan : RenamePlan}
    (h : Planned V o request plan) {row : PlanRow} (hrow : row ∈ plan.entries) :
    SoundRow V o plan row := by
  obtain ⟨intent, hintent, hchanges, hplanned⟩ := h.intent_of_row hrow
  have hleaf : pathLeaf row.destination = intent.destinationName := by
    rw [hplanned.destination]
    exact RenameIntent.pathLeaf_destination (h.names _ hintent hchanges)
  obtain ⟨identity, hentry⟩ := hplanned.source_entry
  have hparent : row.destinationSnapshot.parent = V.parent row.destination :=
    congrArg PathSnapshot.parent hplanned.destination_snapshot
  exact
    { source := ⟨identity, hentry, hplanned.occupant, (hplanned.volume _ hentry).1⟩
      source_key := hplanned.source_key
      destination_key := by rw [hplanned.destination_key, hparent, ← hleaf, Volume.key]
      destination_parent := hparent
      volume := (hplanned.volume _ hentry).2
      boundary := by
        rw [h.scope]
        exact hplanned.boundary
      name := by
        rw [hleaf]
        exact h.names _ hintent hchanges
      destination_source := h.schedulable.destination_free row hrow }

/-- What the backend answered, in a run of the planner, about the row of an intent: its source is
the answer to `resolve_source` for the source of the intent, and what is known of its destination
is the answer to `observe` for the destination of the intent. -/
structure Reported (trace : List EngineEvent) (intent : RenameIntent) (row : PlanRow) : Prop where
  source : ⟨.backend (.resolveSource intent.source),
    .ok ⟨row.source, row.sourceSnapshot, some row.sourceEntryKey⟩⟩ ∈ trace
  destination : ⟨.backend (.observe intent.destination), .ok row.destinationSnapshot⟩ ∈ trace

/-- Planner soundness: the rows of a plan are the changed intents, each made of what the backend
answered about that intent, no identifier and no key repeats, every row is sound, and the schedule
of the plan is never invalid and asks for no move that its own identities do not authorize. -/
theorem planCancellable_sound (V : Volume) (request : PlanRequest) (plan : RenamePlan)
    (s t : World VolumeState) {trace : List EngineEvent}
    (run : Runs (engineEnv V.backendRel) (planCancellable request).run s trace
      (some (.ok plan)) t) :
    t = s ∧ plan.scope = request.scope ∧
      List.Forall₂ (fun intent row => row.id = intent.id ∧ row.kind = intent.kind ∧
        row.destination = intent.destination ∧ Reported trace intent row ∧
        V.Resolves s.backend intent.source
          ⟨row.source, row.sourceSnapshot, some row.sourceEntryKey⟩)
        (request.entries.filter RenameIntent.changes) plan.entries ∧
      (plan.entries.map PlanRow.id).Nodup ∧
      (plan.entries.map PlanRow.sourceEntryKey).Nodup ∧
      (plan.entries.map PlanRow.destinationEntryKey).Nodup ∧
      (∀ row ∈ plan.entries, SoundRow V s.backend plan row) ∧
      ∀ (trace' : List EngineEvent) (result : Except ScheduleError (List ScheduleStep))
        (u : World VolumeState),
        Runs (engineEnv V.backendRel) (buildSchedule plan).run s trace' (some result) u →
          result ≠ .error .invalid ∧ ∀ schedule, result = .ok schedule →
            ∀ step ∈ schedule, (forwardOperation step).authorizationError = none := by
  -- The backend that gives no answers but those of this run.
  have hadmits : V.Admits (Environment.within (engineEnv V.backendRel) trace) s :=
    fun _ _ _ step => step.1
  obtain ⟨-, hpost⟩ := Spec.sound (checks_planCancellable_answered hadmits request)
    (run.within fun _ => id)
  obtain ⟨rfl, hplanned, hanswered⟩ := hpost _ rfl
  have hreported : List.Forall₂ (Reported trace) (request.entries.filter RenameIntent.changes)
      plan.entries := hanswered.imp fun intent row hrow => by
    obtain ⟨_, _, hsource⟩ := hrow.source
    obtain ⟨_, _, hdestination⟩ := hrow.destination
    exact ⟨hsource, hdestination⟩
  refine ⟨rfl, hplanned.scope, ?_, hplanned.ids_nodup, hplanned.sources_nodup,
    hplanned.destinations_nodup, fun row hrow => soundRow_of_planned hplanned hrow, ?_⟩
  · exact hplanned.rows.mp (fun _ _ hrow hreport =>
      ⟨hrow.id, hrow.kind, hrow.destination, hreport, hrow.resolves⟩) hreported
  intro trace' result u hbuild
  obtain ⟨-, hpost⟩ :=
    Spec.sound (checks_buildSchedule_volume _ hplanned.schedulable) hbuild
  obtain ⟨-, hresult⟩ := hpost _ rfl
  cases result with
  | error error =>
      refine ⟨?_, by simp⟩
      rintro ⟨⟩
      exact hresult rfl
  | ok schedule =>
      refine ⟨by simp, ?_⟩
      rintro _ ⟨⟩ step hstep
      obtain ⟨rs, hfollows, -⟩ := Schedule.Scheduled.execute hplanned.schedulable hresult
      obtain ⟨move, -, hmove⟩ :=
        exists_mem_of_forall₂ (stepMoves_of_follows hplanned.schedulable hfollows).flip step hstep
      exact hplanned.authorizationError_eq_none hmove

def sampleIntent (id : UInt32) (source destination : String) : RenameIntent :=
  { id := ⟨id⟩
    source := .ofAscii ("C:\\w\\" ++ source)
    destinationParent := .ofAscii "C:\\w"
    destinationName := .ofAscii destination
    kind := .file }

/-- The request to exchange the names of two files; a third one keeps its name. -/
def swapRequest : PlanRequest :=
  ⟨⟨1⟩, [sampleIntent 0 "a" "b", sampleIntent 1 "b" "a", sampleIntent 2 "c" "c"], .sameParent⟩

/-- The planner turns the request into a plan of two rows. -/
theorem planCancellable_sound_swap : ∃ (plan : RenamePlan) (trace : List EngineEvent),
    plan.entries.length = 2 ∧ (plan.entries.map PlanRow.destinationEntryKey).Nodup ∧
    (∀ row ∈ plan.entries, SoundRow (flatVolume sampleParent) swapState plan row) ∧
    ∀ row ∈ plan.entries, ∃ intent ∈ swapRequest.entries, Reported trace intent row := by
  have hlength : (((planCancellable swapRequest).run.run
      ((flatVolume sampleParent).ports 5).handler ⟨swapState, []⟩).1.toOption.map
        fun plan => plan.entries.length) = some 2 := by decide +kernel
  obtain ⟨plan, trace, htwo, run⟩ :=
    Runs.of_toOption ((flatVolume sampleParent).ports_allowed 5) hlength
  obtain ⟨-, -, hintents, -, -, hdestinations, hrows, -⟩ := planCancellable_sound _ _ _ _ _ run
  refine ⟨plan, trace, htwo, hdestinations, hrows, fun row hrow => ?_⟩
  obtain ⟨intent, hintent, -, -, -, hreported, -⟩ := exists_mem_of_forall₂ hintents row hrow
  exact ⟨intent, List.mem_of_mem_filter hintent, hreported⟩

end Planner

end DarkReNamer
