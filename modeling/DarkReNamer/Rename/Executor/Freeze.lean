import DarkReNamer.Rename.Executor.Prepare
import DarkReNamer.Rename.Planner.Sound

/-!
# What is known before the first mutation

Part of what execution relies on was checked by the planner and does not depend on the
occupancy (`CheckedPlan`); the rest is compared again by `freeze` (`Frozen`). Together
they make the plan schedulable over the occupancy at hand, so a preparation that
succeeds has a schedule that can be executed, even when the volume has changed since the
plan was made.
-/

namespace DarkReNamer

open Std Interaction Occupancy

/-- What the planner has checked of a plan, over any occupancy. -/
structure CheckedPlan (V : Volume) (plan : RenamePlan) : Prop where
  sources_nodup : (plan.entries.map PlanRow.sourceEntryKey).Nodup
  destinations_nodup : (plan.entries.map PlanRow.destinationEntryKey).Nodup
  source_entry : ∀ row ∈ plan.entries, ∃ identity,
    row.sourceSnapshot.entry = some ⟨identity, row.kind, false⟩
  source_key : ∀ row ∈ plan.entries,
    row.sourceEntryKey = V.entryKey row.sourceSnapshot.parent (pathLeaf row.source)
  destination_key : ∀ row ∈ plan.entries, row.destinationEntryKey =
    V.entryKey row.destinationSnapshot.parent (pathLeaf row.destination)
  destination_source : ∀ row ∈ plan.entries, row.destinationSnapshot.entry.isSome = true →
    ∃ other ∈ plan.entries, other.sourceEntryKey = row.destinationEntryKey

/-- What `freeze` compares: the endpoints of every row are as they were planned. -/
structure Frozen (V : Volume) (o : VolumeState) (plan : RenamePlan) : Prop where
  source : ∀ row ∈ plan.entries,
    V.Resolves o row.source ⟨row.source, row.sourceSnapshot, some row.sourceEntryKey⟩
  destination : ∀ row ∈ plan.entries, row.destinationSnapshot = V.snapshot o row.destination

variable {V : Volume} {o : VolumeState} {plan : RenamePlan}

theorem Planned.checked {request : PlanRequest} (h : Planned V o request plan) :
    CheckedPlan V plan where
  sources_nodup := h.sources_nodup
  destinations_nodup := h.destinations_nodup
  source_entry row hrow := by
    obtain ⟨intent, -, -, hplanned⟩ := h.intent_of_row hrow
    exact hplanned.source_entry
  source_key row hrow := by
    obtain ⟨intent, -, -, hplanned⟩ := h.intent_of_row hrow
    exact hplanned.source_key
  destination_key row hrow := by
    obtain ⟨intent, hintent, hchanges, hplanned⟩ := h.intent_of_row hrow
    rw [hplanned.destination_key, hplanned.destination,
      RenameIntent.pathLeaf_destination (h.names _ hintent hchanges)]
  destination_source := h.destination_source

namespace Frozen

variable {row : PlanRow}

theorem parent_source (h : Frozen V o plan) (hrow : row ∈ plan.entries) :
    V.parent row.source = row.sourceSnapshot.parent := by
  have hsnapshot := ((h.source row hrow).exact_path rfl).1
  exact (congrArg PathSnapshot.parent hsnapshot).symm

theorem parent_destination (h : Frozen V o plan) (hrow : row ∈ plan.entries) :
    V.parent row.destination = row.destinationSnapshot.parent :=
  (congrArg PathSnapshot.parent (h.destination row hrow)).symm

end Frozen

theorem CheckedPlan.key_destination (h : CheckedPlan V plan) (hfrozen : Frozen V o plan)
    {row : PlanRow} (hrow : row ∈ plan.entries) :
    row.destinationEntryKey = V.key row.destination := by
  rw [h.destination_key row hrow, ← hfrozen.parent_destination hrow, Volume.key]

theorem CheckedPlan.source_occupied (h : CheckedPlan V plan) (hfrozen : Frozen V o plan)
    {row : PlanRow} (hrow : row ∈ plan.entries) : ∃ identity,
      row.sourceSnapshot.entry = some ⟨identity, row.kind, false⟩ ∧
        o row.sourceEntryKey = some identity ∧ V.kind identity = row.kind ∧
        V.isReparsePoint identity = false := by
  obtain ⟨identity, hentry⟩ := h.source_entry row hrow
  have hoccupant := (hfrozen.source row hrow).occupant _ rfl
  rw [hentry, Volume.observed, Option.map_eq_some_iff] at hoccupant
  obtain ⟨occupant, ho, hsource⟩ := hoccupant
  obtain ⟨rfl, hkind, hreparse⟩ := ObservedEntry.mk.inj hsource
  exact ⟨occupant, hentry, ho, hkind, hreparse⟩

/-- A checked plan whose endpoints are frozen fits the occupancy. -/
theorem CheckedPlan.schedulable (h : CheckedPlan V plan) (hfrozen : Frozen V o plan) :
    Schedulable plan o where
  sources_nodup := h.sources_nodup
  destinations_nodup := h.destinations_nodup
  source_occupied row hrow := by
    obtain ⟨identity, hentry, ho, -, -⟩ := h.source_occupied hfrozen hrow
    exact ⟨_, hentry, ho⟩
  destination_free row hrow hoccupied := by
    refine h.destination_source row hrow ?_
    rw [hfrozen.destination row hrow, Volume.snapshot, Volume.observed, Option.isSome_map,
      ← h.key_destination hfrozen hrow]
    exact Option.isSome_iff_ne_none.2 hoccupied

namespace Executor

variable {env : Environment (World VolumeState) Call Answer} {s : World VolumeState}

theorem checks_freezeSource (h : V.Admits env s) (row : PlanRow) :
    Checks env (freezeSource row) s
      (fun _ => V.Resolves s.backend row.source
        ⟨row.source, row.sourceSnapshot, some row.sourceEntryKey⟩) fun _ => True := by
  refine Checks.bind (h.checks_of_tries (observes_reads tries_checkCancelled)) fun _ _ => ?_
  refine Checks.bind (Checks.lift (h.reads_resolveSource _)) fun answer hanswer => ?_
  cases answer with
  | error error => exact Checks.throw trivial
  | ok current =>
      have hresolves := hanswer current rfl
      refine Checks.bind (h.checks_of_tries (observes_reads tries_checkCancelled)) fun _ _ => ?_
      split
      · exact Checks.throw trivial
      · next hparent =>
          split
          · exact Checks.throw trivial
          · next hsame =>
              simp only [not_or, not_not] at hparent hsame
              obtain ⟨hentry, hpath, hkey⟩ := hsame
              split
              · exact Checks.throw trivial
              · refine Checks.pure ?_
                have hcurrent : current =
                    ⟨row.source, row.sourceSnapshot, some row.sourceEntryKey⟩ := by
                  obtain ⟨path, ⟨parent, entry⟩, key⟩ := current
                  simp only at hparent hentry hpath hkey
                  rw [hpath, hkey, hparent, hentry]
                rwa [← hcurrent]

theorem checks_freezeDestination (h : V.Admits env s) (row : PlanRow) :
    Checks env (freezeDestination row) s
      (fun _ => row.destinationSnapshot = V.snapshot s.backend row.destination)
      fun _ => True := by
  refine Checks.bind (Checks.lift (h.reads_observe _)) fun answer hanswer => ?_
  cases answer with
  | error error => exact Checks.throw trivial
  | ok current =>
      have hcurrent := hanswer current rfl
      refine Checks.bind (h.checks_of_tries (observes_reads tries_checkCancelled)) fun _ _ => ?_
      split
      · exact Checks.throw trivial
      · next hparent =>
          split
          · exact Checks.throw trivial
          · next hentry =>
              refine Checks.pure ?_
              rw [← hcurrent]
              obtain ⟨parent, entry⟩ := current
              simp only [not_not] at hparent hentry
              rw [hparent, hentry]

theorem checks_freezeRows (h : V.Admits env s) (entries : List PlanRow) :
    Checks env (freezeRows entries) s
      (fun _ => ∀ row ∈ entries,
        V.Resolves s.backend row.source
          ⟨row.source, row.sourceSnapshot, some row.sourceEntryKey⟩ ∧
        row.destinationSnapshot = V.snapshot s.backend row.destination) fun _ => True := by
  induction entries with
  | nil => exact Checks.pure (by simp)
  | cons row entries ih =>
      refine Checks.bind (checks_freezeSource h row) fun _ hsource => ?_
      refine Checks.bind (checks_freezeDestination h row) fun _ hdestination => ?_
      refine ih.mono (fun _ hrest => ?_) fun _ => id
      intro other hother
      rcases List.mem_cons.1 hother with rfl | hother
      · exact ⟨hsource, hdestination⟩
      · exact hrest other hother

theorem authorized_of_authorizeSteps {schedule : List ScheduleStep}
    (h : authorizeSteps schedule = .ok ()) :
    ∀ step ∈ schedule, (forwardOperation step).authorizationError = none := by
  induction schedule with
  | nil => simp
  | cons step schedule ih =>
      rw [authorizeSteps] at h
      split at h
      · cases h
      · next hnone =>
          intro other hother
          rcases List.mem_cons.1 hother with rfl | hother
          · simpa using hnone
          · exact ih h other hother

theorem checks_freeze (h : V.Admits env s) (plan : RenamePlan) (schedule : List ScheduleStep)
    (indexed : IndexedEntryExecutions) :
    Checks env (freeze plan.entries schedule indexed) s
      (fun _ => Frozen V s.backend plan ∧
        ∀ step ∈ schedule, (forwardOperation step).authorizationError = none)
      fun _ => True := by
  refine Checks.bind (checks_freezeRows h _) fun _ hrows => ?_
  refine Checks.bind (h.checks_of_tries (observes_reads (tries_freezeTemporaries _ _ _))) fun _ _ =>
    ?_
  refine Checks.ofExcept ?_
  cases hauthorized : authorizeSteps schedule with
  | error error => trivial
  | ok _ =>
      exact ⟨⟨fun row hrow => (hrows row hrow).1, fun row hrow => (hrows row hrow).2⟩,
        authorized_of_authorizeSteps hauthorized⟩

/-- What a preparation that succeeds has established. -/
structure Prepared (V : Volume) (o : VolumeState) (plan : RenamePlan)
    (result : List ScheduleStep × List JournalStep × IndexedEntryExecutions) : Prop where
  frozen : Frozen V o plan
  scheduled : Schedule.Scheduled V plan o (Schedule.atDestination plan) result.1
  authorized : ∀ step ∈ result.1, (forwardOperation step).authorizationError = none
  manifest : result.2.1 = result.1.map journalStep
  entries : IndexedEntryExecutions.fromPlan plan.entries = .ok result.2.2

/-- Preparation establishes what the transaction needs. -/
theorem checks_prepare (hplan : CheckedPlan V plan) (s : World VolumeState) :
    Checks (engineEnv V.backendRel) (prepare plan) s (Prepared V s.backend plan)
      fun _ => True := by
  have h := V.admits_self s
  have hbuild : Checks (engineEnv V.backendRel) (buildSchedule plan) s
      (fun schedule => Schedulable plan s.backend →
        Schedule.Scheduled V plan s.backend (Schedule.atDestination plan) schedule)
      fun _ => True := by
    by_cases hfits : Schedulable plan s.backend
    · exact (checks_buildSchedule_volume s hfits).mono (fun _ hscheduled _ => hscheduled)
        fun _ _ => trivial
    · exact (h.checks_of_tries (observes_reads (Schedule.tries_buildSchedule plan))).mono
        (fun _ _ hfits' => absurd hfits' hfits) fun _ => id
  have hentries : Checks (engineEnv V.backendRel)
      (ExceptT.mk (pure (IndexedEntryExecutions.fromPlan plan.entries))) s
      (fun indexed => IndexedEntryExecutions.fromPlan plan.entries = .ok indexed)
      fun _ => True := by
    refine Checks.ofExcept ?_
    cases IndexedEntryExecutions.fromPlan plan.entries with
    | error error => trivial
    | ok indexed => rfl
  refine Checks.bind (h.checks_of_tries (observes_reads tries_checkCancelled)) fun _ _ => ?_
  refine Checks.bind hentries fun indexed hindexed => ?_
  refine Checks.bind (hbuild.mapError scheduleError fun _ => id) fun schedule hschedule => ?_
  refine Checks.bind (h.checks_of_tries (Tries.ofExcept fun _ _ => trivial)) fun _ _ => ?_
  refine Checks.bind (h.checks_of_tries (observes_reads (tries_buildManifest schedule)))
    fun manifest hmanifest => ?_
  refine Checks.bind (h.checks_of_tries (Tries.ofExcept fun _ _ => trivial)) fun _ _ => ?_
  refine Checks.bind (checks_freeze h plan schedule indexed) fun _ hfreeze => ?_
  obtain ⟨hfrozen, hauthorized⟩ := hfreeze
  refine Checks.bind (h.checks_of_tries (observes_reads tries_checkCancelled)) fun _ _ => ?_
  exact Checks.pure
    { frozen := hfrozen
      scheduled := hschedule (hplan.schedulable hfrozen)
      authorized := hauthorized
      manifest := hmanifest
      entries := hindexed }

end Executor

end DarkReNamer
