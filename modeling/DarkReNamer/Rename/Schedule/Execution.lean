import DarkReNamer.Rename.Schedule.Correct

/-!
# Executing a schedule

The steps of a schedule as moves between entry keys. Over a volume, a schedule that
the builder returns can be executed step by step from the occupancy it was built
for, and it ends in the occupancy the plan asks for.
-/

namespace DarkReNamer

open Std Interaction Occupancy Schedule

/-- The move of a step, by the keys of its row and of its temporary path. -/
inductive StepMoves (V : Volume) (plan : RenamePlan) : ScheduleStep → KeyMove → Prop where
  | straight (row : PlanRow) (hrow : row ∈ plan.entries) (identity : EntryIdentity)
      (hidentity : sourceIdentity row = .ok identity) :
      StepMoves V plan (straightStep row identity plan.scope)
        ⟨row.sourceEntryKey, row.destinationEntryKey, identity⟩
  | intoTemporary (row : PlanRow) (hrow : row ∈ plan.entries) (temporary : LegacyText)
      (identity : EntryIdentity) (hidentity : sourceIdentity row = .ok identity) :
      StepMoves V plan (intoTemporaryStep row temporary identity plan.scope)
        ⟨row.sourceEntryKey, V.entryKey row.sourceSnapshot.parent (pathLeaf temporary),
          identity⟩
  | fromTemporary (row : PlanRow) (hrow : row ∈ plan.entries) (temporary : LegacyText)
      (identity : EntryIdentity) (hidentity : sourceIdentity row = .ok identity) :
      StepMoves V plan (fromTemporaryStep row temporary identity plan.scope)
        ⟨V.entryKey row.sourceSnapshot.parent (pathLeaf temporary), row.destinationEntryKey,
          identity⟩

variable {V : Volume} {plan : RenamePlan} {o : VolumeState}

theorem stepMoves_of_relocates (hplan : Schedulable plan o)
    {standing : plan.Row → Standing} {step : ScheduleStep} {i : plan.Row} {next : Standing}
    (h : Relocates V plan o standing step i next) :
    StepMoves V plan step
      (relocate plan.identity (places V plan standing) i (next.key V plan i)) := by
  have hrow := row_mem i
  have hidentity := sourceIdentity_eq hplan i
  cases h with
  | straight _ hstanding =>
      rw [relocate, places, hstanding]
      exact .straight _ hrow _ hidentity
  | intoTemporary _ temporary hstanding htemporary =>
      rw [relocate, places, hstanding]
      exact .intoTemporary _ hrow _ _ hidentity
  | fromTemporary _ temporary hstanding htemporary =>
      rw [relocate, places, hstanding]
      exact .fromTemporary _ hrow _ _ hidentity

/-- The moves of a list of relocations. -/
def relocationMoves (V : Volume) (plan : RenamePlan) (standing : plan.Row → Standing)
    (rs : List (plan.Row × Standing)) : List KeyMove :=
  relocations plan.identity (places V plan standing) (relocatedKeys V plan rs)

theorem stepMoves_of_follows (hplan : Schedulable plan o) {standing : plan.Row → Standing}
    {steps : List ScheduleStep} {rs : List (plan.Row × Standing)}
    (h : Follows V plan o standing steps rs) :
    List.Forall₂ (StepMoves V plan) steps (relocationMoves V plan standing rs) := by
  induction steps generalizing standing rs with
  | nil =>
      cases rs with
      | nil => exact .nil
      | cons r rs => exact h.elim
  | cons step steps ih =>
      cases rs with
      | nil => exact h.elim
      | cons r rs =>
          have hrest := ih h.2
          rw [relocationMoves, places_update] at hrest
          exact .cons (stepMoves_of_relocates hplan h.1) hrest

/-- The temporary key of a step that opens a cycle is free before and after. -/
theorem temporary_of_follows {standing : plan.Row → Standing}
    {steps : List ScheduleStep} {rs : List (plan.Row × Standing)}
    (h : Follows V plan o standing steps rs) {step : ScheduleStep} (hstep : step ∈ steps)
    (hphase : step.temporaryPhase = .intoTemporary) :
    ∃ i temporary, IsTemporary V plan o i temporary ∧ step.destination = temporary ∧
      step.destinationParent = (plan.row i).sourceSnapshot.parent := by
  induction steps generalizing standing rs with
  | nil => simp at hstep
  | cons first steps ih =>
      cases rs with
      | nil => exact h.elim
      | cons r rs =>
          rcases List.mem_cons.1 hstep with rfl | hstep
          · obtain ⟨i, b⟩ := r
            cases h.1 with
            | straight _ hstanding => cases hphase
            | intoTemporary _ temporary hstanding htemporary =>
                exact ⟨i, temporary, htemporary, rfl, rfl⟩
            | fromTemporary _ temporary hstanding htemporary => cases hphase
          · exact ih h.2 hstep

theorem simultaneous_of_not_key {key : PathKey}
    (h : ∀ row ∈ plan.entries, row.sourceEntryKey ≠ key ∧ row.destinationEntryKey ≠ key) :
    plan.simultaneous o key = o key := by
  unfold RenamePlan.simultaneous
  cases hfind : plan.entries.find? fun row => row.destinationEntryKey == key with
  | some row =>
      exact absurd (eq_of_beq (List.find?_some hfind :))
        (h row (List.mem_of_find?_eq_some hfind)).2
  | none =>
      refine if_neg ?_
      intro hmem
      obtain ⟨row, hrow, hkey⟩ := List.mem_map.1 hmem
      exact (h row hrow).1 hkey

theorem Schedule.IsTemporary.simultaneous_eq_none {i : plan.Row} {temporary : LegacyText}
    (h : IsTemporary V plan o i temporary) :
    plan.simultaneous o (temporaryKey V plan i temporary) = none := by
  refine (simultaneous_of_not_key fun row hrow => ?_).trans h.free
  obtain ⟨j, rfl⟩ := exists_row hrow
  exact ⟨h.ne_source j, h.ne_destination j⟩

/-- A schedule that takes every row to its destination executes the plan. After the
first `k` moves the rows are where the first `k` relocations leave them. -/
theorem Schedule.Scheduled.execute (hplan : Schedulable plan o) {steps : List ScheduleStep}
    (h : Scheduled V plan o (atDestination plan) steps) :
    ∃ rs, Follows V plan o (atSource plan) steps rs ∧
      placesAfter (atSource plan) rs = atDestination plan ∧
      Executable o (relocationMoves V plan (atSource plan) rs) ∧
      (∀ k, Placed (plan.rest o) plan.identity
        (places V plan (placesAfter (atSource plan) (rs.take k)))
        (afterMoves o ((relocationMoves V plan (atSource plan) rs).take k))) ∧
      afterMoves o (relocationMoves V plan (atSource plan) rs) = plan.simultaneous o := by
  obtain ⟨rs, hfollows, hadmissible, hstanding⟩ := h
  have hplaced := placed_source hplan
  have hinjective := sourceKey_injective hplan
  obtain ⟨hexecutable, hlast⟩ := hplaced.executable hinjective hadmissible
  refine ⟨rs, hfollows, hstanding, hexecutable, fun k => ?_, ?_⟩
  · have hprefix : Admissible (plan.rest o) plan.sourceKey
        (relocatedKeys V plan (rs.take k)) := by
      rw [← List.take_append_drop k rs, relocatedKeys, List.map_append] at hadmissible
      exact (admissible_append.1 hadmissible).1
    have htake : relocatedKeys V plan (rs.take k) = (relocatedKeys V plan rs).take k :=
      List.map_take
    rw [← placesAfter_relocatedKeys, relocationMoves, relocations_take, ← htake]
    exact (hplaced.executable hinjective hprefix).2
  · rw [show plan.sourceKey = places V plan (atSource plan) from rfl,
      placesAfter_relocatedKeys, hstanding] at hlast
    exact hlast.unique (placed_destination hplan)

/-- Over a volume the reads of the builder are truthful, whatever they answer. -/
theorem probes_volume (s : World VolumeState) :
    Probes V s.backend (engineEnv V.backendRel) s fun error => error ≠ .invalid where
  polls a t step := ⟨step, fun _ => by simp⟩
  nonce a t step := by
    obtain ⟨h₁, h₂⟩ := step
    cases t
    cases h₁
    cases h₂
    exact ⟨rfl, fun _ _ => by simp⟩
  key parent leaf a t step := by
    obtain ⟨h₁, h₂⟩ := step
    cases t
    cases h₂
    cases a with
    | error error =>
        cases h₁
        exact ⟨rfl, by simp [ExceptPost]⟩
    | ok key =>
        obtain ⟨hkey, hbackend⟩ := h₁
        cases hbackend
        exact ⟨rfl, hkey⟩
  observe path a t step := by
    obtain ⟨h₁, h₂⟩ := step
    cases t
    cases h₂
    cases a with
    | error error =>
        cases h₁
        exact ⟨rfl, by simp [ExceptPost]⟩
    | ok snapshot =>
        obtain ⟨hsnapshot, hbackend⟩ := h₁
        cases hbackend
        exact ⟨rfl, hsnapshot⟩

/-- Over a volume the builder schedules a plan that fits the occupancy, or refuses it
for another reason than an invalid plan. -/
theorem checks_buildSchedule_volume (s : World VolumeState)
    (hplan : Schedulable plan s.backend) :
    Checks (engineEnv V.backendRel) (buildSchedule plan) s
      (Scheduled V plan s.backend (atDestination plan)) fun error => error ≠ .invalid := by
  have hprobes := probes_volume (V := V) s
  refine checks_buildSchedule hprobes.polls hplan fun i reserved _ => ?_
  exact checks_uniqueTemporaryPath hprobes reserved (fun _ _ _ => by simp)
    (fun _ _ => by simp)

section Sample

/-! A plan to run the programs on. -/

/-- The directory of the sample plans. -/
def sampleParent : EntryIdentity := ⟨1, 1⟩

def sampleRow (id : UInt32) (file : BitVec 128) (source destination : String)
    (occupant : Option (BitVec 128)) : PlanRow :=
  { id := ⟨id⟩
    source := .ofAscii ("C:\\w\\" ++ source)
    destination := .ofAscii ("C:\\w\\" ++ destination)
    kind := .file
    sourceSnapshot := ⟨sampleParent, some ⟨⟨1, file⟩, .file, false⟩⟩
    destinationSnapshot := ⟨sampleParent, occupant.map fun file => ⟨⟨1, file⟩, .file, false⟩⟩
    sourceEntryKey := flatKey sampleParent (.ofAscii source)
    destinationEntryKey := flatKey sampleParent (.ofAscii destination) }

/-- Two files that change names. -/
def swapPlan : RenamePlan :=
  ⟨⟨7⟩, ⟨1⟩, [sampleRow 0 2 "a" "b" (some 3), sampleRow 1 3 "b" "a" (some 2)], .sameParent⟩

def swapState : VolumeState := fun key =>
  if key = flatKey sampleParent (.ofAscii "a") then some ⟨1, 2⟩
  else if key = flatKey sampleParent (.ofAscii "b") then some ⟨1, 3⟩
  else none

theorem swapPlan_schedulable : Schedulable swapPlan swapState where
  sources_nodup := by decide
  destinations_nodup := by decide
  source_occupied row hrow := by
    simp only [swapPlan, List.mem_cons, List.not_mem_nil, or_false] at hrow
    rcases hrow with rfl | rfl
    · exact ⟨_, rfl, by decide⟩
    · exact ⟨_, rfl, by decide⟩
  destination_free := by decide

end Sample

/-- Schedule correctness: whenever the builder returns a schedule, its steps, executed
in order, find their entry at the source and a free key at the destination, and lead
to the simultaneous map of the plan; the temporary keys are empty again and every key
outside the plan is untouched. -/
theorem schedule_correct (V : Volume) (plan : RenamePlan) (s t : World VolumeState)
    (hplan : Schedulable plan s.backend) {trace : List EngineEvent}
    {schedule : List ScheduleStep}
    (run : Runs (engineEnv V.backendRel) (buildSchedule plan).run s trace
      (some (.ok schedule)) t) :
    t = s ∧ ∃ moves, List.Forall₂ (StepMoves V plan) schedule moves ∧
      Executable s.backend moves ∧
      afterMoves s.backend moves = plan.simultaneous s.backend ∧
      (∀ row ∈ plan.entries, ∃ source, row.sourceSnapshot.entry = some source ∧
        plan.simultaneous s.backend row.destinationEntryKey = some source.identity) ∧
      (∀ row ∈ plan.entries,
        (∀ other ∈ plan.entries, other.destinationEntryKey ≠ row.sourceEntryKey) →
          plan.simultaneous s.backend row.sourceEntryKey = none) ∧
      (∀ step ∈ schedule, step.temporaryPhase = .intoTemporary →
        plan.simultaneous s.backend
          (V.entryKey step.destinationParent (pathLeaf step.destination)) = none) ∧
      ∀ key, (∀ row ∈ plan.entries,
          row.sourceEntryKey ≠ key ∧ row.destinationEntryKey ≠ key) →
        plan.simultaneous s.backend key = s.backend key := by
  obtain ⟨-, hpost⟩ := Spec.sound (checks_buildSchedule_volume s hplan) run
  obtain ⟨rfl, hscheduled⟩ := hpost _ rfl
  obtain ⟨rs, hfollows, -, hexecutable, -, hsimultaneous⟩ :=
    Scheduled.execute hplan hscheduled
  refine ⟨rfl, _, stepMoves_of_follows hplan hfollows, hexecutable, hsimultaneous, ?_, ?_,
    ?_, fun key => simultaneous_of_not_key⟩
  · intro row hrow
    obtain ⟨i, rfl⟩ := exists_row hrow
    obtain ⟨source, hsource, -⟩ := hplan.source_occupied _ hrow
    refine ⟨source, hsource, ?_⟩
    have hidentity : plan.identity i = source.identity := by
      simp [RenamePlan.identity, hsource]
    rw [← hidentity]
    exact (placed_destination hplan).occupied i
  · intro row hrow hnone
    obtain ⟨i, rfl⟩ := exists_row hrow
    have hplaced := (placed_destination hplan).elsewhere (plan.sourceKey i) fun j =>
      hnone _ (row_mem j)
    exact hplaced.trans (rest_sourceKey i)
  · intro step hstep hphase
    obtain ⟨i, temporary, htemporary, rfl, hparent⟩ :=
      temporary_of_follows hfollows hstep hphase
    rw [hparent]
    exact htemporary.simultaneous_eq_none

/-- The builder breaks the swap with one temporary name. -/
theorem schedule_correct_swap : ∃ schedule : List ScheduleStep, schedule.length = 3 ∧
    ∃ moves, List.Forall₂ (StepMoves (flatVolume sampleParent) swapPlan) schedule moves ∧
      Executable swapState moves ∧
      afterMoves swapState moves = swapPlan.simultaneous swapState := by
  have hlength : (((buildSchedule swapPlan).run.run
      ((flatVolume sampleParent).ports 5).handler ⟨swapState, []⟩).1.toOption.map
        List.length) = some 3 := by decide +kernel
  obtain ⟨schedule, trace, hthree, run⟩ :=
    Runs.of_toOption ((flatVolume sampleParent).ports_allowed 5) hlength
  obtain ⟨-, moves, hmoves, hexecutable, hafter, -⟩ :=
    schedule_correct _ _ _ _ swapPlan_schedulable run
  exact ⟨schedule, hthree, moves, hmoves, hexecutable, hafter⟩

end DarkReNamer
