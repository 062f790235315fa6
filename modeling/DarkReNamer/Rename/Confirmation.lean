import DarkReNamer.Core.MachineInteger
import DarkReNamer.Rename.Executor.Prepare
import DarkReNamer.Rename.Planner.Sound
import DarkReNamer.Rename.Schedule.Cycles
import DarkReNamer.Workbench.Activation

/-!
# The summary that is confirmed

Before a plan is executed its changes are counted and shown. A row whose source and destination
have equivalent parents and the same leaf counts as no change, and then there is no summary at
all; every other plan has one, whose counts add up and whose temporary groups are its dependency
cycles.
-/

namespace DarkReNamer

open Interaction

namespace Executor

/-- Computes the journal resources of a plan without a mutation. -/
def preflightPlan (plan : RenamePlan) : ExceptT ExecuteError Engine JournalRequirements := do
  let schedule ← ExceptT.mk ((Except.mapError scheduleError) <$> (buildSchedule plan).run)
  let manifest ← buildManifest schedule
  checkCancelled
  let requirements ← ExceptT.mk (pure ((journalRequirements manifest).mapError fun error =>
    ⟨none, .journalCapacity error⟩))
  checkCancelled
  pure requirements

end Executor

/-- The parent and the leaf of a path; a separator after a colon belongs to the parent. -/
def splitWindowsPath (path : LegacyText) : List UInt16 × List UInt16 :=
  match rposition isSeparator path.units with
  | none => ([], path.units)
  | some index =>
      let parentEnd :=
        if 0 < index ∧ path.units[index - 1]? = some Planner.colon then index + 1 else index
      (path.units.take parentEnd, path.units.drop (index + 1))

/-- Counts shown before a plan is confirmed. -/
structure ApplyConfirmationSummary where
  logicalChanged : ℕ
  renameOnly : ℕ
  moveOnly : ℕ
  moveAndRename : ℕ
  commonDestinationParent : Option LegacyText
  caseOnly : ℕ
  temporaryGroups : ℕ
  primitiveSteps : ℕ
  deriving DecidableEq, Repr

/-- The variables of the count. -/
structure ChangeCounts where
  renameOnly : ℕ
  moveOnly : ℕ
  moveAndRename : ℕ
  caseOnly : ℕ
  commonDestinationParent : Option LegacyText
  destinationParentsMatch : Bool
  deriving DecidableEq, Repr

namespace ApplyConfirmationSummary

/-- A row that is neither moved nor renamed is not counted. -/
def countChange (counts : ChangeCounts) : (moved renamed : Bool) → Option ChangeCounts
  | false, true => some { counts with renameOnly := counts.renameOnly + 1 }
  | true, false => some { counts with moveOnly := counts.moveOnly + 1 }
  | true, true => some { counts with moveAndRename := counts.moveAndRename + 1 }
  | false, false => none

def countCase (counts : ChangeCounts) (equivalent : Bool) : ChangeCounts :=
  if equivalent then { counts with caseOnly := counts.caseOnly + 1 } else counts

def countParent (counts : ChangeCounts) (destinationParent : LegacyText) : ChangeCounts :=
  match counts.commonDestinationParent with
  | none => { counts with commonDestinationParent := some destinationParent }
  | some common =>
      if common = destinationParent then counts
      else { counts with destinationParentsMatch := false }

def countRow (pathsEquivalent : LegacyText → LegacyText → Bool) (counts : ChangeCounts)
    (row : PlanRow) : Option ChangeCounts := do
  let source := splitWindowsPath row.source
  let destination := splitWindowsPath row.destination
  let moved := !pathsEquivalent ⟨source.1⟩ ⟨destination.1⟩
  let renamed := source.2 != destination.2
  let counts ← countChange counts moved renamed
  let counts := countCase counts (pathsEquivalent row.source row.destination)
  some (countParent counts ⟨destination.1⟩)

/-- Builds a summary only when the scheduler counts are internally consistent. -/
def fromCounts (renameOnly moveOnly moveAndRename : ℕ)
    (commonDestinationParent : Option LegacyText) (caseOnly primitiveSteps : ℕ) :
    Option ApplyConfirmationSummary := do
  let logicalChanged ← checkedAdd usizeMax renameOnly moveOnly
  let logicalChanged ← checkedAdd usizeMax logicalChanged moveAndRename
  if caseOnly > logicalChanged ∨ primitiveSteps < logicalChanged then none
  else
    some
      { logicalChanged
        renameOnly
        moveOnly
        moveAndRename
        commonDestinationParent
        caseOnly
        temporaryGroups := primitiveSteps - logicalChanged
        primitiveSteps }

/-- Summarizes one plan by the path equivalence of the backend. -/
def fromPlan (plan : RenamePlan) (primitiveSteps : ℕ)
    (pathsEquivalent : LegacyText → LegacyText → Bool) : Option ApplyConfirmationSummary := do
  let counts ← plan.entries.foldlM (countRow pathsEquivalent) ⟨0, 0, 0, 0, none, true⟩
  fromCounts counts.renameOnly counts.moveOnly counts.moveAndRename
    (if counts.destinationParentsMatch then counts.commonDestinationParent else none)
    counts.caseOnly primitiveSteps

/-! ### Counting -/

/-- Equivalent parents and the same leaf. -/
def KeepsPlace (pathsEquivalent : LegacyText → LegacyText → Bool) (row : PlanRow) : Prop :=
  pathsEquivalent ⟨(splitWindowsPath row.source).1⟩ ⟨(splitWindowsPath row.destination).1⟩ ∧
    (splitWindowsPath row.source).2 = (splitWindowsPath row.destination).2

instance (pathsEquivalent : LegacyText → LegacyText → Bool) (row : PlanRow) :
    Decidable (KeepsPlace pathsEquivalent row) :=
  inferInstanceAs (Decidable (_ ∧ _))

/-- The rows counted so far. -/
def changes (counts : ChangeCounts) : ℕ :=
  counts.renameOnly + counts.moveOnly + counts.moveAndRename

variable {pathsEquivalent : LegacyText → LegacyText → Bool}

theorem countRow_eq_none {counts : ChangeCounts} {row : PlanRow}
    (h : KeepsPlace pathsEquivalent row) : countRow pathsEquivalent counts row = none := by
  obtain ⟨hparent, hleaf⟩ := h
  simp [countRow, hparent, hleaf, countChange]

theorem countParent_counts (counts : ChangeCounts) (parent : LegacyText) :
    changes (countParent counts parent) = changes counts ∧
      (countParent counts parent).caseOnly = counts.caseOnly := by
  unfold countParent
  split
  · exact ⟨rfl, rfl⟩
  · split <;> exact ⟨rfl, rfl⟩

theorem countCase_counts (counts : ChangeCounts) (equivalent : Bool) :
    changes (countCase counts equivalent) = changes counts ∧
      (countCase counts equivalent).caseOnly ≤ counts.caseOnly + 1 := by
  cases equivalent with
  | false => exact ⟨rfl, Nat.le_succ _⟩
  | true => exact ⟨rfl, Nat.le_refl _⟩

theorem exists_countChange (counts : ChangeCounts) {moved renamed : Bool}
    (h : moved = true ∨ renamed = true) :
    ∃ counts', countChange counts moved renamed = some counts' ∧
      changes counts' = changes counts + 1 ∧ counts'.caseOnly = counts.caseOnly := by
  cases moved with
  | false =>
      obtain rfl : renamed = true := by simpa using h
      exact ⟨_, rfl, by simp only [changes]; omega, rfl⟩
  | true =>
      cases renamed with
      | false => exact ⟨_, rfl, by simp only [changes]; omega, rfl⟩
      | true => exact ⟨_, rfl, by simp only [changes]; omega, rfl⟩

theorem exists_countRow (counts : ChangeCounts) {row : PlanRow}
    (h : ¬ KeepsPlace pathsEquivalent row) :
    ∃ counts', countRow pathsEquivalent counts row = some counts' ∧
      changes counts' = changes counts + 1 ∧ counts'.caseOnly ≤ counts.caseOnly + 1 := by
  have hchanged : (!pathsEquivalent ⟨(splitWindowsPath row.source).1⟩
        ⟨(splitWindowsPath row.destination).1⟩) = true ∨
      ((splitWindowsPath row.source).2 != (splitWindowsPath row.destination).2) = true := by
    rw [Bool.not_eq_true', bne_iff_ne, ← Bool.not_eq_true, ← not_and_or]
    exact h
  obtain ⟨counts₁, hcounts₁, hchanges₁, hcase₁⟩ := exists_countChange counts hchanged
  obtain ⟨hchanges₂, hcase₂⟩ := countCase_counts counts₁
    (pathsEquivalent row.source row.destination)
  obtain ⟨hchanges₃, hcase₃⟩ := countParent_counts
    (countCase counts₁ (pathsEquivalent row.source row.destination))
    ⟨(splitWindowsPath row.destination).1⟩
  refine ⟨_, Option.bind_eq_some_iff.2 ⟨counts₁, hcounts₁, rfl⟩, by omega, by omega⟩

/-- The rows are counted when none keeps its place. -/
theorem foldlM_countRow (pathsEquivalent : LegacyText → LegacyText → Bool)
    (rows : List PlanRow) (counts : ChangeCounts) :
    (∀ counts', rows.foldlM (countRow pathsEquivalent) counts = some counts' →
      changes counts' = changes counts + rows.length ∧
        counts'.caseOnly ≤ counts.caseOnly + rows.length) ∧
    ((∃ counts', rows.foldlM (countRow pathsEquivalent) counts = some counts') ↔
      ∀ row ∈ rows, ¬ KeepsPlace pathsEquivalent row) := by
  induction rows generalizing counts with
  | nil => simp
  | cons row rows ih =>
      rw [List.foldlM_cons]
      by_cases hrow : KeepsPlace pathsEquivalent row
      · rw [countRow_eq_none hrow]
        simp [hrow]
      · obtain ⟨counts₁, hcounts₁, hchanges₁, hcase₁⟩ := exists_countRow counts hrow
        obtain ⟨hlater, hiff⟩ := ih counts₁
        rw [hcounts₁, Option.bind_eq_bind, Option.bind_some]
        refine ⟨fun counts' hcounts' => ?_, hiff.trans ?_⟩
        · obtain ⟨hchanges, hcase⟩ := hlater counts' hcounts'
          rw [List.length_cons]
          omega
        · simp [hrow]

theorem fromCounts_eq_some {renameOnly moveOnly moveAndRename caseOnly primitiveSteps : ℕ}
    (common : Option LegacyText) (hmax : renameOnly + moveOnly + moveAndRename ≤ usizeMax)
    (hcase : caseOnly ≤ renameOnly + moveOnly + moveAndRename)
    (hsteps : renameOnly + moveOnly + moveAndRename ≤ primitiveSteps) :
    fromCounts renameOnly moveOnly moveAndRename common caseOnly primitiveSteps =
      some ⟨renameOnly + moveOnly + moveAndRename, renameOnly, moveOnly, moveAndRename, common,
        caseOnly, primitiveSteps - (renameOnly + moveOnly + moveAndRename), primitiveSteps⟩ := by
  have h₁ : checkedAdd usizeMax renameOnly moveOnly = some (renameOnly + moveOnly) :=
    checkedAdd_eq_some.2 ⟨by omega, rfl⟩
  have h₂ : checkedAdd usizeMax (renameOnly + moveOnly) moveAndRename =
      some (renameOnly + moveOnly + moveAndRename) := checkedAdd_eq_some.2 ⟨hmax, rfl⟩
  simp only [fromCounts, h₁, h₂, Option.bind_eq_bind, Option.bind_some]
  exact if_neg (by omega)

/-- The counts of a summary are those of the plan. -/
structure Confirms (plan : RenamePlan) (summary : ApplyConfirmationSummary) : Prop where
  counts : summary.renameOnly + summary.moveOnly + summary.moveAndRename = plan.entries.length
  caseOnly : summary.caseOnly ≤ plan.entries.length
  temporaryGroups : summary.temporaryGroups = (Schedule.dependencyCycles plan).ncard

/-- A plan whose steps are counted has a summary exactly when every row changes its place. -/
theorem exists_fromPlan_iff {plan : RenamePlan} {steps : ℕ}
    (hmax : plan.entries.length ≤ usizeMax)
    (hsteps : steps = plan.entries.length + (Schedule.dependencyCycles plan).ncard) :
    (∃ summary, fromPlan plan steps pathsEquivalent = some summary ∧ Confirms plan summary) ↔
      ∀ row ∈ plan.entries, ¬ KeepsPlace pathsEquivalent row := by
  obtain ⟨hcounts, hiff⟩ := foldlM_countRow pathsEquivalent plan.entries
    ⟨0, 0, 0, 0, none, true⟩
  rw [← hiff]
  constructor
  · rintro ⟨summary, hsummary, -⟩
    obtain ⟨counts, hfold, -⟩ := Option.bind_eq_some_iff.1 hsummary
    exact ⟨counts, hfold⟩
  · rintro ⟨counts, hfold⟩
    obtain ⟨hchanges, hcase⟩ := hcounts counts hfold
    simp only [changes] at hchanges hcase
    have hsum : counts.renameOnly + counts.moveOnly + counts.moveAndRename =
        plan.entries.length := by omega
    have hle : counts.renameOnly + counts.moveOnly + counts.moveAndRename ≤ steps := by omega
    have hsome := fromCounts_eq_some
      (if counts.destinationParentsMatch then counts.commonDestinationParent else none)
      (hsum ▸ hmax) (hsum ▸ (by omega) : counts.caseOnly ≤ _) hle
    have hcaseOnly : counts.caseOnly ≤ plan.entries.length := by omega
    have hgroups : steps - (counts.renameOnly + counts.moveOnly + counts.moveAndRename) =
        (Schedule.dependencyCycles plan).ncard := by omega
    exact ⟨_, Option.bind_eq_some_iff.2 ⟨counts, hfold, hsome⟩, hsum, hcaseOnly, hgroups⟩

/-! ### Plans -/

/-- The identifiers of a plan are 32-bit numbers. -/
theorem length_le_of_ids_nodup {plan : RenamePlan} (h : (plan.entries.map PlanRow.id).Nodup) :
    plan.entries.length ≤ usizeMax := by
  have hvalues : (plan.entries.map fun row => row.id.value.toNat).Nodup := by
    have hmap : (plan.entries.map fun row => row.id.value.toNat) =
        (plan.entries.map PlanRow.id).map fun id => id.value.toNat := by
      rw [List.map_map]
      rfl
    rw [hmap]
    refine h.map fun id id' heq => ?_
    cases id
    cases id'
    exact congrArg EntryId.mk (UInt32.toNat.inj heq)
  have hsub : (plan.entries.map fun row => row.id.value.toNat) ⊆ List.range (2 ^ 32) := by
    intro n hn
    obtain ⟨row, -, rfl⟩ := List.mem_map.1 hn
    exact List.mem_range.2 row.id.value.toNat_lt
  have hle := (hvalues.subperm hsub).length_le
  rw [List.length_map, List.length_range] at hle
  exact hle.trans (by decide)

/-- What the preflight reports are the steps of the schedule. -/
theorem checks_preflightPlan {V : Volume} {plan : RenamePlan} (s : World VolumeState)
    (hplan : Schedulable plan s.backend) :
    Checks (engineEnv V.backendRel) (Executor.preflightPlan plan) s
      (fun requirements => requirements.primitiveSteps =
        plan.entries.length + (Schedule.dependencyCycles plan).ncard) fun _ => True := by
  have h := V.admits_self s
  have hprobes := probes_volume (V := V) s
  have hbuild : Checks (engineEnv V.backendRel) (buildSchedule plan) s
      (fun schedule => schedule.length =
        plan.entries.length + (Schedule.dependencyCycles plan).ncard) fun _ => True :=
    Schedule.checks_buildSchedule_counted (fun a t step => ⟨(hprobes.polls a t step).1,
      fun _ => trivial⟩) hplan fun i reserved _ =>
        (Schedule.checks_uniqueTemporaryPath hprobes reserved (fun _ _ _ => by simp)
          fun _ _ => by simp).mono (fun _ => id) fun _ _ => trivial
  refine Checks.bind (hbuild.mapError scheduleError fun _ => id) fun schedule hsteps => ?_
  refine Checks.bind (h.checks_of_tries (observes_reads (Executor.tries_buildManifest schedule)))
    fun manifest hmanifest => ?_
  refine Checks.bind (h.checks_of_tries (observes_reads Executor.tries_checkCancelled)) fun _ _ =>
    ?_
  have hrequirements : ExceptPost (fun requirements : JournalRequirements =>
      requirements.primitiveSteps = manifest.length) (fun _ => True)
      ((journalRequirements manifest).mapError fun error =>
        (⟨none, .journalCapacity error⟩ : ExecuteError)) := by
    unfold journalRequirements
    split
    · trivial
    · split
      · trivial
      · rfl
  refine Checks.bind (Checks.ofExcept hrequirements) fun requirements hlength => ?_
  refine Checks.bind (h.checks_of_tries (observes_reads Executor.tries_checkCancelled)) fun _ _ =>
    ?_
  refine Checks.pure ?_
  rw [hlength, hmanifest, List.length_map, hsteps]

/-- A plan the planner makes is confirmed exactly when none of its rows keeps its place: then
there is a summary, its counts are those of the rows, and its temporary groups are the
dependency cycles. -/
theorem fromPlan_confirms (V : Volume) (pathKey : LegacyText → PathKey) (request : PlanRequest)
    (plan : RenamePlan) (requirements : JournalRequirements) (s t u : World VolumeState)
    {planned preflight : List EngineEvent}
    (hplan : Runs (engineEnv V.backendRel) (Planner.planCancellable request).run s planned
      (some (.ok plan)) t)
    (hpreflight : Runs (engineEnv V.backendRel) (Executor.preflightPlan plan).run t preflight
      (some (.ok requirements)) u) :
    (∃ summary, fromPlan plan requirements.primitiveSteps
        (fun source destination => pathKey source == pathKey destination) = some summary ∧
      Confirms plan summary) ↔
      ∀ row ∈ plan.entries,
        ¬ KeepsPlace (fun source destination => pathKey source == pathKey destination) row := by
  obtain ⟨-, hpost⟩ := Spec.sound (Planner.checks_planCancellable (V.admits_self s) request) hplan
  obtain ⟨rfl, hplanned⟩ := hpost _ rfl
  obtain ⟨-, hpost⟩ := Spec.sound (checks_preflightPlan _ hplanned.schedulable) hpreflight
  obtain ⟨-, hsteps⟩ := hpost _ rfl
  exact exists_fromPlan_iff (length_le_of_ids_nodup hplanned.ids_nodup) hsteps

/-! ### Sample plans -/

/-- Paths without regard to the case of their ASCII letters. -/
def lowerKey (path : LegacyText) : PathKey :=
  ⟨path.units.map fun unit => if 65 ≤ unit ∧ unit ≤ 90 then unit + 32 else unit⟩

def sampleEquivalent (source destination : LegacyText) : Bool :=
  lowerKey source == lowerKey destination

/-- One file, with a name and a destination parent proposed for it. -/
def sampleItem (name parent proposed : String) : LegacyListItem :=
  { LegacyListItem.newWithActualSize (.ofAscii ("C:\\w\\" ++ name)) false 0 0 0 0 with
    destinationParent := .ofAscii parent
    proposedName := .ofAscii proposed }

/-- The parent is to be spelled in another case. -/
def respelledParent : PlanRequest :=
  buildPlanRequest ⟨[sampleItem "a" "C:\\W" "a"], 6, 7, 0, 0⟩ ⟨1⟩

/-- Two names are exchanged. -/
def exchangedNames : PlanRequest :=
  buildPlanRequest ⟨[sampleItem "a" "C:\\w" "b", sampleItem "b" "C:\\w" "a"], 12, 14, 0, 0⟩ ⟨1⟩

/-- What a program returns in the sample directory when no call fails. -/
def sampleResult {ε α : Type} (p : ExceptT ε Engine α) : Option α :=
  (p.run.run ((flatVolume sampleParent).ports 5).handler ⟨swapState, []⟩).1.toOption

/-- The preflight runs where the planner has run. -/
theorem exists_sampleRuns {β : Type} {request : PlanRequest} {f : RenamePlan → β} {b : β}
    {steps : ℕ} (hplan : (sampleResult (Planner.planCancellable request)).map f = some b)
    (hsteps : ((sampleResult (Planner.planCancellable request)).bind fun plan =>
      (sampleResult (Executor.preflightPlan plan)).map JournalRequirements.primitiveSteps) =
        some steps) :
    ∃ plan requirements planned preflight t u, f plan = b ∧
      requirements.primitiveSteps = steps ∧
      Runs (engineEnv (flatVolume sampleParent).backendRel) (Planner.planCancellable request).run
        ⟨swapState, []⟩ planned (some (.ok plan)) t ∧
      Runs (engineEnv (flatVolume sampleParent).backendRel) (Executor.preflightPlan plan).run t
        preflight (some (.ok requirements)) u := by
  have hallowed := (flatVolume sampleParent).ports_allowed 5
  obtain ⟨plan, hresult, hf⟩ := Option.map_eq_some_iff.1 hplan
  have hsame : (sampleResult (Planner.planCancellable request)).map id = some plan := by
    rw [hresult]
    rfl
  obtain ⟨plan', planned, hid, hruns⟩ := Runs.of_toOption hallowed hsame
  obtain rfl : plan' = plan := hid
  rw [hresult, Option.bind_some] at hsteps
  obtain ⟨requirements, preflight, hrequirements, hpreflight⟩ :=
    Runs.of_toOption hallowed hsteps
  obtain ⟨-, hpost⟩ := Spec.sound
    (Planner.checks_planCancellable (Volume.admits_self _ _) request) hruns
  obtain ⟨hworld, -⟩ := hpost _ rfl
  rw [hworld] at hruns
  exact ⟨plan', requirements, planned, preflight, _, _, hf, hrequirements, hruns, hpreflight⟩

/-- The planner and the preflight accept a respelled parent, but there is no summary. -/
theorem fromPlan_respelledParent :
    ∃ plan requirements planned preflight t u, plan.entries ≠ [] ∧
      Runs (engineEnv (flatVolume sampleParent).backendRel)
        (Planner.planCancellable respelledParent).run ⟨swapState, []⟩ planned
        (some (.ok plan)) t ∧
      Runs (engineEnv (flatVolume sampleParent).backendRel) (Executor.preflightPlan plan).run t
        preflight (some (.ok requirements)) u ∧
      fromPlan plan requirements.primitiveSteps sampleEquivalent = none := by
  have hplan : (sampleResult (Planner.planCancellable respelledParent)).map (fun plan =>
      (plan.entries.isEmpty, fromPlan plan 2 sampleEquivalent)) = some (false, none) := by
    decide +kernel
  have hsteps : ((sampleResult (Planner.planCancellable respelledParent)).bind fun plan =>
      (sampleResult (Executor.preflightPlan plan)).map JournalRequirements.primitiveSteps) =
        some 2 := by
    decide +kernel
  obtain ⟨plan, requirements, planned, preflight, t, u, hf, htwo, hruns, hpreflight⟩ :=
    exists_sampleRuns hplan hsteps
  rw [Prod.mk.injEq] at hf
  refine ⟨plan, requirements, planned, preflight, t, u, ?_, hruns, hpreflight, htwo ▸ hf.2⟩
  simpa using hf.1

/-- Two names that are exchanged are one cycle, and there is a summary. -/
theorem fromPlan_confirms_exchangedNames :
    ∃ plan summary, fromPlan plan 3 sampleEquivalent = some summary ∧ Confirms plan summary := by
  have hplan : (sampleResult (Planner.planCancellable exchangedNames)).map (fun plan =>
      decide (∀ row ∈ plan.entries, ¬ KeepsPlace sampleEquivalent row)) = some true := by
    decide +kernel
  have hsteps : ((sampleResult (Planner.planCancellable exchangedNames)).bind fun plan =>
      (sampleResult (Executor.preflightPlan plan)).map JournalRequirements.primitiveSteps) =
        some 3 := by
    decide +kernel
  obtain ⟨plan, requirements, planned, preflight, t, u, hf, hthree, hruns, hpreflight⟩ :=
    exists_sampleRuns hplan hsteps
  rw [← hthree]
  exact ⟨plan, (fromPlan_confirms _ lowerKey _ plan requirements _ t u hruns hpreflight).2
    (of_decide_eq_true hf)⟩

end ApplyConfirmationSummary

end DarkReNamer
