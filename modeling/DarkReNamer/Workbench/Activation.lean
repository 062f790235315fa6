import DarkReNamer.Core.PlannedChange
import DarkReNamer.Rename.Executor
import DarkReNamer.Rename.Planner
import DarkReNamer.Slices.Standard
import DarkReNamer.Workbench.Units

/-!
# From the list to a plan request, and back from a report

The request takes over every row of the list. A report is applied only when it is complete: then
every reported row has its move recorded, and the other rows are left alone. The destination of
an intent, the length that was checked for it and what the list shows as changed are computed
each in its own way, and agree.
-/

namespace DarkReNamer

open LegacyList

/-- The identifier of a row: its index, or the last `u32` where that is larger. -/
def rowEntryId (index : ℕ) : EntryId :=
  if index < 2 ^ 32 then ⟨UInt32.ofNat index⟩ else ⟨0xFFFFFFFF⟩

def rowIntent (index : ℕ) (item : LegacyListItem) : RenameIntent where
  id := rowEntryId index
  source := item.sourcePath
  destinationParent := item.destinationParent
  destinationName := item.proposedName
  kind := if item.isDirectory then .directory else .file

/-- Builds an exact plan request from the current rows. -/
def buildPlanRequest (model : LegacyList) (revision : ModelRevision) : PlanRequest where
  revision := revision
  entries := model.items.mapIdx rowIntent
  scope :=
    if model.items.any fun item => item.plannedChangeKind.moves then .sameVolumeFilesOnly
    else .sameParent

/-- Records moves until one is refused; `fresh` gives each of them a new identity. -/
def recordMoves (fresh : ℕ → ℕ) : List ℕ → LegacyList → Option (Bool × LegacyList)
  | [], list => some (true, list)
  | row :: rows, list => do
    let (recorded, list) ← list.recordMoveSuccess (fresh row) row
    if recorded then recordMoves fresh rows list else some (false, list)

/-- Applies row state only when the complete report is verified. -/
def applyExecutionReport (alg : Slices.Algorithms) (fresh : ℕ → ℕ) (model : LegacyList)
    (report : ExecutionReport) : Option (Bool × LegacyList) :=
  if report.outcome ≠ .completed ∨ report.entries.any (fun entry => entry.state ≠ .applied) then
    some (false, model)
  else
    let rows := report.entries.map fun entry => entry.entry.value.toNat
    let rows := alg.sortUnstableBy compare rows
    if rows.any fun row => row ≥ model.items.length then some (false, model)
    else recordMoves fresh rows model

/-! ### Plans -/

/-- The texts of a row are vectors. -/
structure OfVectors (item : LegacyListItem) : Prop where
  parent : item.destinationParent.len ≤ maxVecUnits
  name : item.proposedName.len ≤ maxVecUnits

theorem plannedPath_len_le {item : LegacyListItem} (h : OfVectors item) :
    item.plannedPath.len ≤ usizeMax := by
  have hparent := h.parent
  have hname := h.name
  have hseparator := destinationSeparatorUnits_le item.destinationParent.units
  rw [item.plannedPath_len, plannedPathUnits]
  simp only [maxVecUnits, usizeMax, LegacyText.len] at *
  omega

/-- The checked length is that of the planned path. -/
theorem checkedPlannedPathUnits_eq {item : LegacyListItem} (h : OfVectors item) :
    checkedPlannedPathUnits item.destinationParent.units item.proposedName.len =
      some item.plannedPath.len := by
  have hle := plannedPath_len_le h
  rw [item.plannedPath_len, plannedPathUnits] at hle ⊢
  simp only [checkedPlannedPathUnits, Option.bind_eq_bind, Option.bind_eq_some_iff]
  exact ⟨_, checkedAdd_eq_some.2 ⟨by omega, rfl⟩, checkedAdd_eq_some.2 ⟨by omega, rfl⟩⟩

/-- The intent goes where the list shows it. -/
theorem destination_rowIntent (index : ℕ) (item : LegacyListItem) :
    (rowIntent index item).destination = item.plannedPath := by
  have hseparator : (item.destinationParent.units.getLast?.any isSeparator) =
      !item.destinationParent.units.getLast?.all fun unit => !isSeparator unit := by
    cases item.destinationParent.units.getLast? with
    | none => rfl
    | some unit => simp
  simp only [RenameIntent.destination, rowIntent, LegacyListItem.plannedPath,
    destinationSeparatorUnits, hseparator]
  by_cases hends : (item.destinationParent.units.getLast?.all fun unit => !isSeparator unit) = true
  · simp [hends]
  · simp [hends]

/-- The planner takes a row for changed exactly when the list shows it as changed. -/
theorem changes_rowIntent (index : ℕ) {item : LegacyListItem} (h : OfVectors item) :
    (rowIntent index item).changes = item.plannedChangeKind.isChanged := by
  have hsource : (rowIntent index item).source = item.sourcePath := rfl
  rw [Bool.eq_iff_iff, isChanged_plannedChangeKind (plannedPath_len_le h), RenameIntent.changes,
    destination_rowIntent, hsource, decide_eq_true_iff]
  exact ne_comm

theorem getElem?_buildPlanRequest (model : LegacyList) (revision : ModelRevision) (index : ℕ) :
    (buildPlanRequest model revision).entries[index]? =
      (model.items[index]?).map (rowIntent index) := by
  simp [buildPlanRequest]

/-! ### Reports -/

theorem recordMoveSuccess_rows {list list' : LegacyList} {fresh row : ℕ} {recorded : Bool}
    (h : list.recordMoveSuccess fresh row = some (recorded, list'))
    (hlt : row < list.items.length) :
    recorded = true ∧ list'.items.length = list.items.length ∧
      ∀ i, list'.items[i]? = if i = row then (list.items[i]?).map movedItem
        else list.items[i]? := by
  unfold recordMoveSuccess at h
  rw [List.getElem?_eq_getElem hlt] at h
  simp only [Option.bind_eq_bind, Option.bind_eq_some_iff, Option.some_inj, Prod.mk.injEq] at h
  obtain ⟨_, -, _, -, rfl, rfl⟩ := h
  refine ⟨rfl, by simp, fun i => ?_⟩
  rw [invalidateSourceIndex_items]
  by_cases hi : i = row
  · subst hi
    simp [hlt]
  · rw [if_neg hi, List.getElem?_set_ne (Ne.symm hi)]

/-- The rows that are recorded are moved, and no others. -/
theorem recordMoves_rows {fresh : ℕ → ℕ} {rows : List ℕ} {list list' : LegacyList}
    {recorded : Bool} (hnodup : rows.Nodup) (hlt : ∀ row ∈ rows, row < list.items.length)
    (h : recordMoves fresh rows list = some (recorded, list')) :
    recorded = true ∧ list'.items.length = list.items.length ∧ ∀ i, list'.items[i]? =
      if i ∈ rows then (list.items[i]?).map movedItem else list.items[i]? := by
  induction rows generalizing list with
  | nil =>
      cases h
      exact ⟨rfl, rfl, fun i => by simp⟩
  | cons row rows ih =>
      obtain ⟨hrow, hrows⟩ := List.nodup_cons.1 hnodup
      rw [recordMoves] at h
      simp only [Option.bind_eq_bind, Option.bind_eq_some_iff] at h
      obtain ⟨⟨first, list₁⟩, hfirst, hrest⟩ := h
      obtain ⟨rfl, hlength, hitems⟩ := recordMoveSuccess_rows hfirst (hlt row (by simp))
      obtain ⟨hrecorded, hsame, hlater⟩ := ih hrows
        (fun row hrow => hlength ▸ hlt row (by simp [hrow])) hrest
      refine ⟨hrecorded, hsame.trans hlength, fun i => ?_⟩
      rw [hlater i, hitems i]
      by_cases hi : i = row
      · subst hi
        simp [hrow]
      · simp [hi]

/-- What is left of the list after a report: nothing new, or the reported rows moved. -/
theorem applyExecutionReport_rows {alg : Slices.Algorithms} {fresh : ℕ → ℕ}
    {model list' : LegacyList} {report : ExecutionReport} {applied : Bool}
    (hnodup : (report.entries.map fun entry => entry.entry).Nodup)
    (h : applyExecutionReport alg fresh model report = some (applied, list')) :
    (applied = false → list' = model) ∧
      (applied = true → list'.items.length = model.items.length ∧ ∀ i, list'.items[i]? =
        if i ∈ report.entries.map fun entry => entry.entry.value.toNat then
          (model.items[i]?).map movedItem
        else model.items[i]?) := by
  unfold applyExecutionReport at h
  split at h
  · cases h
    exact ⟨fun _ => rfl, nofun⟩
  · dsimp only at h
    split at h
    · cases h
      exact ⟨fun _ => rfl, nofun⟩
    · rename_i hrows
      have hperm := alg.sortUnstableBy_perm compare
        (report.entries.map fun entry => entry.entry.value.toNat)
      have hdistinct : (report.entries.map fun entry => entry.entry.value.toNat).Nodup := by
        have hmap : (report.entries.map fun entry => entry.entry.value.toNat) =
            (report.entries.map fun entry => entry.entry).map fun id => id.value.toNat := by
          rw [List.map_map]
          rfl
        rw [hmap]
        exact hnodup.map_on fun a _ b _ heq => by
          cases a
          cases b
          simpa [UInt32.toNat_inj] using heq
      obtain ⟨rfl, hlength, hitems⟩ := recordMoves_rows (hperm.nodup_iff.2 hdistinct)
        (by simpa using hrows) h
      refine ⟨nofun, fun _ => ⟨hlength, fun i => ?_⟩⟩
      rw [hitems i]
      simp only [hperm.mem_iff]

/-- The comparison that shows a row as unchanged, the length that is checked for it and the intent
that is planned for it agree with its planned path; a report changes the reported rows alone, and
only when it is applied. -/
theorem plan_agrees_with_list :
    (∀ item, OfVectors item →
      (plannedPathMatchesSource item = true ↔ item.plannedPath = item.sourcePath) ∧
      checkedPlannedPathUnits item.destinationParent.units item.proposedName.len =
        some item.plannedPath.len) ∧
    (∀ (model : LegacyList) (revision : ModelRevision),
      (buildPlanRequest model revision).entries.length = model.items.length ∧
      ∀ (index : ℕ) (item : LegacyListItem), model.items[index]? = some item →
        ∃ intent, (buildPlanRequest model revision).entries[index]? = some intent ∧
          intent.source = item.sourcePath ∧ intent.destination = item.plannedPath ∧
          (OfVectors item → intent.changes = item.plannedChangeKind.isChanged)) ∧
    (∀ (alg : Slices.Algorithms) (fresh : ℕ → ℕ) (model list' : LegacyList)
      (report : ExecutionReport) (applied : Bool),
      (report.entries.map fun entry => entry.entry).Nodup →
      applyExecutionReport alg fresh model report = some (applied, list') →
      (applied = false → list' = model) ∧
      (applied = true → list'.items.length = model.items.length ∧
        ∀ (index : ℕ) (item : LegacyListItem), model.items[index]? = some item →
          ∃ item', list'.items[index]? = some item' ∧
            (index ∈ report.entries.map (fun entry => entry.entry.value.toNat) →
              item'.sourcePath = item.plannedPath) ∧
            (index ∉ report.entries.map (fun entry => entry.entry.value.toNat) →
              item' = item))) := by
  refine ⟨fun item h => ⟨plannedPathMatchesSource_iff (plannedPath_len_le h),
    checkedPlannedPathUnits_eq h⟩, fun model revision => ⟨by simp [buildPlanRequest], ?_⟩, ?_⟩
  · intro index item hitem
    refine ⟨rowIntent index item, by simp [getElem?_buildPlanRequest, hitem], rfl,
      destination_rowIntent index item, changes_rowIntent index⟩
  · intro alg fresh model list' report applied hnodup h
    obtain ⟨hrefused, happlied⟩ := applyExecutionReport_rows hnodup h
    refine ⟨hrefused, fun htrue => ⟨(happlied htrue).1, fun index item hitem => ?_⟩⟩
    rw [(happlied htrue).2 index, hitem]
    by_cases hreported : index ∈ report.entries.map fun entry => entry.entry.value.toNat
    · exact ⟨movedItem item, by simp [hreported], fun _ => rfl, fun h => absurd hreported h⟩
    · exact ⟨item, by simp [hreported], fun h => absurd h hreported, fun _ => rfl⟩

/-- Three rows, of which the first two are to be renamed. -/
def twoRenames : LegacyList :=
  ⟨[{ LegacyListItem.newWithActualSize (.ofAscii "C:\\a.txt") false 0 0 0 0 with
        proposedName := .ofAscii "x.txt" },
      { LegacyListItem.newWithActualSize (.ofAscii "C:\\b.txt") false 0 0 0 0 with
        proposedName := .ofAscii "y.txt" },
      LegacyListItem.newWithActualSize (.ofAscii "C:\\c.txt") false 0 0 0 0], 15, 24, 0, 0⟩

/-- A report of the second rename alone. -/
def secondApplied : ExecutionReport := ⟨⟨0⟩, .completed, [⟨⟨1⟩, .applied⟩]⟩

/-- The reported row is moved, the other ones are as they were, and every row was planned to go
where the list shows it. -/
theorem plan_agrees_with_list_twoRenames : ∃ list' intent,
    applyExecutionReport .reference (fun _ => 1) twoRenames secondApplied = some (true, list') ∧
      (list'.items[1]?).map (·.sourcePath) = some (.ofAscii "C:\\y.txt") ∧
      list'.items[0]? = twoRenames.items[0]? ∧
      (buildPlanRequest twoRenames ⟨0⟩).entries[0]? = some intent ∧
      intent.destination = .ofAscii "C:\\x.txt" ∧ intent.changes = true := by
  have happlied :
      (applyExecutionReport .reference (fun _ => 1) twoRenames secondApplied).map (·.1) =
        some true := by decide +kernel
  obtain ⟨⟨applied, list'⟩, h, rfl⟩ := Option.map_eq_some_iff.1 happlied
  obtain ⟨-, hplans, hreports⟩ := plan_agrees_with_list
  obtain ⟨intent, hintent, -, hdestination, hchanges⟩ := (hplans twoRenames ⟨0⟩).2 0 _ rfl
  obtain ⟨-, hrows⟩ := hreports .reference (fun _ => 1) twoRenames list' secondApplied true
    (by decide) h
  obtain ⟨first, hfirst, -, hsame⟩ := (hrows rfl).2 0 _ rfl
  obtain ⟨second, hsecond, hmoved, -⟩ := (hrows rfl).2 1 _ rfl
  refine ⟨list', intent, h, ?_, ?_, hintent, ?_, ?_⟩
  · rw [hsecond, Option.map_some, hmoved (by decide)]
    decide
  · rw [hfirst, hsame (by decide)]
    rfl
  · rw [hdestination]
    decide
  · rw [hchanges ⟨by decide, by decide⟩]
    decide

end DarkReNamer
