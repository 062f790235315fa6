import DarkReNamer.Rename.Schedule.Bounds
import DarkReNamer.Rename.Schedule.Cycles

/-!
# The shape of a schedule

Every row takes one direct step, or one step to a temporary path and later one from there, and it
is one row of each dependency cycle that goes the long way. This holds of every schedule that is
built at all, also of a plan that the planner would not make and over a backend that answers what
it likes.
-/

namespace DarkReNamer

open Std Interaction Cycles

namespace Schedule

/-- A step, by the row that takes it. -/
inductive RowStep where
  | direct (row : ℕ)
  | intoTemporary (row : ℕ) (temporary : LegacyText)
  | fromTemporary (row : ℕ) (temporary : LegacyText)

namespace RowStep

def row : RowStep → ℕ
  | direct row | intoTemporary row _ | fromTemporary row _ => row

def step (entry : PlanRow) (identity : EntryIdentity) (scope : MoveScope) :
    RowStep → ScheduleStep
  | direct _ => straightStep entry identity scope
  | intoTemporary _ temporary => intoTemporaryStep entry temporary identity scope
  | fromTemporary _ temporary => fromTemporaryStep entry temporary identity scope

/-- The step is one of the row's entry, under the identity that was observed at its source. -/
def Is (plan : RenamePlan) (rowStep : RowStep) (scheduled : ScheduleStep) : Prop :=
  ∃ entry identity, plan.entries[rowStep.row]? = some entry ∧
    sourceIdentity entry = .ok identity ∧ scheduled = rowStep.step entry identity plan.scope

/-- The temporary path that a step leads to. -/
def temporary? : RowStep → Option (ℕ × LegacyText)
  | intoTemporary row temporary => some (row, temporary)
  | direct _ | fromTemporary _ _ => none

end RowStep

/-- The steps of one row. -/
def stepsOf (rowSteps : List RowStep) (i : ℕ) : List RowStep := rowSteps.filter (·.row = i)

/-- The rows that go through a temporary path, each with its path. -/
def temporaries (rowSteps : List RowStep) : List (ℕ × LegacyText) :=
  rowSteps.filterMap RowStep.temporary?

def Through (rowSteps : List RowStep) (i : ℕ) : Prop :=
  ∃ temporary, (i, temporary) ∈ temporaries rowSteps

/-- One direct step, or one to a temporary path followed by one from there. -/
def RowDone (rowSteps : List RowStep) (i : ℕ) : Prop :=
  stepsOf rowSteps i = [.direct i] ∨
    ∃ temporary, stepsOf rowSteps i = [.intoTemporary i temporary, .fromTemporary i temporary]

/-- The backend gave the key for the temporary path of the row. -/
def Keyed (plan : RenamePlan) (trace : List EngineEvent) (i : ℕ) (temporary : LegacyText)
    (key : PathKey) : Prop :=
  ∃ entry leaf, plan.entries[i]? = some entry ∧ temporary = temporaryPath entry leaf ∧
    (⟨.backend (.plannedEntryKey entry.sourceSnapshot.parent leaf), .ok key⟩ : EngineEvent) ∈ trace

/-- The steps are those of the rows, and `key` are the keys of their temporary paths. -/
structure Shape (plan : RenamePlan) (trace : List EngineEvent) (schedule : List ScheduleStep)
    (rowSteps : List RowStep) (key : ℕ → PathKey) : Prop where
  steps : List.Forall₂ (RowStep.Is plan) rowSteps schedule
  rows : ∀ i < plan.entries.length, RowDone rowSteps i
  length : schedule.length = plan.entries.length + (dependencyCycles plan).ncard
  cycles : ∀ c ∈ dependencyCycles plan, ∃! i, i ∈ c ∧ Through rowSteps i
  onCycle : ∀ i, Through rowSteps i → ∃ c ∈ dependencyCycles plan, i ∈ c
  keyed : ∀ i temporary, (i, temporary) ∈ temporaries rowSteps →
    Keyed plan trace i temporary (key i)
  keys_distinct : ∀ i j, Through rowSteps i → Through rowSteps j → key i = key j → i = j
  keys_new : ∀ i, Through rowSteps i → ∀ row ∈ plan.entries,
    key i ≠ row.sourceEntryKey ∧ key i ≠ row.destinationEntryKey

/-! ### Steps of rows -/

@[simp] theorem stepsOf_append (rowSteps rest : List RowStep) (i : ℕ) :
    stepsOf (rowSteps ++ rest) i = stepsOf rowSteps i ++ stepsOf rest i :=
  List.filter_append rowSteps rest

@[simp] theorem temporaries_append (rowSteps rest : List RowStep) :
    temporaries (rowSteps ++ rest) = temporaries rowSteps ++ temporaries rest :=
  List.filterMap_append

theorem mem_temporaries {rowSteps : List RowStep} {i : ℕ} {temporary : LegacyText} :
    (i, temporary) ∈ temporaries rowSteps ↔ .intoTemporary i temporary ∈ rowSteps := by
  rw [temporaries, List.mem_filterMap]
  constructor
  · rintro ⟨rowStep, hmem, heq⟩
    cases rowStep with
    | direct row => cases heq
    | intoTemporary row t =>
        cases heq
        exact hmem
    | fromTemporary row t => cases heq
  · exact fun hmem => ⟨_, hmem, rfl⟩

theorem Through.stepsOf_ne_nil {rowSteps : List RowStep} {i : ℕ} (h : Through rowSteps i) :
    stepsOf rowSteps i ≠ [] := by
  obtain ⟨temporary, hmem⟩ := h
  exact List.ne_nil_of_mem
    (List.mem_filter.2 ⟨mem_temporaries.1 hmem, by simp [RowStep.row]⟩)

theorem stepsOf_direct {ds : List ℕ} (hnodup : ds.Nodup) (i : ℕ) :
    stepsOf (ds.map .direct) i = if i ∈ ds then [.direct i] else [] := by
  induction ds with
  | nil => rfl
  | cons d ds ih =>
      obtain ⟨hd, hds⟩ := List.nodup_cons.1 hnodup
      rw [List.map_cons, stepsOf, List.filter_cons, ← stepsOf, ih hds]
      by_cases hi : i = d
      · subst hi
        simp [RowStep.row, hd]
      · have hne : d ≠ i := fun heq => hi heq.symm
        simp [RowStep.row, hi, hne]

@[simp] theorem temporaries_direct (ds : List ℕ) : temporaries (ds.map .direct) = [] := by
  induction ds with
  | nil => rfl
  | cons d ds ih => exact ih

/-- The steps of a cycle: its pivot leaves, the other rows follow, and the pivot arrives. -/
def cycleSteps (pivot : ℕ) (temporary : LegacyText) (ds : List ℕ) : List RowStep :=
  [.intoTemporary pivot temporary] ++ ds.map .direct ++ [.fromTemporary pivot temporary]

theorem temporaries_cycleSteps (pivot : ℕ) (temporary : LegacyText) (ds : List ℕ) :
    temporaries (cycleSteps pivot temporary ds) = [(pivot, temporary)] := by
  simp [cycleSteps, temporaries, RowStep.temporary?]

theorem stepsOf_cycleSteps {pivot : ℕ} {temporary : LegacyText} {ds : List ℕ}
    (hnodup : ds.Nodup) (hpivot : pivot ∉ ds) (i : ℕ) :
    stepsOf (cycleSteps pivot temporary ds) i =
      if i = pivot then [.intoTemporary i temporary, .fromTemporary i temporary]
      else if i ∈ ds then [.direct i] else [] := by
  rw [cycleSteps, stepsOf_append, stepsOf_append, stepsOf_direct hnodup]
  by_cases hi : i = pivot
  · subst hi
    simp [stepsOf, RowStep.row, hpivot]
  · have hne : pivot ≠ i := fun heq => hi heq.symm
    simp [stepsOf, RowStep.row, hi, hne]

section

variable {pivot : ℕ} {temporary : LegacyText} {ds : List ℕ} {i : ℕ}

theorem rowDone_cycleSteps (hnodup : ds.Nodup) (hpivot : pivot ∉ ds) (hi : i = pivot ∨ i ∈ ds) :
    RowDone (cycleSteps pivot temporary ds) i := by
  rw [RowDone, stepsOf_cycleSteps hnodup hpivot]
  by_cases hne : i = pivot
  · rw [if_pos hne]
    exact .inr ⟨temporary, rfl⟩
  · rw [if_neg hne, if_pos (hi.resolve_left hne)]
    exact .inl rfl

theorem stepsOf_cycleSteps_eq_nil (hnodup : ds.Nodup) (hpivot : pivot ∉ ds)
    (hi : ¬ (i = pivot ∨ i ∈ ds)) : stepsOf (cycleSteps pivot temporary ds) i = [] := by
  rw [not_or] at hi
  rw [stepsOf_cycleSteps hnodup hpivot, if_neg hi.1, if_neg hi.2]

theorem through_append_cycleSteps {rowSteps : List RowStep} :
    Through (rowSteps ++ cycleSteps pivot temporary ds) i ↔ Through rowSteps i ∨ i = pivot := by
  rw [Through, temporaries_append, temporaries_cycleSteps, Through]
  simp [exists_or]

end

end Schedule

end DarkReNamer
