import DarkReNamer.Occupancy.Placement
import DarkReNamer.Rename.Schedule.Temporary

/-!
# Where the rows stand

The occupancy a plan needs and the one it asks for, as placements of its rows. A row
stands at its source, at a temporary path or at its destination, and a step takes one
row from where it stands to where it stands next. `Scheduled` says that the steps so
far are such relocations, each to a key that is free when its turn comes, and where
they leave the rows.
-/

namespace DarkReNamer

open Std Interaction Occupancy

/-- The occupancy a plan needs: each row's source key holds its identity, and an
occupied destination key is the source key of some row. -/
structure Schedulable (plan : RenamePlan) (o : VolumeState) : Prop where
  sources_nodup : (plan.entries.map PlanRow.sourceEntryKey).Nodup
  destinations_nodup : (plan.entries.map PlanRow.destinationEntryKey).Nodup
  source_occupied : ∀ row ∈ plan.entries, ∃ source,
    row.sourceSnapshot.entry = some source ∧ o row.sourceEntryKey = some source.identity
  destination_free : ∀ row ∈ plan.entries, o row.destinationEntryKey ≠ none →
    ∃ other ∈ plan.entries, other.sourceEntryKey = row.destinationEntryKey

namespace RenamePlan

/-- The index type of the rows. -/
abbrev Row (plan : RenamePlan) : Type := Fin plan.entries.length

variable (plan : RenamePlan)

def row (i : plan.Row) : PlanRow := plan.entries[i.1]

def sourceKey (i : plan.Row) : PathKey := (plan.row i).sourceEntryKey

def destinationKey (i : plan.Row) : PathKey := (plan.row i).destinationEntryKey

/-- The identity a row was planned for. -/
def identity (i : plan.Row) : EntryIdentity :=
  ((plan.row i).sourceSnapshot.entry.map ObservedEntry.identity).getD ⟨0, 0⟩

/-- What stays in place when the rows are lifted off their sources. -/
def rest (o : VolumeState) : VolumeState := fun key =>
  if key ∈ plan.entries.map PlanRow.sourceEntryKey then none else o key

/-- The occupancy a plan asks for: all rows moved at once. -/
def simultaneous (o : VolumeState) : VolumeState := fun key =>
  match plan.entries.find? fun row => row.destinationEntryKey == key with
  | some row => row.sourceSnapshot.entry.map ObservedEntry.identity
  | none => plan.rest o key

end RenamePlan

namespace Schedule

section Keys

variable {plan : RenamePlan} {o : VolumeState}

theorem row_mem (i : plan.Row) : plan.row i ∈ plan.entries := List.getElem_mem i.2

theorem exists_row {row : PlanRow} (h : row ∈ plan.entries) : ∃ i, plan.row i = row := by
  obtain ⟨i, hi, hrow⟩ := List.getElem_of_mem h
  exact ⟨⟨i, hi⟩, hrow⟩

theorem sourceKeys_getElem? (i : plan.Row) :
    (plan.entries.map PlanRow.sourceEntryKey)[i.1]? = some (plan.sourceKey i) := by
  simp [RenamePlan.sourceKey, RenamePlan.row]

theorem destinationKeys_getElem? (i : plan.Row) :
    (plan.entries.map PlanRow.destinationEntryKey)[i.1]? =
      some (plan.destinationKey i) := by
  simp [RenamePlan.destinationKey, RenamePlan.row]

theorem sourceKey_injective (h : Schedulable plan o) :
    Function.Injective plan.sourceKey := by
  intro i j hij
  refine Fin.ext (getElem?_inj_of_nodup h.sources_nodup (sourceKeys_getElem? i) ?_)
  rw [hij]
  exact sourceKeys_getElem? j

theorem destinationKey_injective (h : Schedulable plan o) :
    Function.Injective plan.destinationKey := by
  intro i j hij
  refine Fin.ext
    (getElem?_inj_of_nodup h.destinations_nodup (destinationKeys_getElem? i) ?_)
  rw [hij]
  exact destinationKeys_getElem? j

theorem sourceSnapshot_entry (h : Schedulable plan o) (i : plan.Row) :
    (plan.row i).sourceSnapshot.entry.map ObservedEntry.identity =
      some (plan.identity i) := by
  obtain ⟨source, hsource, -⟩ := h.source_occupied _ (row_mem i)
  simp [RenamePlan.identity, hsource]

theorem sourceIdentity_eq (h : Schedulable plan o) (i : plan.Row) :
    sourceIdentity (plan.row i) = .ok (plan.identity i) := by
  obtain ⟨source, hsource, -⟩ := h.source_occupied _ (row_mem i)
  simp [sourceIdentity, RenamePlan.identity, hsource]

theorem rest_sourceKey (i : plan.Row) : plan.rest o (plan.sourceKey i) = none :=
  if_pos (List.mem_map_of_mem (row_mem i))

theorem rest_destinationKey (h : Schedulable plan o) (i : plan.Row) :
    plan.rest o (plan.destinationKey i) = none := by
  unfold RenamePlan.rest
  split
  · rfl
  · next hsource =>
      by_contra hne
      obtain ⟨other, hother, hkey⟩ := h.destination_free _ (row_mem i) hne
      exact hsource (List.mem_map.2 ⟨other, hother, hkey⟩)

theorem rest_eq_none {key : PathKey} (h : o key = none) : plan.rest o key = none := by
  unfold RenamePlan.rest
  split
  · rfl
  · exact h

/-- The occupancy before the first step. -/
theorem placed_source (h : Schedulable plan o) :
    Placed (plan.rest o) plan.identity plan.sourceKey o := by
  refine ⟨fun i => ?_, fun key hkey => ?_⟩
  · obtain ⟨source, hsource, ho⟩ := h.source_occupied _ (row_mem i)
    simp only [RenamePlan.identity, hsource, Option.map_some, Option.getD_some]
    exact ho
  · refine (if_neg ?_).symm
    intro hmem
    obtain ⟨row, hrow, hrowkey⟩ := List.mem_map.1 hmem
    obtain ⟨i, rfl⟩ := exists_row hrow
    exact hkey i hrowkey

/-- The occupancy the plan asks for. -/
theorem placed_destination (h : Schedulable plan o) :
    Placed (plan.rest o) plan.identity plan.destinationKey (plan.simultaneous o) := by
  refine ⟨fun i => ?_, fun key hkey => ?_⟩
  · unfold RenamePlan.simultaneous
    cases hfind : plan.entries.find?
        fun row => row.destinationEntryKey == plan.destinationKey i with
    | none =>
        have := List.find?_eq_none.1 hfind _ (row_mem i)
        simp [RenamePlan.destinationKey] at this
    | some row =>
        obtain ⟨j, rfl⟩ := exists_row (List.mem_of_find?_eq_some hfind)
        have hkey : plan.destinationKey j = plan.destinationKey i :=
          eq_of_beq (List.find?_some hfind :)
        obtain rfl := destinationKey_injective h hkey
        exact sourceSnapshot_entry h j
  · unfold RenamePlan.simultaneous
    cases hfind : plan.entries.find? fun row => row.destinationEntryKey == key with
    | none => rfl
    | some row =>
        obtain ⟨j, rfl⟩ := exists_row (List.mem_of_find?_eq_some hfind)
        exact absurd (eq_of_beq (List.find?_some hfind :)) (hkey j)

end Keys

section Relocations

variable (V : Volume) (plan : RenamePlan) (o : VolumeState)

/-- The key of a temporary path of the row `i`. -/
def temporaryKey (i : plan.Row) (temporary : LegacyText) : PathKey :=
  V.entryKey (plan.row i).sourceSnapshot.parent (pathLeaf temporary)

/-- Where a row stands while the schedule is executed. -/
inductive Standing where
  | source
  | temporary (path : LegacyText)
  | destination
  deriving DecidableEq, Repr

/-- The key a row stands at. -/
def Standing.key (i : plan.Row) : Standing → PathKey
  | .source => plan.sourceKey i
  | .temporary path => temporaryKey V plan i path
  | .destination => plan.destinationKey i

/-- The keys all rows stand at. -/
def places (standing : plan.Row → Standing) : plan.Row → PathKey :=
  fun i => (standing i).key V plan i

/-- Before the first step every row stands at its source. -/
def atSource : plan.Row → Standing := fun _ => .source

/-- After the last step every row stands at its destination. -/
def atDestination : plan.Row → Standing := fun _ => .destination

/-- A temporary path is a candidate of its row, beside the row's source, with a key
that is free and that no row uses. -/
structure IsTemporary (i : plan.Row) (temporary : LegacyText) : Prop where
  candidate : ∃ nonce ordinal, temporary =
    temporaryPath (plan.row i) (temporaryLeaf plan.id nonce (plan.row i).id ordinal)
  parent : V.parent temporary = (plan.row i).sourceSnapshot.parent
  free : o (temporaryKey V plan i temporary) = none
  ne_source : ∀ j, plan.sourceKey j ≠ temporaryKey V plan i temporary
  ne_destination : ∀ j, plan.destinationKey j ≠ temporaryKey V plan i temporary

/-- The step takes the row `i` from where it stands to where it stands next. -/
inductive Relocates (standing : plan.Row → Standing) :
    ScheduleStep → plan.Row → Standing → Prop where
  | straight (i : plan.Row) (hstanding : standing i = .source) :
      Relocates standing (straightStep (plan.row i) (plan.identity i) plan.scope) i
        .destination
  | intoTemporary (i : plan.Row) (temporary : LegacyText) (hstanding : standing i = .source)
      (htemporary : IsTemporary V plan o i temporary) :
      Relocates standing
        (intoTemporaryStep (plan.row i) temporary (plan.identity i) plan.scope) i
        (.temporary temporary)
  | fromTemporary (i : plan.Row) (temporary : LegacyText)
      (hstanding : standing i = .temporary temporary)
      (htemporary : IsTemporary V plan o i temporary) :
      Relocates standing
        (fromTemporaryStep (plan.row i) temporary (plan.identity i) plan.scope) i
        .destination

/-- The steps are the relocations, one for one. -/
def Follows : (plan.Row → Standing) → List ScheduleStep → List (plan.Row × Standing) → Prop
  | _, [], [] => True
  | standing, step :: steps, (i, next) :: rs =>
      Relocates V plan o standing step i next ∧
        Follows (Function.update standing i next) steps rs
  | _, _, _ => False

/-- The relocations as keys. -/
def relocatedKeys (rs : List (plan.Row × Standing)) : List (plan.Row × PathKey) :=
  rs.map fun r => (r.1, r.2.key V plan r.1)

/-- The steps so far lead from the sources to where the rows stand now. -/
def Scheduled (standing : plan.Row → Standing) (steps : List ScheduleStep) : Prop :=
  ∃ rs, Follows V plan o (atSource plan) steps rs ∧
    Admissible (plan.rest o) plan.sourceKey (relocatedKeys V plan rs) ∧
    placesAfter (atSource plan) rs = standing

variable {V plan o}

theorem places_update (standing : plan.Row → Standing) (i : plan.Row) (next : Standing) :
    places V plan (Function.update standing i next) =
      Function.update (places V plan standing) i (next.key V plan i) := by
  funext j
  by_cases hj : j = i
  · subst hj
    simp [places]
  · simp [places, hj]

theorem placesAfter_relocatedKeys (standing : plan.Row → Standing)
    (rs : List (plan.Row × Standing)) :
    placesAfter (places V plan standing) (relocatedKeys V plan rs) =
      places V plan (placesAfter standing rs) := by
  induction rs generalizing standing with
  | nil => rfl
  | cons r rs ih =>
      simp only [relocatedKeys, placesAfter, List.map_cons, List.foldl_cons] at ih ⊢
      rw [← places_update]
      exact ih _

theorem Follows.append_singleton {standing : plan.Row → Standing}
    {steps : List ScheduleStep} {rs : List (plan.Row × Standing)} {step : ScheduleStep}
    {i : plan.Row} {next : Standing} (h : Follows V plan o standing steps rs)
    (hstep : Relocates V plan o (placesAfter standing rs) step i next) :
    Follows V plan o standing (steps ++ [step]) (rs ++ [(i, next)]) := by
  induction steps generalizing standing rs with
  | nil =>
      cases rs with
      | nil => exact ⟨hstep, trivial⟩
      | cons r rs => exact h.elim
  | cons first steps ih =>
      cases rs with
      | nil => exact h.elim
      | cons r rs => exact ⟨h.1, ih h.2 hstep⟩

theorem Follows.length_eq {standing : plan.Row → Standing} {steps : List ScheduleStep}
    {rs : List (plan.Row × Standing)} (h : Follows V plan o standing steps rs) :
    steps.length = rs.length := by
  induction steps generalizing standing rs with
  | nil =>
      cases rs with
      | nil => rfl
      | cons r rs => exact h.elim
  | cons first steps ih =>
      cases rs with
      | nil => exact h.elim
      | cons r rs => simp [ih h.2]

/-- One more step, to a key that is free. -/
theorem Scheduled.push {standing : plan.Row → Standing} {steps : List ScheduleStep}
    {step : ScheduleStep} {i : plan.Row} {next : Standing}
    (h : Scheduled V plan o standing steps) (hstep : Relocates V plan o standing step i next)
    (hfree : ∀ j, places V plan standing j ≠ next.key V plan i)
    (hrest : plan.rest o (next.key V plan i) = none)
    (hleft : plan.rest o (places V plan standing i) = none) :
    Scheduled V plan o (Function.update standing i next) (steps ++ [step]) := by
  obtain ⟨rs, hfollows, hadmissible, rfl⟩ := h
  refine ⟨rs ++ [(i, next)], hfollows.append_singleton hstep, ?_, ?_⟩
  · have hplaces := placesAfter_relocatedKeys (V := V) (atSource plan) rs
    simp only [relocatedKeys, List.map_append] at hplaces ⊢
    rw [admissible_append]
    refine ⟨hadmissible, ?_⟩
    rw [show plan.sourceKey = places V plan (atSource plan) from rfl, hplaces]
    exact ⟨hfree, hrest, hleft, trivial⟩
  · rw [placesAfter_append]
    rfl

end Relocations

end Schedule

end DarkReNamer
