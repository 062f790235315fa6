import DarkReNamer.Rename.Confirmation
import DarkReNamer.Rename.Executor.Complete
import DarkReNamer.Rename.Planner.Overlap

/-!
# Rearranging the names of a folder

A request that gives files of one folder other names in it: a permutation of names, chains that end
in a free name and changes of case, in any mixture. Over a volume that is consistent and answers
without an error the planner refuses none of them, and the builder refuses only a cycle that finds
none of its temporary names.
-/

namespace DarkReNamer

open Std Interaction Schedule

/-- The path of a name in a folder. -/
def LegacyText.child (folder name : LegacyText) : LegacyText :=
  if folder.units.getLast?.any isSeparator then ⟨folder.units ++ name.units⟩
  else ⟨folder.units ++ backslash :: name.units⟩

/-- The row of the request is a file of the folder that stays in it. -/
structure RenameIntent.Within (folder : LegacyText) (intent : RenameIntent) : Prop where
  kind : intent.kind = .file
  parent : intent.destinationParent = folder
  depth : Planner.pathComponentDepth intent.source.units ≤ maxPlanPathDepth
  source : ∃ name : LegacyText, (∀ unit ∈ name.units, isSeparator unit = false) ∧
    intent.source = folder.child name

/-- A volume on which texts tell entries apart, paths below the same text are in the same parent,
and what lies on the way to a changed source is a directory. -/
structure Volume.Coherent (V : Volume) (textual : LegacyText → PathKey) (o : VolumeState)
    (request : PlanRequest) : Prop where
  separate : ∀ path other, textual path = textual other → V.key path = V.key other
  beside : ∀ path other : LegacyText,
    beforeLastSeparator path.units = beforeLastSeparator other.units →
      V.parent path = V.parent other
  directories : ∀ intent ∈ request.changed, ∀ ancestor ∈ Planner.directAncestors intent.source,
    ∀ entry, V.observed o (V.key ancestor) = some entry → entry.kind = .directory

/-- Other names for files of one folder: the changed rows are there and have names that are allowed,
no two rows have the same source and no two changed ones the same destination, and a destination
that is occupied is the source of a changed row. -/
structure PlanRequest.Rearranges (V : Volume) (o : VolumeState) (folder : LegacyText)
    (request : PlanRequest) : Prop where
  scope : request.scope = .sameParent
  absolute : Planner.isAbsoluteWindowsPath folder.units = true
  depth : Planner.pathComponentDepth folder.units ≤ maxPlanPathDepth
  within : ∀ intent ∈ request.entries, intent.Within folder
  ids : (request.entries.map RenameIntent.id).Nodup
  sources : (request.entries.map fun intent => V.key intent.source).Nodup
  present : ∀ intent ∈ request.changed, ∃ identity, o (V.key intent.source) = some identity ∧
    V.kind identity = .file ∧ V.isReparsePoint identity = false ∧
      identity.volume = (V.parent intent.source).volume
  names : ∀ intent ∈ request.changed, validateWindowsLeafName intent.destinationName = .ok ()
  destinations : (request.changed.map fun intent => V.key intent.destination).Nodup
  occupied : ∀ intent ∈ request.changed, o (V.key intent.destination) ≠ none →
    ∃ other ∈ request.changed, V.key other.source = V.key intent.destination

/-- All names of a folder have the same text before them. -/
theorem LegacyText.beforeLastSeparator_child (folder : LegacyText) {name other : LegacyText}
    (hname : ∀ unit ∈ name.units, isSeparator unit = false)
    (hother : ∀ unit ∈ other.units, isSeparator unit = false) :
    beforeLastSeparator (folder.child name).units =
      beforeLastSeparator (folder.child other).units := by
  unfold child
  split
  · next hlast =>
      obtain ⟨unit, hunit, hseparator⟩ := (Option.any_eq_true _ _).1 hlast
      obtain ⟨front, hfront⟩ := List.getLast?_eq_some_iff.1 hunit
      rw [hfront]
      simp only [List.append_assoc, List.singleton_append]
      rw [beforeLastSeparator_append hname hseparator, beforeLastSeparator_append hother hseparator]
  · rw [beforeLastSeparator_append hname rfl, beforeLastSeparator_append hother rfl]

namespace PlanRequest.Rearranges

variable {V : Volume} {textual : LegacyText → PathKey} {o : VolumeState} {folder : LegacyText}
  {request : PlanRequest}

/-- A row stays where it is. -/
theorem parent_eq (h : request.Rearranges V o folder) (hV : V.Coherent textual o request)
    {intent : RenameIntent} (hintent : intent ∈ request.changed) :
    V.parent intent.source = V.parent intent.destination := by
  obtain ⟨-, hparent, -, name, hname, hsource⟩ :=
    h.within intent (PlanRequest.mem_of_changed hintent)
  have hdestination : intent.destination = folder.child intent.destinationName := by
    rw [← hparent]
    rfl
  rw [hsource, hdestination]
  exact hV.beside _ _ (folder.beforeLastSeparator_child hname
    (isSeparator_of_validateWindowsLeafName (h.names intent hintent)))

theorem admissible (h : request.Rearranges V o folder) (hV : V.Coherent textual o request) :
    Admissible V textual o request where
  shallow intent hintent := decide_eq_false (Nat.not_lt.2 (h.within intent hintent).depth)
  absolute intent hintent := by
    obtain ⟨name, -, hsource⟩ := (h.within intent hintent).source
    have habsolute : Planner.isAbsoluteWindowsPath intent.source.units = true := by
      rw [hsource, LegacyText.child]
      split <;> exact Planner.isAbsoluteWindowsPath_append _ h.absolute
    simp [Planner.relativeSource, habsolute]
  parents intent hintent := by
    rw [(h.within intent (PlanRequest.mem_of_changed hintent)).parent]
    exact ⟨h.depth, h.absolute⟩
  names := h.names
  files intent hintent := (h.within intent (PlanRequest.mem_of_changed hintent)).kind
  ids := h.ids.sublist (List.filter_sublist.map _)
  separate := hV.separate
  ancestors := hV.directories
  sources := h.sources
  present := h.present
  destinations := h.destinations
  boundary intent hintent := .inl (h.parent_eq hV hintent)
  occupied := h.occupied

end PlanRequest.Rearranges

namespace Planner

variable {V : Volume} {textual : LegacyText → PathKey} {o : VolumeState} {request : PlanRequest}
  {plan : RenamePlan}

/-- The plan of an admissible request can be scheduled. -/
theorem schedulable_of_rowOf (h : Admissible V textual o request)
    (hentries : plan.entries = request.changed.map (rowOf V o)) : Schedulable plan o where
  sources_nodup := by
    rw [hentries, List.map_map]
    exact h.sources.sublist (List.filter_sublist.map _)
  destinations_nodup := by
    rw [hentries, List.map_map]
    exact h.destinations
  source_occupied row hrow := by
    rw [hentries] at hrow
    obtain ⟨intent, hintent, rfl⟩ := List.mem_map.1 hrow
    obtain ⟨identity, hoccupied, -⟩ := h.present intent hintent
    refine ⟨⟨identity, V.kind identity, V.isReparsePoint identity⟩, ?_, hoccupied⟩
    simp only [rowOf, Volume.snapshot, Volume.observed, hoccupied, Option.map_some]
  destination_free row hrow hoccupied := by
    rw [hentries] at hrow ⊢
    obtain ⟨intent, hintent, rfl⟩ := List.mem_map.1 hrow
    obtain ⟨other, hother, hkey⟩ := h.occupied intent hintent hoccupied
    exact ⟨_, List.mem_map_of_mem hother, hkey⟩

/-- A temporary name of a row is beside its source. -/
theorem beside_of_rowOf (hV : V.Coherent textual o request)
    (hentries : plan.entries = request.changed.map (rowOf V o)) : Beside V plan := by
  intro i nonce ordinal
  have hrow : plan.row i ∈ plan.entries := row_mem i
  rw [hentries] at hrow
  obtain ⟨intent, -, hintent⟩ := List.mem_map.1 hrow
  have hparent : (plan.row i).sourceSnapshot.parent = V.parent (plan.row i).source := by
    rw [← hintent]
    rfl
  rw [hparent]
  refine hV.beside _ _ ?_
  exact beforeLastSeparator_append (fun _ => isSeparator_of_mem_temporaryLeaf) rfl

variable {folder : LegacyText} {env : Environment (World VolumeState) Call Answer}
  {s t₀ : World VolumeState} {trace₀ : List EngineEvent}
  {attempt : Except PlanAttemptError RenamePlan}

/-- Every rearrangement of the names in a folder is planned, each changed row as it is asked for,
and scheduled, unless a cycle finds none of its temporary names free. -/
theorem planCancellable_rearranges (hserves : Serves V textual request env s)
    (hprobes : Probes V s.backend env s fun _ => False)
    (hV : V.Coherent textual s.backend request) (hrequest : request.Rearranges V s.backend folder)
    (planned : Runs env (planCancellable request).run s trace₀ (some attempt) t₀) :
    t₀ = s ∧ ∃ plan, attempt = .ok plan ∧ plan.entries = request.changed.map (rowOf V s.backend) ∧
      ∀ trace built t, Runs env (buildSchedule plan).run s trace (some built) t →
        (∃ schedule, built = .ok schedule ∧
          Scheduled V plan s.backend (atDestination plan) schedule) ∨
        ∃ error, built = .error error ∧ NoRoom V plan s.backend error := by
  have hadmissible := hrequest.admissible hV
  obtain ⟨-, hpost⟩ := (checks_planCancellable_complete hserves hadmissible).sound planned
  obtain ⟨rfl, hattempt⟩ := hpost _ rfl
  cases attempt with
  | error error => exact hattempt.elim
  | ok plan =>
      refine ⟨rfl, plan, rfl, hattempt, fun trace built t run => ?_⟩
      obtain ⟨-, hpost⟩ := (checks_buildSchedule_crowded hprobes
        (schedulable_of_rowOf hadmissible hattempt) (beside_of_rowOf hV hattempt)).sound run
      obtain ⟨-, hbuilt⟩ := hpost _ rfl
      cases built with
      | error error => exact .inr ⟨error, rfl, hbuilt⟩
      | ok schedule => exact .inl ⟨schedule, rfl, hbuilt⟩

section Sample

/-- The sample directory where the case of ASCII letters makes no difference. -/
def caselessVolume : Volume where
  entryKey parent leaf := flatKey parent ⟨(ApplyConfirmationSummary.lowerKey leaf).units⟩
  parent _ := sampleParent
  kind _ := .file
  isReparsePoint _ := false
  parent_eq_of_entryKey_eq h := (flatVolume sampleParent).parent_eq_of_entryKey_eq h

/-- Two names are exchanged, two move up in a chain, one is written in another case and one is
kept. -/
def mixedRequest : PlanRequest :=
  ⟨⟨1⟩, [sampleIntent 0 "a" "b", sampleIntent 1 "c" "d", sampleIntent 2 "b" "a",
    sampleIntent 3 "g" "G", sampleIntent 4 "d" "e", sampleIntent 5 "h" "h"], .sameParent⟩

def mixedState : VolumeState := fun key =>
  ([("a", ⟨1, 2⟩), ("b", ⟨1, 3⟩), ("c", ⟨1, 4⟩), ("d", ⟨1, 5⟩), ("g", ⟨1, 6⟩), ("h", ⟨1, 7⟩)].find?
    fun entry => caselessVolume.entryKey sampleParent (.ofAscii entry.1) = key).map Prod.snd

theorem mixedRequest_coherent :
    caselessVolume.Coherent caselessVolume.key mixedState mixedRequest where
  separate _ _ := id
  beside _ _ _ := rfl
  directories := by decide +kernel

theorem mixedRequest_rearranges :
    mixedRequest.Rearranges caselessVolume mixedState (.ofAscii "C:\\w") where
  scope := rfl
  absolute := by decide
  depth := by decide
  within intent hintent := by
    have hwithin : ∀ intent ∈ mixedRequest.entries, intent.kind = .file ∧
        intent.destinationParent = .ofAscii "C:\\w" ∧
        pathComponentDepth intent.source.units ≤ maxPlanPathDepth ∧
        (pathLeaf intent.source).units.any isSeparator = false ∧
        intent.source = (LegacyText.ofAscii "C:\\w").child (pathLeaf intent.source) := by
      decide
    obtain ⟨hkind, hparent, hdepth, hname, hsource⟩ := hwithin intent hintent
    refine ⟨hkind, hparent, hdepth, _, fun unit hunit => ?_, hsource⟩
    exact Bool.eq_false_of_not_eq_true (List.any_eq_false.1 hname unit hunit)
  ids := by decide
  sources := by decide +kernel
  present := by decide +kernel
  names := by decide +kernel
  destinations := by decide +kernel
  occupied := by decide +kernel

/-- The mixed request is planned with its five changed rows and scheduled in seven steps, two of
them to a temporary name. -/
theorem planCancellable_rearranges_mixed : ∃ (plan : RenamePlan) (schedule : List ScheduleStep),
    plan.entries = mixedRequest.changed.map (rowOf caselessVolume mixedState) ∧
      plan.entries.length = 5 ∧ schedule.length = 7 ∧
      Scheduled caselessVolume plan mixedState (atDestination plan) schedule := by
  let handler := (caselessVolume.ports 5).handler
  have hallowed := caselessVolume.ports_undisturbed 5 mixedRequest
  have hplan : (((planCancellable mixedRequest).run.run handler
      ⟨mixedState, []⟩).1.toOption.map fun plan => (plan.entries.length,
        ((buildSchedule plan).run.run handler ⟨mixedState, []⟩).1.toOption.map List.length)) =
      some (5, some 7) := by decide +kernel
  obtain ⟨plan, trace₀, hbuilt, planned⟩ := Runs.of_toOption hallowed hplan
  obtain ⟨hfive, hschedule⟩ := Prod.mk.inj hbuilt
  obtain ⟨schedule, trace, hseven, run⟩ := Runs.of_toOption hallowed hschedule
  obtain ⟨-, plan', hplan', hentries, hscheduled⟩ := planCancellable_rearranges
    Volume.serves_undisturbed Volume.probes_undisturbed mixedRequest_coherent
    mixedRequest_rearranges planned
  obtain rfl : plan = plan' := Except.ok.inj hplan'
  rcases hscheduled _ _ _ run with ⟨schedule', hschedule', hexecutes⟩ | ⟨error, herror, -⟩
  · obtain rfl : schedule = schedule' := Except.ok.inj hschedule'
    exact ⟨plan, schedule, hentries, hfive, hseven, hexecutes⟩
  · cases herror

end Sample

end Planner

end DarkReNamer
