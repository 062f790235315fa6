import DarkReNamer.Interaction.Confined
import DarkReNamer.Interaction.Read
import DarkReNamer.Rename.Planner
import DarkReNamer.Rename.World

/-!
# The loops of the planner

Rules for `foldChecked` and the passes built on it alone. A pass that only computes
returns what the plain fold computes, and the issues it adds are known exactly, so that
the same lemmas serve for what a plan promises and for when a request is refused.
-/

namespace DarkReNamer

open Std Interaction

namespace Planner

section Confined

variable {α β : Type}

theorem tries_checkCancelled : Tries Call.IsRead (fun _ => True) checkCancelled := by
  refine Tries.bind (Tries.ask trivial) fun cancelled _ => ?_
  cases cancelled with
  | true => exact Tries.throw _
  | false => exact Tries.pure trivial

theorem tries_foldChecked {step : β → α → ExceptT PlanAttemptError Engine β}
    (h : ∀ acc a, Tries Call.IsRead (fun _ => True) (step acc a)) (l : List α) (acc : β) :
    Tries Call.IsRead (fun _ => True) (foldChecked step l acc) := by
  induction l generalizing acc with
  | nil => exact Tries.pure trivial
  | cons a l ih =>
      refine Tries.bind tries_checkCancelled fun _ _ => ?_
      exact Tries.bind (h acc a) fun _ _ => ih _

theorem tries_visitDirectAncestors
    {visit : LegacyText → β → ExceptT PlanAttemptError Engine (β × Bool)}
    (h : ∀ path acc, Tries Call.IsRead (fun _ => True) (visit path acc)) (path : LegacyText)
    (acc : β) : Tries Call.IsRead (fun _ => True) (visitDirectAncestors path visit acc) := by
  have hfrom : ∀ verbatim root rounds ancestor acc, Tries Call.IsRead (fun _ => True)
      (visitFrom verbatim root visit rounds ancestor acc) := by
    intro verbatim root rounds
    induction rounds with
    | zero => exact fun _ _ => Tries.pure trivial
    | succ rounds ih =>
        intro ancestor acc
        refine Tries.bind tries_checkCancelled fun _ _ => ?_
        split
        · exact Tries.pure trivial
        · split
          · exact Tries.pure trivial
          · dsimp only
            split
            · exact Tries.pure trivial
            · refine Tries.bind (h _ _) fun result _ => ?_
              obtain ⟨acc, stop⟩ := result
              cases stop with
              | true => exact Tries.pure trivial
              | false => exact ih _ _
  exact hfrom _ _ _ _ _

theorem tries_validateEnvironment (issues : List PlanIssue) (intent : RenameIntent) :
    Tries Call.IsRead (fun _ => True) (validateEnvironment issues intent) := by
  refine tries_foldChecked (fun issues path => ?_) _ _
  refine Tries.bind (Tries.ask trivial) fun answer _ => ?_
  cases answer with
  | ok _ => exact Tries.pure trivial
  | error error => exact Tries.pure trivial

theorem tries_collectOverlap (changed : List RenameIntent)
    (sourceOwners : ExtTreeMap PathKey (List EntryId)) :
    Tries Call.IsRead (fun _ => True) (collectOverlap changed sourceOwners) := by
  refine tries_foldChecked (fun overlap intent => ?_) _ _
  refine tries_visitDirectAncestors (fun ancestor overlap => ?_) _ _
  refine Tries.bind (Tries.ask trivial) fun key _ => ?_
  split
  · exact Tries.pure trivial
  · exact Tries.pure trivial

theorem tries_inspectAncestor (directoryOwners : DirectoryOwners) (candidate : EntryId)
    (ancestor : LegacyText) (inspection : Inspection) :
    Tries Call.IsRead (fun _ => True)
      (inspectAncestor directoryOwners candidate ancestor inspection) := by
  refine Tries.bind (Tries.ask trivial) fun answer _ => ?_
  cases answer with
  | ok snapshot => exact Tries.pure trivial
  | error error =>
      dsimp only
      split
      · exact Tries.pure trivial
      · exact Tries.pure trivial

theorem tries_inspectEndpoint (directoryOwners : DirectoryOwners) (endpoint : LegacyText)
    (candidate : EntryId) (observation : Except BackendError PathSnapshot)
    (compareEndpointEntry : Bool) (inspection : Inspection) :
    Tries Call.IsRead (fun _ => True) (inspectEndpoint directoryOwners endpoint candidate
      observation compareEndpointEntry inspection) := by
  have hvisit : ∀ inspection, Tries Call.IsRead (fun _ => True)
      (visitDirectAncestors endpoint (inspectAncestor directoryOwners candidate) inspection) :=
    tries_visitDirectAncestors (tries_inspectAncestor _ _) _
  unfold inspectEndpoint
  cases observation with
  | ok snapshot =>
      dsimp only
      split
      · exact Tries.pure trivial
      · exact hvisit _
  | error error =>
      dsimp only
      split
      · exact hvisit _
      · exact Tries.pure trivial

theorem tries_issueEach (kind : PlanIssueKind) (entries : List EntryId)
    (issues : List PlanIssue) :
    Tries Call.IsRead (fun _ => True) (issueEach kind entries issues) :=
  tries_foldChecked (fun _ _ => Tries.pure trivial) _ _

theorem tries_collectDirectories (entries : List PlanRow) :
    Tries Call.IsRead (fun _ => True) (collectDirectories entries) := by
  refine tries_foldChecked (fun owners row => ?_) _ _
  split
  · exact Tries.pure trivial
  · exact Tries.pure trivial

theorem tries_observationOf (snapshots : ExtTreeMap EntryId PathSnapshot) (id : EntryId)
    (path : LegacyText) :
    Confined Call.IsRead (fun _ => True) (observationOf snapshots id path) := by
  unfold observationOf
  split
  · trivial
  · exact Confined.ask trivial

theorem tries_checkDirectories (request changed : List RenameIntent)
    (hasChangedDirectory : Bool) (rows : RowsState) :
    Tries Call.IsRead (fun _ => True)
      (checkDirectories request changed hasChangedDirectory rows) := by
  have hinspect : ∀ directoryOwners, Tries Call.IsRead (fun _ => True)
      (inspectDirectories request changed rows directoryOwners) := by
    intro directoryOwners
    refine Tries.bind (tries_foldChecked (fun inspection intent => ?_) _ _) fun _ _ => ?_
    · dsimp only
      split
      · exact Tries.bind (Tries.lift (tries_observationOf _ _ _)) fun observation _ =>
          tries_inspectEndpoint _ _ _ _ _ _
      · exact Tries.bind (Tries.ask trivial) fun observation _ =>
          tries_inspectEndpoint _ _ _ _ _ _
    · refine Tries.bind (tries_foldChecked (fun inspection intent => ?_) _ _) fun _ _ =>
        tries_issueEach _ _ _
      exact Tries.bind (Tries.lift (tries_observationOf _ _ _)) fun observation _ =>
        tries_inspectEndpoint _ _ _ _ _ _
  have hrest : ∀ directoryOwners : DirectoryOwners, Tries Call.IsRead (fun _ => True)
      (if directoryOwners.isEmpty then pure []
        else inspectDirectories request changed rows directoryOwners) := by
    intro directoryOwners
    split
    · exact Tries.pure trivial
    · exact hinspect _
  unfold checkDirectories
  split
  · exact Tries.bind (tries_collectDirectories _) fun _ _ => hrest _
  · exact hrest ∅

theorem tries_planIdCancellable (request : PlanRequest) :
    Tries Call.IsRead (fun _ => True) (planIdCancellable request) :=
  Tries.bind (tries_foldChecked (fun _ _ => Tries.pure trivial) _ _)
    fun _ _ => Tries.pure trivial

end Confined

section Checks

variable {σ α β : Type} {env : Environment σ Call Answer} {s : σ}
  {E : PlanAttemptError → Prop}

theorem checks_checkCancelled (h : Polls env s (E .cancelled)) :
    Checks env checkCancelled s (fun _ => True) E := by
  refine Checks.bind (Checks.lift (Reads.ask h)) fun a ha => ?_
  cases a with
  | true => exact Checks.throw (ha rfl)
  | false => exact Checks.pure trivial

/-- A loop with an invariant over the part of the list already walked. -/
theorem checks_foldChecked (hpolls : Polls env s (E .cancelled))
    {step : β → α → ExceptT PlanAttemptError Engine β} (I : List α → β → Prop)
    {l : List α} {acc : β} (hinit : I [] acc)
    (hstep : ∀ done a rest acc, l = done ++ a :: rest → I done acc →
      Checks env (step acc a) s (I (done ++ [a])) E) :
    Checks env (foldChecked step l acc) s (I l) E := by
  have hfrom : ∀ rest done acc, l = done ++ rest → I done acc →
      Checks env (foldChecked step rest acc) s (I l) E := by
    intro rest
    induction rest with
    | nil =>
        intro done acc hl hI
        rw [List.append_nil] at hl
        subst hl
        exact Checks.pure hI
    | cons a rest ih =>
        intro done acc hl hI
        refine Checks.bind (checks_checkCancelled hpolls) fun _ _ => ?_
        refine Checks.bind (hstep done a rest acc hl hI) fun acc' hacc => ?_
        exact ih (done ++ [a]) acc' (by simp [hl]) hacc
  exact hfrom l [] acc rfl hinit

/-- A loop that only computes. -/
theorem checks_foldChecked_pure (hpolls : Polls env s (E .cancelled)) (f : β → α → β)
    (l : List α) (acc : β) :
    Checks env (foldChecked (fun acc a => pure (f acc a)) l acc) s
      (fun r => r = l.foldl f acc) E := by
  refine checks_foldChecked hpolls (fun done r => r = done.foldl f acc) rfl ?_
  rintro done a rest acc' - rfl
  exact Checks.pure (by simp)

theorem checks_collectChanged (hpolls : Polls env s (E .cancelled))
    (entries : List RenameIntent) :
    Checks env (collectChanged entries) s
      (fun changed => changed = entries.filter RenameIntent.changes) E := by
  refine checks_foldChecked hpolls
    (fun done changed => changed = done.filter RenameIntent.changes) rfl ?_
  rintro done intent rest acc - rfl
  refine Checks.pure ?_
  rw [List.filter_append]
  by_cases h : intent.changes = true <;> simp [h]

/-- The issues of a pass that reports on each element. -/
theorem foldl_append_flatMap (f : α → List PlanIssue) (l : List α) (issues : List PlanIssue) :
    l.foldl (fun issues a => issues ++ f a) issues = issues ++ l.flatMap f := by
  induction l generalizing issues with
  | nil => simp
  | cons a l ih => simp [ih]

/-- The textual issues of a request. -/
def textIssues (entries changed : List RenameIntent) : List PlanIssue :=
  changed.flatMap (fun intent => report intent.id (validateIntent intent)) ++
    if changed.isEmpty then []
    else (entries.filter fun intent => !intent.changes).flatMap fun intent =>
      report intent.id (validateSourcePath intent)

theorem checks_validateTexts (hpolls : Polls env s (E .cancelled))
    (entries changed : List RenameIntent) :
    Checks env (validateTexts entries changed) s
      (fun issues => issues = textIssues entries changed) E := by
  unfold validateTexts
  refine Checks.bind (checks_foldChecked_pure hpolls _ _ _) fun issues hissues => ?_
  rw [foldl_append_flatMap, List.nil_append] at hissues
  subst hissues
  unfold textIssues
  split
  · exact Checks.pure (by simp)
  · refine (checks_foldChecked_pure hpolls _ _ _).mono (fun r hr => ?_) fun _ => id
    rw [hr, foldl_append_flatMap]

theorem checks_issueEach (hpolls : Polls env s (E .cancelled)) (kind : PlanIssueKind)
    (entries : List EntryId) (issues : List PlanIssue) :
    Checks env (issueEach kind entries issues) s
      (fun r => r = issues ++ entries.map fun entry => ⟨entry, kind⟩) E := by
  refine (checks_foldChecked_pure hpolls _ _ _).mono (fun r hr => ?_) fun _ => id
  rw [hr, foldl_append_flatMap]
  rw [List.map_eq_flatMap]

/-- The issues of the groups with more than one member. -/
def duplicateIssues (ownerSets : List (List EntryId)) (kind : PlanIssueKind) :
    List PlanIssue :=
  (ownerSets.filter fun owners => decide (owners.length > 1)).flatMap fun owners =>
    owners.map fun entry => ⟨entry, kind⟩

theorem duplicateIssues_eq_nil_iff {ownerSets : List (List EntryId)} {kind : PlanIssueKind} :
    duplicateIssues ownerSets kind = [] ↔ ∀ owners ∈ ownerSets, owners.length ≤ 1 := by
  unfold duplicateIssues
  rw [List.flatMap_eq_nil_iff]
  constructor
  · intro h owners howners
    by_contra hlong
    have hnil := h owners (List.mem_filter.2 ⟨howners, by simpa using hlong⟩)
    rw [List.map_eq_nil_iff] at hnil
    simp [hnil] at hlong
  · intro h owners howners
    obtain ⟨hmem, hlong⟩ := List.mem_filter.1 howners
    exact absurd (h owners hmem) (by simpa using hlong)

theorem checks_appendDuplicateIssues (hpolls : Polls env s (E .cancelled))
    (ownerSets : List (List EntryId)) (kind : PlanIssueKind) (issues : List PlanIssue) :
    Checks env (appendDuplicateIssues ownerSets kind issues) s
      (fun r => r = issues ++ duplicateIssues ownerSets kind) E := by
  refine (checks_foldChecked hpolls (fun done r => r = issues ++ done.flatMap fun owners =>
    owners.map fun entry => ⟨entry, kind⟩) (by simp) ?_).mono (fun r hr => hr) fun _ => id
  rintro done owners rest acc - rfl
  refine (checks_issueEach hpolls kind owners _).mono (fun r hr => ?_) fun _ => id
  rw [hr]
  simp

/-- The check of a pass: no issues, or a refusal that is admitted. -/
theorem checks_refuse {issues : List PlanIssue}
    (h : issues ≠ [] → E (.plan issues)) :
    Checks env (refuse issues) s (fun _ => issues = []) E := by
  unfold refuse
  split
  · next hnil => exact Checks.pure hnil
  · next hne => exact Checks.throw (h hne)

/-- The owners of a request, under the keys that the backend gave its paths. -/
def ownersOf (keyed : List (RenameIntent × PathKey × PathKey)) : Owners where
  source := ownersBy (fun x => x.2.1) (fun x => x.1.id) keyed
  entry := ownersBy (fun x => x.1.id) (fun x => x.1.id) keyed
  destination := ownersBy (fun x => x.2.2) (fun x => x.1.id) keyed

theorem checks_collectOwners (hpolls : Polls env s (E .cancelled))
    {K : LegacyText → PathKey → Prop} (hkey : ∀ path, Reads env (pathKey path) s (K path))
    (changed : List RenameIntent) :
    Checks env (collectOwners changed) s
      (fun owners => ∃ keyed, keyed.map Prod.fst = changed ∧
        (∀ x ∈ keyed, K x.1.source x.2.1 ∧ K x.1.destination x.2.2) ∧
        owners = ownersOf keyed) E := by
  refine checks_foldChecked hpolls (fun done owners => ∃ keyed, keyed.map Prod.fst = done ∧
    (∀ x ∈ keyed, K x.1.source x.2.1 ∧ K x.1.destination x.2.2) ∧ owners = ownersOf keyed)
    ⟨[], rfl, by simp, rfl⟩ ?_
  rintro done intent rest owners - ⟨keyed, rfl, hkeyed, rfl⟩
  refine Checks.bind (Checks.lift (hkey _)) fun sourceKey hsource => ?_
  refine Checks.bind (Checks.lift (hkey _)) fun destinationKey hdestination => ?_
  refine Checks.pure ⟨keyed ++ [(intent, sourceKey, destinationKey)], by simp, ?_, ?_⟩
  · intro x hx
    rcases List.mem_append.1 hx with hx | hx
    · exact hkeyed x hx
    · rw [List.mem_singleton.1 hx]
      exact ⟨hsource, hdestination⟩
  · simp [ownersOf, ownersBy]

theorem checks_checkDestinationKeys (hpolls : Polls env s (E .cancelled))
    (entries : List PlanRow) :
    Checks env (checkDestinationKeys entries) s
      (fun issues => issues = [] ↔ (entries.map PlanRow.destinationEntryKey).Nodup) E := by
  unfold checkDestinationKeys
  refine Checks.bind (checks_foldChecked_pure hpolls _ _ _) fun owners howners => ?_
  refine (checks_appendDuplicateIssues hpolls _ _ _).mono (fun r hr => ?_) fun _ => id
  rw [hr, howners, List.nil_append, duplicateIssues_eq_nil_iff]
  exact forall_ownerSets_length_le_one_iff

/-- The rows whose occupied destination is no source of the plan. -/
theorem checks_checkOccupied (hpolls : Polls env s (E .cancelled)) (entries : List PlanRow) :
    Checks env (checkOccupied entries) s
      (fun issues => issues = [] ↔ ∀ row ∈ entries,
        row.destinationSnapshot.entry.isSome = true →
          ∃ other ∈ entries, other.sourceEntryKey = row.destinationEntryKey) E := by
  unfold checkOccupied
  refine Checks.bind (checks_foldChecked hpolls
    (fun done (keys : ExtTreeSet PathKey) =>
      ∀ key, key ∈ keys ↔ ∃ row ∈ done, row.sourceEntryKey = key) (by simp) ?_)
    fun keys hkeys => ?_
  · rintro done row rest keys - hkeys
    refine Checks.pure fun key => ?_
    rw [ExtTreeSet.mem_insert, LawfulEqCmp.compare_eq_iff_eq, hkeys]
    simp only [List.mem_append, List.mem_singleton, or_and_right, exists_or, exists_eq_left]
    exact or_comm
  · refine checks_foldChecked hpolls (fun (done : List PlanRow) issues => issues = [] ↔
      ∀ row ∈ done,
      row.destinationSnapshot.entry.isSome = true →
        ∃ other ∈ entries, other.sourceEntryKey = row.destinationEntryKey) (by simp) ?_
    rintro done row rest issues - hissues
    have hcontains : keys.contains row.destinationEntryKey = true ↔
        ∃ other ∈ entries, other.sourceEntryKey = row.destinationEntryKey := by
      rw [ExtTreeSet.contains_iff_mem]
      exact hkeys _
    split
    · next hoccupied =>
        refine Checks.pure ?_
        simp only [Bool.and_eq_true, Bool.not_eq_true', Bool.eq_false_iff, Ne,
          hcontains] at hoccupied
        simp only [List.append_eq_nil_iff, List.cons_ne_nil, and_false, false_iff]
        exact fun h => hoccupied.2 (h row (by simp) hoccupied.1)
    · next hfree =>
        refine Checks.pure ?_
        simp only [Bool.and_eq_true, Bool.not_eq_true', Bool.eq_false_iff, Ne, hcontains,
          not_and, not_not] at hfree
        rw [hissues]
        simp only [List.mem_append, List.mem_singleton]
        constructor
        · rintro h other (hother | rfl)
          · exact h other hother
          · exact hfree
        · exact fun h other hother => h other (.inl hother)

end Checks

end Planner

end DarkReNamer
