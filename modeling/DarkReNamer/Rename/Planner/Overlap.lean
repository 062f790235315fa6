import DarkReNamer.Rename.Planner.Ancestors
import DarkReNamer.Rename.Planner.Sound

/-!
# Rows beneath a changed directory

The pass over the directories compares the parent of each endpoint, and of each of its
ancestors, with the identities of the changed directories. An inspection that ends clean was
clean all along, so every parent it met is that of no changed directory. Over a backend that
answers consistently this leaves no row of a plan beneath a changed directory, as far as the
walk sees the ancestors of its endpoints.
-/

namespace DarkReNamer

open Std Interaction

namespace Volume

open Planner

/-- The path lies anywhere beneath the directory: the directory is its parent, or that of one
of its ancestors. -/
def Beneath (V : Volume) (path : LegacyText) (directory : EntryIdentity) : Prop :=
  V.parent path = directory ∨ ∃ ancestor k, 0 < k ∧ k < pathComponentDepth path.units ∧
    Names path ancestor k ∧ V.parent ancestor = directory

/-- What is there has ancestors that are there. -/
def HasAncestors (backend : BackendRel VolumeState) (o : VolumeState) (path : LegacyText) : Prop :=
  ∀ {ancestor k error o'}, 0 < k → k < pathComponentDepth path.units →
    Names path ancestor k → backend o (.observe ancestor) (.error error) o' →
    isNotFoundError error = false

/-- A backend of the volume whose answers about a path and its ancestors agree. -/
structure Consistent (V : Volume) (backend : BackendRel VolumeState) : Prop where
  allowed : ∀ {o call answer o'}, backend o call answer o' → V.backendRel o call answer o'
  parent_eq : ∀ {path ancestor ancestor' k}, 0 < k → Names path ancestor k →
    Names path ancestor' k → V.parent ancestor = V.parent ancestor'
  observed : ∀ {o path snapshot o'}, backend o (.observe path) (.ok snapshot) o' →
    HasAncestors backend o path
  resolved : ∀ {o path resolved o'}, backend o (.resolveSource path) (.ok resolved) o' →
    HasAncestors backend o path ∧ resolved.snapshot.parent = V.parent path ∧
      ∀ directory, V.Beneath resolved.path directory → V.Beneath path directory

end Volume

namespace Planner

/-! ### A clean inspection -/

/-- An inspection that found nothing. -/
structure Inspection.Clean (inspection : Inspection) : Prop where
  overlapEntries : ∀ id, id ∉ inspection.overlapEntries
  issues : inspection.issues = []

section Record

variable {owners : DirectoryOwners} {candidate : EntryId} {excludeCandidate : Bool}
  {inspection : Inspection}

theorem recordIdentityOverlap_clean {identity : EntryIdentity}
    (h : (recordIdentityOverlap owners identity candidate excludeCandidate inspection).2.Clean) :
    inspection.Clean ∧
      (recordIdentityOverlap owners identity candidate excludeCandidate inspection).1 = false ∧
      (excludeCandidate = false → owners[identity]? = none) := by
  unfold recordIdentityOverlap at h ⊢
  cases howners : owners[identity]? with
  | none =>
      rw [howners] at h
      exact ⟨h, rfl, fun _ => rfl⟩
  | some ids =>
      rw [howners] at h
      dsimp only at h ⊢
      split at h
      · next hexcluded =>
          rw [if_pos hexcluded]
          refine ⟨h, rfl, ?_⟩
          rintro rfl
          simp at hexcluded
      · refine absurd ?_ (h.overlapEntries candidate)
        rw [ExtTreeSet.mem_insertMany_list]
        exact .inl ExtTreeSet.mem_insert_self

theorem recordSnapshotOverlap_clean {snapshot : PathSnapshot} {compareEntry : Bool}
    (h : (recordSnapshotOverlap owners snapshot candidate compareEntry excludeCandidate
      inspection).2.Clean) :
    inspection.Clean ∧
      (recordSnapshotOverlap owners snapshot candidate compareEntry excludeCandidate
        inspection).1 = false ∧ owners[snapshot.parent]? = none := by
  unfold recordSnapshotOverlap at h ⊢
  obtain ⟨hentry, hmatches, hparent⟩ := recordIdentityOverlap_clean h
  dsimp only at h ⊢
  rw [hmatches, Bool.or_false]
  refine ⟨?_, ?_, hparent rfl⟩
  · cases hsnapshot : snapshot.entry with
    | none =>
        rw [hsnapshot] at hentry
        exact hentry
    | some entry =>
        rw [hsnapshot] at hentry
        dsimp only at hentry
        split at hentry
        · exact (recordIdentityOverlap_clean hentry).1
        · exact hentry
  · cases hsnapshot : snapshot.entry with
    | none => rfl
    | some entry =>
        rw [hsnapshot] at hentry
        dsimp only at hentry ⊢
        split at hentry
        · next hdirectory =>
            rw [if_pos hdirectory]
            exact (recordIdentityOverlap_clean hentry).2.1
        · next hfile => rw [if_neg hfile]

end Record

section Inspect

variable {V : Volume} {env : Environment (World VolumeState) Call Answer}
  {s : World VolumeState} {owners : DirectoryOwners}

/-- The ancestor is not there, or its parent is no changed directory. -/
def Cleared (V : Volume) (env : Environment (World VolumeState) Call Answer)
    (s : World VolumeState) (owners : DirectoryOwners) (ancestor : LegacyText) : Prop :=
  (∃ error t, env s (.backend (.observe ancestor)) (.error error) t ∧
    isNotFoundError error = true) ∨ owners[V.parent ancestor]? = none

theorem checks_inspectAncestor (h : V.Admits env s) (candidate : EntryId)
    (ancestor : LegacyText) (inspection : Inspection) :
    Checks env (inspectAncestor owners candidate ancestor inspection) s
      (fun r => r.1.Clean → inspection.Clean ∧ r.2 = false ∧ Cleared V env s owners ancestor)
      fun _ => True := by
  refine Checks.bind (Checks.lift (h.reads_observe ancestor).answered) fun answer hanswer => ?_
  obtain ⟨hsnapshot, t, step⟩ := hanswer
  cases answer with
  | error error =>
      dsimp only
      split
      · next hnotfound =>
          exact Checks.pure fun hclean => ⟨hclean, rfl, .inl ⟨error, t, step, hnotfound⟩⟩
      · refine Checks.pure fun hclean => ?_
        simpa using hclean.issues
  | ok snapshot =>
      refine Checks.pure fun hclean => ?_
      obtain ⟨hinspection, hoverlaps, hparent⟩ := recordSnapshotOverlap_clean hclean
      refine ⟨hinspection, hoverlaps, .inr ?_⟩
      rw [hsnapshot snapshot rfl] at hparent
      exact hparent

/-- An endpoint whose parent is no changed directory, and whose visited ancestors are cleared. -/
structure EndpointCleared (V : Volume) (env : Environment (World VolumeState) Call Answer)
    (s : World VolumeState) (owners : DirectoryOwners) (endpoint : LegacyText)
    (snapshot : PathSnapshot) : Prop where
  parent : owners[snapshot.parent]? = none
  ancestors : ∀ ancestor ∈ directAncestors endpoint, Cleared V env s owners ancestor

theorem checks_inspectEndpoint (h : V.Admits env s) (endpoint : LegacyText)
    (candidate : EntryId) (observation : Except BackendError PathSnapshot)
    (compareEndpointEntry : Bool) (inspection : Inspection) :
    Checks env (inspectEndpoint owners endpoint candidate observation compareEndpointEntry
      inspection) s
      (fun r => r.Clean → inspection.Clean ∧ ∀ snapshot, observation = .ok snapshot →
        EndpointCleared V env s owners endpoint snapshot) fun _ => True := by
  have hwalk : ∀ inspection, Checks env
      (visitDirectAncestors endpoint (inspectAncestor owners candidate) inspection) s
      (fun r => r.Clean → inspection.Clean ∧
        ∀ ancestor ∈ directAncestors endpoint, Cleared V env s owners ancestor)
      fun _ => True := by
    intro inspection
    refine (checks_visitDirectAncestors h.polls (fun seen (acc : Inspection) => acc.Clean →
      inspection.Clean ∧ ∀ ancestor ∈ seen, Cleared V env s owners ancestor)
      (fun acc => ¬ acc.Clean) (fun hclean => ⟨hclean, by simp⟩) ?_).mono ?_ fun _ => id
    · intro seen ancestor acc hacc
      refine (checks_inspectAncestor h candidate ancestor acc).mono (fun r hr => ?_) fun _ => id
      split
      · next hstop =>
          intro hclean
          rw [(hr hclean).2.1] at hstop
          cases hstop
      · intro hclean
        obtain ⟨hclean, -, hcleared⟩ := hr hclean
        obtain ⟨hinspection, hseen⟩ := hacc hclean
        refine ⟨hinspection, fun other hother => ?_⟩
        rcases List.mem_append.1 hother with hother | hother
        · exact hseen other hother
        · rw [List.mem_singleton.1 hother]
          exact hcleared
    · rintro acc (hacc | hstopped) hclean
      · exact hacc hclean
      · exact absurd hclean hstopped
  unfold inspectEndpoint
  cases observation with
  | error error =>
      dsimp only
      split
      · exact (hwalk _).mono (fun r hr hclean => ⟨(hr hclean).1, by simp⟩) fun _ => id
      · refine Checks.pure fun hclean => ?_
        simpa using hclean.issues
  | ok snapshot =>
      dsimp only
      split
      · next hmatches =>
          refine Checks.pure fun hclean => ?_
          rw [(recordSnapshotOverlap_clean hclean).2.1] at hmatches
          cases hmatches
      · refine (hwalk _).mono (fun r hr hclean => ?_) fun _ => id
        obtain ⟨hclean, hancestors⟩ := hr hclean
        obtain ⟨hinspection, -, hparent⟩ := recordSnapshotOverlap_clean hclean
        refine ⟨hinspection, ?_⟩
        rintro _ ⟨⟩
        exact ⟨hparent, hancestors⟩

/-- A snapshot that is kept is the observation. -/
theorem checks_observationOf (h : V.Admits env s) (snapshots : ExtTreeMap EntryId PathSnapshot)
    (id : EntryId) (path : LegacyText) :
    Checks env (liftM (observationOf snapshots id path) : ExceptT PlanAttemptError Engine _) s
      (fun observation => ∀ snapshot, snapshots[id]? = some snapshot →
        observation = .ok snapshot) fun _ => True := by
  unfold observationOf
  split
  · next snapshot hsnapshot =>
      refine Checks.lift (Reads.pure ?_)
      rintro _ hkept
      rw [Option.some.inj (hsnapshot.symm.trans hkept)]
  · next hnone =>
      refine Checks.lift ((h.reads_observe path).mono fun _ _ => ?_)
      rintro _ hkept
      rw [hnone] at hkept
      cases hkept

/-- The kept endpoints of the intents are cleared. -/
def AllCleared (V : Volume) (env : Environment (World VolumeState) Call Answer)
    (s : World VolumeState) (owners : DirectoryOwners)
    (snapshots : ExtTreeMap EntryId PathSnapshot) (endpoint : RenameIntent → LegacyText)
    (intents : List RenameIntent) : Prop :=
  ∀ intent ∈ intents, intent.changes = true → ∀ snapshot, snapshots[intent.id]? = some snapshot →
    EndpointCleared V env s owners (endpoint intent) snapshot

theorem AllCleared.push {snapshots : ExtTreeMap EntryId PathSnapshot}
    {endpoint : RenameIntent → LegacyText} {done : List RenameIntent} {intent : RenameIntent}
    (h : AllCleared V env s owners snapshots endpoint done)
    (hintent : intent.changes = true → ∀ snapshot, snapshots[intent.id]? = some snapshot →
      EndpointCleared V env s owners (endpoint intent) snapshot) :
    AllCleared V env s owners snapshots endpoint (done ++ [intent]) := by
  intro other hother
  rcases List.mem_append.1 hother with hother | hother
  · exact h other hother
  · rw [List.mem_singleton.1 hother]
    exact hintent

theorem checks_inspectDirectories (h : V.Admits env s) (request changed : List RenameIntent)
    (rows : RowsState) :
    Checks env (inspectDirectories request changed rows owners) s
      (fun issues => issues = [] →
        AllCleared V env s owners rows.sourceSnapshots RenameIntent.source request ∧
        AllCleared V env s owners rows.destinationSnapshots RenameIntent.destination changed)
      fun _ => True := by
  unfold inspectDirectories
  refine Checks.bind (checks_foldChecked h.polls (fun done (inspection : Inspection) =>
    inspection.Clean → AllCleared V env s owners rows.sourceSnapshots RenameIntent.source done)
    (by simp [AllCleared]) ?_) fun sources hsources => ?_
  · intro done intent rest inspection _ hdone
    have hinspect : ∀ observation, (intent.changes = true →
        ∀ snapshot, rows.sourceSnapshots[intent.id]? = some snapshot →
          observation = .ok snapshot) →
        Checks env (inspectEndpoint owners intent.source intent.id observation true inspection) s
          (fun r => r.Clean → AllCleared V env s owners rows.sourceSnapshots
            RenameIntent.source (done ++ [intent])) fun _ => True := by
      intro observation hobservation
      refine (checks_inspectEndpoint h _ _ observation _ _).mono (fun r hr hclean => ?_)
        fun _ => id
      obtain ⟨hinspection, hcleared⟩ := hr hclean
      exact (hdone hinspection).push fun hchanges snapshot hkept =>
        hcleared snapshot (hobservation hchanges snapshot hkept)
    dsimp only
    split
    · exact Checks.bind (checks_observationOf h _ _ _) fun observation hobservation =>
        hinspect observation fun _ => hobservation
    · next hsame =>
        exact Checks.bind (Checks.lift (h.reads_observe _)) fun observation _ =>
          hinspect observation fun hchanges => absurd hchanges hsame
  · refine Checks.bind (checks_foldChecked h.polls (fun done (inspection : Inspection) =>
      inspection.Clean → sources.Clean ∧
        AllCleared V env s owners rows.destinationSnapshots RenameIntent.destination done)
      (fun hclean => ⟨hclean, by simp [AllCleared]⟩) ?_) fun inspection hinspection => ?_
    · intro done intent rest inspection _ hdone
      refine Checks.bind (checks_observationOf h _ _ _) fun observation hobservation => ?_
      refine (checks_inspectEndpoint h _ _ observation _ _).mono (fun r hr hclean => ?_)
        fun _ => id
      obtain ⟨hclean, hcleared⟩ := hr hclean
      obtain ⟨hstart, hdestinations⟩ := hdone hclean
      exact ⟨hstart, hdestinations.push fun _ snapshot hkept =>
        hcleared snapshot (hobservation snapshot hkept)⟩
    · refine (checks_issueEach h.polls _ _ _).mono (fun issues hissues hnil => ?_) fun _ => id
      rw [hissues, List.append_eq_nil_iff, List.map_eq_nil_iff] at hnil
      have hclean : inspection.Clean := by
        refine ⟨fun id hid => ?_, hnil.1⟩
        rw [← ExtTreeSet.mem_toList, hnil.2] at hid
        cases hid
      obtain ⟨hstart, hdestinations⟩ := hinspection hclean
      exact ⟨hsources hstart, hdestinations⟩

/-- The row moves the directory. -/
def MovesDirectory (row : PlanRow) (directory : EntryIdentity) : Prop :=
  row.kind = .directory ∧ ∃ entry, row.sourceSnapshot.entry = some entry ∧
    entry.identity = directory

theorem checks_collectDirectories (h : V.Admits env s) (entries : List PlanRow) :
    Checks env (collectDirectories entries) s
      (fun owners => ∀ row ∈ entries, ∀ directory, MovesDirectory row directory →
        owners[directory]? ≠ none) fun _ => True := by
  refine checks_foldChecked h.polls (fun done (owners : DirectoryOwners) => ∀ row ∈ done,
    ∀ directory, MovesDirectory row directory → owners[directory]? ≠ none) (by simp) ?_
  intro done row rest owners _ hdone
  split
  · next source hkind hsource =>
      refine Checks.pure fun other hother directory hmoves => ?_
      rw [getElem?_pushOwner]
      split
      · simp
      · next hne =>
          rcases List.mem_append.1 hother with hother | hother
          · exact hdone other hother directory hmoves
          · obtain ⟨-, entry, hentry, hdirectory⟩ := hmoves
            rw [List.mem_singleton.1 hother, hsource] at hentry
            rw [← Option.some.inj hentry] at hdirectory
            exact absurd hdirectory hne
  · next hnot =>
      refine Checks.pure fun other hother directory hmoves => ?_
      rcases List.mem_append.1 hother with hother | hother
      · exact hdone other hother directory hmoves
      · obtain ⟨hkind, entry, hentry, -⟩ := hmoves
        rw [List.mem_singleton.1 hother] at hkind hentry
        exact absurd hentry (hnot entry hkind)

/-- The endpoints of the changed intents are cleared of the directory. -/
def ClearOf (V : Volume) (env : Environment (World VolumeState) Call Answer)
    (s : World VolumeState) (rows : RowsState) (request changed : List RenameIntent)
    (directory : EntryIdentity) : Prop :=
  ∃ owners : DirectoryOwners, owners[directory]? ≠ none ∧
    AllCleared V env s owners rows.sourceSnapshots RenameIntent.source request ∧
    AllCleared V env s owners rows.destinationSnapshots RenameIntent.destination changed

theorem checks_checkDirectories (h : V.Admits env s) (request changed : List RenameIntent)
    (rows : RowsState) :
    Checks env (checkDirectories request changed true rows) s
      (fun issues => issues = [] → ∀ row ∈ rows.entries, ∀ directory,
        MovesDirectory row directory → ClearOf V env s rows request changed directory)
      fun _ => True := by
  unfold checkDirectories
  rw [if_pos rfl]
  refine Checks.bind (checks_collectDirectories h rows.entries) fun owners howners => ?_
  dsimp only
  split
  · next hempty =>
      refine Checks.pure fun _ row hrow directory hmoves => ?_
      refine absurd ?_ (howners row hrow directory hmoves)
      rw [ExtTreeMap.isEmpty_iff.1 hempty]
      rfl
  · refine (checks_inspectDirectories h request changed rows).mono (fun issues hissues hnil => ?_)
      fun _ => id
    intro row hrow directory hmoves
    exact ⟨owners, howners row hrow directory hmoves, hissues hnil⟩

/-! ### What is kept of the rows -/

/-- The row of an intent, with the snapshots that are kept of it. -/
structure KeptRow (V : Volume) (env : Environment (World VolumeState) Call Answer)
    (s : World VolumeState) (scope : MoveScope) (hasChangedDirectory : Bool) (rows : RowsState)
    (intent : RenameIntent) (row : PlanRow) : Prop where
  planned : PlannedRow V s.backend scope intent row
  answered : Answered env s intent row
  source : hasChangedDirectory = true →
    rows.sourceSnapshots[intent.id]? = some row.sourceSnapshot
  destination : hasChangedDirectory = true →
    rows.destinationSnapshots[intent.id]? = some row.destinationSnapshot

theorem checks_planRows_kept (h : V.Admits env s) (scope : MoveScope)
    (hasChangedDirectory : Bool) (changed : List RenameIntent)
    (hnodup : (changed.map RenameIntent.id).Nodup) :
    Checks env (planRows scope hasChangedDirectory changed) s
      (fun rows => ∀ row ∈ rows.entries, ∃ intent ∈ changed,
        KeptRow V env s scope hasChangedDirectory rows intent row) fun _ => True := by
  refine checks_foldChecked h.polls (fun done (rows : RowsState) => ∀ row ∈ rows.entries,
    ∃ intent ∈ done, KeptRow V env s scope hasChangedDirectory rows intent row) (by simp) ?_
  intro done intent rest st hsplit hst
  have hfresh : ∀ other ∈ done, other.id ≠ intent.id := by
    rw [hsplit, List.map_append, List.map_cons] at hnodup
    intro other hother hid
    refine (List.nodup_append.1 hnodup).2.2 other.id (List.mem_map_of_mem hother) other.id ?_ rfl
    rw [hid]
    exact List.mem_cons_self
  refine Checks.bind (checks_planRow_answered h scope intent) fun result hresult => ?_
  cases result with
  | error kinds =>
      refine Checks.pure fun row hrow => ?_
      obtain ⟨other, hother, hkept⟩ := hst row hrow
      exact ⟨other, List.mem_append_left _ hother, hkept.planned, hkept.answered, hkept.source,
        hkept.destination⟩
  | ok row =>
      dsimp only
      split
      · refine Checks.pure fun other hother => ?_
        rcases List.mem_append.1 hother with hother | hother
        · obtain ⟨intent', hintent', hkept⟩ := hst other hother
          have hid := hfresh intent' hintent'
          refine ⟨intent', List.mem_append_left _ hintent', hkept.planned, hkept.answered,
            fun hdirectory => ?_, fun hdirectory => ?_⟩
          · rw [ExtTreeMap.getElem?_insert, if_neg (by simpa using hid.symm)]
            exact hkept.source hdirectory
          · rw [ExtTreeMap.getElem?_insert, if_neg (by simpa using hid.symm)]
            exact hkept.destination hdirectory
        · rw [List.mem_singleton.1 hother]
          exact ⟨intent, by simp, hresult.1, hresult.2, fun _ => ExtTreeMap.getElem?_insert_self,
            fun _ => ExtTreeMap.getElem?_insert_self⟩
      · next hnone =>
          refine Checks.pure fun other hother => ?_
          rcases List.mem_append.1 hother with hother | hother
          · obtain ⟨intent', hintent', hkept⟩ := hst other hother
            exact ⟨intent', List.mem_append_left _ hintent', hkept.planned, hkept.answered,
              hkept.source, hkept.destination⟩
          · rw [List.mem_singleton.1 hother]
            exact ⟨intent, by simp, hresult.1, hresult.2, fun hdirectory => absurd hdirectory hnone,
              fun hdirectory => absurd hdirectory hnone⟩

end Inspect

/-! ### Absolute endpoints -/

theorem isAbsoluteWindowsPath_append {front : List UInt16} (back : List UInt16)
    (h : isAbsoluteWindowsPath front = true) : isAbsoluteWindowsPath (front ++ back) = true := by
  rcases front with _ | ⟨first, _ | ⟨second, _ | ⟨third, rest⟩⟩⟩
  · simp [isAbsoluteWindowsPath] at h
  · simp [isAbsoluteWindowsPath] at h
  · have hunc : (isSeparator first && isSeparator second) = true := by
      simpa [isAbsoluteWindowsPath] using h
    rcases back with _ | ⟨third, back⟩
    · exact h
    · simp [isAbsoluteWindowsPath, hunc]
  · exact h

theorem absolute_of_textIssues {entries changed : List RenameIntent}
    (h : textIssues entries changed = []) {intent : RenameIntent} (hintent : intent ∈ changed) :
    isAbsoluteWindowsPath intent.source.units = true ∧
      isAbsoluteWindowsPath intent.destination.units = true := by
  unfold textIssues at h
  have hreport := List.flatMap_eq_nil_iff.1 (List.append_eq_nil_iff.1 h).1 intent hintent
  have hvalid := List.map_eq_nil_iff.1 hreport
  simp only [validateIntent, List.append_eq_nil_iff, ite_eq_right_iff, List.cons_ne_nil, imp_false,
    relativeSource, Bool.not_eq_true', Bool.not_eq_false] at hvalid
  obtain ⟨⟨⟨-, hsource⟩, hparent⟩, -⟩ := hvalid
  refine ⟨hsource, ?_⟩
  unfold RenameIntent.destination
  split
  · exact isAbsoluteWindowsPath_append _ hparent
  · exact isAbsoluteWindowsPath_append _ hparent

/-! ### No row beneath a changed directory -/

section Beneath

variable {V : Volume} {backend : BackendRel VolumeState} {s : World VolumeState}

/-- An endpoint that is cleared, and whose ancestors are all visited, is not beneath. -/
theorem not_beneath (h : V.Consistent backend) {owners : DirectoryOwners}
    {endpoint : LegacyText} {snapshot : PathSnapshot} {directory : EntryIdentity}
    (habsolute : isAbsoluteWindowsPath endpoint.units = true)
    (hfew : separatorsBelow endpoint < maxPlanPathDepth)
    (hancestors : Volume.HasAncestors backend s.backend endpoint)
    (hparent : snapshot.parent = V.parent endpoint)
    (hcleared : EndpointCleared V (engineEnv backend) s owners endpoint snapshot)
    (howner : owners[directory]? ≠ none) : ¬ V.Beneath endpoint directory := by
  rintro (hdirect | ⟨ancestor, k, hpos, hk, hnames, hdirectory⟩)
  · refine howner ?_
    rw [← hdirect, ← hparent]
    exact hcleared.parent
  · obtain ⟨visited, hvisited, hvisited_names⟩ :=
      (forall_exists_directAncestor_iff habsolute).2 hfew k hpos hk
    rcases hcleared.ancestors visited hvisited with ⟨error, t, step, hnotfound⟩ | hnone
    · rw [hancestors hpos hk hvisited_names step.1] at hnotfound
      cases hnotfound
    · rw [h.parent_eq hpos hvisited_names hnames, hdirectory] at hnone
      exact howner hnone

/-- An endpoint of the row is not beneath the directory when the path that the intent of the row
gives for it has fewer separators below its first component than the walk has rounds. -/
def NotBeneath (V : Volume) (request : PlanRequest) (row : PlanRow) (directory : EntryIdentity) :
    Prop :=
  ∃ intent ∈ request.entries, intent.changes = true ∧ intent.id = row.id ∧
    (separatorsBelow intent.source < maxPlanPathDepth → ¬ V.Beneath row.source directory) ∧
    (separatorsBelow intent.destination < maxPlanPathDepth →
      ¬ V.Beneath row.destination directory)

theorem notBeneath_of_clearOf (h : V.Consistent backend) {request : PlanRequest}
    {rows : RowsState}
    (htexts : textIssues request.entries (request.entries.filter RenameIntent.changes) = [])
    (hkept : ∀ row ∈ rows.entries, ∃ intent ∈ request.entries.filter RenameIntent.changes,
      KeptRow V (engineEnv backend) s request.scope true rows intent row)
    {directory : EntryIdentity}
    (hclear : ClearOf V (engineEnv backend) s rows request.entries
      (request.entries.filter RenameIntent.changes) directory) {row : PlanRow}
    (hrow : row ∈ rows.entries) : NotBeneath V request row directory := by
  obtain ⟨owners, howner, hsources, hdestinations⟩ := hclear
  obtain ⟨intent, hintent, hrow⟩ := hkept row hrow
  obtain ⟨hmem, hchanges⟩ := List.mem_filter.1 hintent
  obtain ⟨habsolute_source, habsolute_destination⟩ := absolute_of_textIssues htexts hintent
  refine ⟨intent, hmem, hchanges, hrow.planned.id.symm, fun hfew => ?_, fun hfew => ?_⟩
  · obtain ⟨t, step⟩ := hrow.answered.source
    obtain ⟨hancestors, hparent, hresolved⟩ := h.resolved step.1
    intro hbeneath
    exact not_beneath h habsolute_source hfew hancestors hparent
      (hsources intent hmem hchanges _ (hrow.source rfl)) howner (hresolved directory hbeneath)
  · obtain ⟨t, step⟩ := hrow.answered.destination
    have hsnapshot : row.destinationSnapshot.parent = V.parent intent.destination := by
      rw [hrow.planned.destination_snapshot, hrow.planned.destination]
      rfl
    rw [hrow.planned.destination]
    exact not_beneath h habsolute_destination hfew (h.observed step.1) hsnapshot
      (hdestinations intent hintent hchanges _ (hrow.destination rfl)) howner

/-- No row is beneath a directory that a row moves. -/
def NoneBeneath (V : Volume) (request : PlanRequest) (rows : List PlanRow) : Prop :=
  ∀ mover ∈ rows, ∀ directory, MovesDirectory mover directory →
    ∀ row ∈ rows, NotBeneath V request row directory

theorem checks_planCancellable_noneBeneath (h : V.Consistent backend) (request : PlanRequest)
    (s : World VolumeState) :
    Checks (engineEnv backend) (planCancellable request) s
      (fun plan => NoneBeneath V request plan.entries) fun _ => True := by
  have hadmits : V.Admits (engineEnv backend) s := by
    intro call answer t step
    cases call with
    | backend call => exact ⟨h.allowed step.1, step.2⟩
    | journal call => exact step
    | control call => exact step
  refine (checks_planCancellable_keeping hadmits request
    (K := fun rows => textIssues request.entries
        (request.entries.filter RenameIntent.changes) = [] ∧
      ∀ row ∈ rows.entries, ∃ intent ∈ request.entries.filter RenameIntent.changes,
        KeptRow V (engineEnv backend) s request.scope ((request.entries.filter
          RenameIntent.changes).any fun intent => intent.kind == .directory) rows intent row)
    (D := NoneBeneath V request) ?_ ?_).mono (fun _ hplan => hplan.2) fun _ => id
  · intro htexts hids
    exact (checks_planRows_kept hadmits _ _ _ hids).mono
      (fun rows hrows _ => ⟨htexts, hrows⟩) fun _ => id
  · rintro rows ⟨htexts, hkept⟩
    by_cases hdirectory : ((request.entries.filter RenameIntent.changes).any
        fun intent => intent.kind == .directory) = true
    · rw [hdirectory] at hkept ⊢
      refine (checks_checkDirectories hadmits _ _ rows).mono (fun issues hissues hnil => ?_)
        fun _ => id
      intro mover hmover directory hmoves row hrow
      exact notBeneath_of_clearOf h htexts hkept (hissues hnil mover hmover directory hmoves) hrow
    · refine (hadmits.checks_of_tries (tries_checkDirectories _ _ _ _)).mono
        (fun issues _ _ mover hmover directory hmoves => ?_) fun _ => id
      obtain ⟨intent, hintent, hmover⟩ := hkept mover hmover
      refine absurd (List.any_eq_true.2 ⟨intent, hintent, ?_⟩) hdirectory
      rw [← hmover.planned.kind, hmoves.1]
      rfl

/-- The walk sees every ancestor of an absolute path exactly when fewer separators than rounds
come below its first component; and in a plan over a consistent backend no endpoint of a row for
which that is so lies anywhere beneath a changed directory. -/
theorem seesAncestors_iff_and_noneBeneath (V : Volume) (backend : BackendRel VolumeState)
    (h : V.Consistent backend) :
    (∀ path : LegacyText, isAbsoluteWindowsPath path.units = true →
      (SeesAncestors path ↔ separatorsBelow path < maxPlanPathDepth)) ∧
    ∀ (request : PlanRequest) (plan : RenamePlan) (s t : World VolumeState)
      (trace : List EngineEvent),
      Runs (engineEnv backend) (planCancellable request).run s trace (some (.ok plan)) t →
      NoneBeneath V request plan.entries := by
  refine ⟨fun path => seesAncestors_iff, ?_⟩
  intro request plan s t trace run
  obtain ⟨-, hpost⟩ := Spec.sound (checks_planCancellable_noneBeneath h request s) run
  exact (hpost _ rfl).2

/-- A directory of files and one directory, with all paths in it. -/
def folderVolume : Volume :=
  { flatVolume sampleParent with
    kind := fun identity => if identity = ⟨1, 2⟩ then .directory else .file }

/-- A directory, a file, and a file whose path has more separators than the walk has rounds. -/
def folderRequest : PlanRequest :=
  ⟨⟨1⟩, [{ sampleIntent 0 "a" "d" with kind := .directory }, sampleIntent 1 "b" "e",
    { sampleIntent 2 "c" "f" with
      source := ⟨(LegacyText.ofAscii "C:\\w").units ++ List.replicate 256 backslash ++ [99]⟩ }],
    .sameParent⟩

/-- The backend that answers as the volume does without faults. -/
def folderBackend : BackendRel VolumeState := fun o call answer o' =>
  answer = (folderVolume.serve 5 o call).1 ∧ o' = (folderVolume.serve 5 o call).2

theorem folderBackend_consistent : folderVolume.Consistent folderBackend where
  allowed {o call answer o'} h := by
    obtain ⟨rfl, rfl⟩ := h
    exact folderVolume.serve_allowed 5 o call
  parent_eq _ _ _ := rfl
  observed _ := by
    rintro ancestor k error o' - - - ⟨⟨⟩, -⟩
  resolved {o path resolved o'} h := by
    obtain ⟨hresolved, -⟩ := h
    cases hresolved
    refine ⟨?_, rfl, fun _ => id⟩
    rintro ancestor k error o' - - - ⟨⟨⟩, -⟩

def folderState : VolumeState := fun key =>
  if key = flatKey sampleParent (.ofAscii "c") then some ⟨1, 4⟩ else swapState key

/-- A plan that renames a directory and two files beside it, one of them by a path on which the
walk does not see every ancestor. -/
theorem seesAncestors_iff_and_noneBeneath_folder :
    SeesAncestors (.ofAscii "C:\\x\\a\\b") ∧ ∃ plan : RenamePlan,
      plan.entries.map PlanRow.kind = [.directory, .file, .file] ∧
      NoneBeneath folderVolume folderRequest plan.entries := by
  obtain ⟨hwalk, hplans⟩ :=
    seesAncestors_iff_and_noneBeneath folderVolume folderBackend folderBackend_consistent
  refine ⟨(hwalk _ (by decide +kernel)).2 (by decide +kernel), ?_⟩
  have hkinds : (((planCancellable folderRequest).run.run
      (folderVolume.ports 5).handler ⟨folderState, []⟩).1.toOption.map
        fun plan => plan.entries.map PlanRow.kind) = some [.directory, .file, .file] := by
    decide +kernel
  have hallowed : ∀ s call, engineEnv folderBackend s call
      ((folderVolume.ports 5).handler s call).1 ((folderVolume.ports 5).handler s call).2 :=
    Ports.allowed (fun _ _ => ⟨rfl, rfl⟩) serveJournal_allowed
  obtain ⟨plan, trace, hthree, run⟩ := Runs.of_toOption hallowed hkinds
  exact ⟨plan, hthree, hplans _ _ _ _ _ run⟩

end Beneath

end Planner

end DarkReNamer
