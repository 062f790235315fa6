import DarkReNamer.Rename.Planner.Ancestors
import DarkReNamer.Rename.Planner.Sound

/-!
# Completeness of the planner

When a request of files is not refused. What is asked of the request is what the plan needs: every
changed source is an entry that may move, no key is repeated, and a destination that is occupied is
left by another row. Chains, cycles and changes of case are among such requests. The backend has to
answer without an error, and to tell paths apart that have different entry keys.
-/

namespace DarkReNamer

open Std Interaction

/-- The intents that ask for a change. -/
def PlanRequest.changed (request : PlanRequest) : List RenameIntent :=
  request.entries.filter RenameIntent.changes

theorem PlanRequest.mem_of_changed {request : PlanRequest} {intent : RenameIntent}
    (h : intent ∈ request.changed) : intent ∈ request.entries :=
  (List.mem_filter.1 h).1

/-- Nothing fails and nothing is cancelled. Paths are compared by `textual`, and the sources of the
request are spelled as they are stored. -/
structure Serves (V : Volume) (textual : LegacyText → PathKey) (request : PlanRequest)
    (env : Environment (World VolumeState) Call Answer) (s : World VolumeState) : Prop where
  admits : V.Admits env s
  polls : Polls env s False
  environment : ∀ path error t, ¬ env s (.backend (.validatePathEnvironment path)) (.error error) t
  pathKey : ∀ path key t, env s (.backend (.pathKey path)) key t → key = textual path
  plannedEntryKey : ∀ parent leaf error t,
    ¬ env s (.backend (.plannedEntryKey parent leaf)) (.error error) t
  observe : ∀ path error t, ¬ env s (.backend (.observe path)) (.error error) t
  resolving : Planner.Resolving env s
  stored : ∀ intent ∈ request.entries, ∀ resolved t,
    env s (.backend (.resolveSource intent.source)) (.ok resolved) t →
      resolved.path = intent.source ∧
        (s.backend (V.key intent.source) ≠ none → resolved.entryKey ≠ none)

/-- A request of files that can be carried out over the occupancy. -/
structure Admissible (V : Volume) (textual : LegacyText → PathKey) (o : VolumeState)
    (request : PlanRequest) : Prop where
  shallow : ∀ intent ∈ request.entries, Planner.sourceTooDeep intent = false
  absolute : ∀ intent ∈ request.entries, Planner.relativeSource intent = false
  parents : ∀ intent ∈ request.changed,
    Planner.pathComponentDepth intent.destinationParent.units ≤ maxPlanPathDepth ∧
      Planner.isAbsoluteWindowsPath intent.destinationParent.units = true
  names : ∀ intent ∈ request.changed, validateWindowsLeafName intent.destinationName = .ok ()
  files : ∀ intent ∈ request.changed, intent.kind = .file
  ids : (request.changed.map RenameIntent.id).Nodup
  separate : ∀ path other, textual path = textual other → V.key path = V.key other
  ancestors : ∀ intent ∈ request.changed, ∀ ancestor ∈ Planner.directAncestors intent.source,
    ∀ entry, V.observed o (V.key ancestor) = some entry → entry.kind = .directory
  sources : (request.entries.map fun intent => V.key intent.source).Nodup
  present : ∀ intent ∈ request.changed, ∃ identity, o (V.key intent.source) = some identity ∧
    V.kind identity = .file ∧ V.isReparsePoint identity = false ∧
      identity.volume = (V.parent intent.source).volume
  destinations : (request.changed.map fun intent => V.key intent.destination).Nodup
  boundary : ∀ intent ∈ request.changed, V.parent intent.source = V.parent intent.destination ∨
    request.scope = .sameVolumeFilesOnly ∧
      (V.parent intent.source).volume = (V.parent intent.destination).volume
  occupied : ∀ intent ∈ request.changed, o (V.key intent.destination) ≠ none →
    ∃ other ∈ request.changed, V.key other.source = V.key intent.destination

namespace Planner

variable {V : Volume} {textual : LegacyText → PathKey} {request : PlanRequest}
  {env : Environment (World VolumeState) Call Answer} {s : World VolumeState}
  {E : PlanAttemptError → Prop}

section Texts

theorem validateIntent_eq_nil (h : Admissible V textual s.backend request) {intent : RenameIntent}
    (hintent : intent ∈ request.changed) : validateIntent intent = [] := by
  have hmem := PlanRequest.mem_of_changed hintent
  obtain ⟨hdepth, habsolute⟩ := h.parents intent hintent
  simp [validateIntent, h.shallow intent hmem, h.absolute intent hmem, Nat.not_lt.2 hdepth,
    habsolute, h.names intent hintent]

theorem validateSourcePath_eq_nil (h : Admissible V textual s.backend request)
    {intent : RenameIntent} (hintent : intent ∈ request.entries) :
    validateSourcePath intent = [] := by
  simp [validateSourcePath, h.shallow intent hintent, h.absolute intent hintent]

theorem textIssues_eq_nil (h : Admissible V textual s.backend request) :
    textIssues request.entries request.changed = [] := by
  refine List.append_eq_nil_iff.2 ⟨List.flatMap_eq_nil_iff.2 fun intent hintent => ?_, ?_⟩
  · rw [validateIntent_eq_nil h hintent]
    rfl
  · split
    · rfl
    · refine List.flatMap_eq_nil_iff.2 fun intent hintent => ?_
      rw [validateSourcePath_eq_nil h (List.mem_filter.1 hintent).1]
      rfl

theorem checks_validateEnvironments (h : Serves V textual request env s)
    (hpolls : Polls env s (E .cancelled)) (changed : List RenameIntent) :
    Checks env (foldChecked validateEnvironment changed []) s (fun issues => issues = []) E := by
  refine checks_foldChecked hpolls (fun _ issues => issues = []) rfl ?_
  rintro done intent rest _ - rfl
  refine checks_foldChecked hpolls (fun _ issues => issues = []) rfl ?_
  rintro done path rest _ - rfl
  have hvalid : Reads env (validatePathEnvironment path) s fun answer => answer = .ok () := by
    refine Reads.ask fun answer t step => ⟨h.admits.read step (by simp), ?_⟩
    cases answer with
    | ok answer => rfl
    | error error => exact absurd step (h.environment path error t)
  refine Checks.bind (Checks.lift hvalid) ?_
  rintro _ rfl
  exact Checks.pure rfl

end Texts

section Keys

theorem reads_pathKey (h : Serves V textual request env s) (path : LegacyText) :
    Reads env (pathKey path) s fun key => key = textual path :=
  Reads.ask fun key t step => ⟨h.admits.read step (by simp), h.pathKey path key t step⟩

/-- An invariant of the visits is one of the walk. -/
theorem checks_visitEach {β : Type} {visit : LegacyText → β → ExceptT PlanAttemptError Engine
      (β × Bool)} {I : β → Prop} (hpolls : Polls env s (E .cancelled)) {paths : List LegacyText}
    (hvisit : ∀ path ∈ paths, ∀ acc, I acc → Checks env (visit path acc) s (fun r => I r.1) E)
    (roundsLeft : Bool) {acc : β} (hacc : I acc) :
    Checks env (visitEach visit roundsLeft paths acc) s I E := by
  induction paths generalizing acc with
  | nil =>
      unfold visitEach
      split
      · exact Checks.bind (checks_checkCancelled hpolls) fun _ _ => Checks.pure hacc
      · exact Checks.pure hacc
  | cons path rest ih =>
      refine Checks.bind (checks_checkCancelled hpolls) fun _ _ => ?_
      refine Checks.bind (hvisit path List.mem_cons_self acc hacc) fun r hr => ?_
      obtain ⟨acc', stop⟩ := r
      cases stop with
      | true => exact Checks.pure hr
      | false => exact ih (fun path hpath => hvisit path (List.mem_cons_of_mem _ hpath)) hr

/-- No source is an ancestor of another one. -/
theorem checks_collectOverlap_empty (h : Serves V textual request env s)
    (hpolls : Polls env s (E .cancelled)) {changed : List RenameIntent}
    {owners : ExtTreeMap PathKey (List EntryId)}
    (hnone : ∀ intent ∈ changed, ∀ ancestor ∈ directAncestors intent.source,
      owners[textual ancestor]? = none) :
    Checks env (collectOverlap changed owners) s (fun overlap => overlap = ∅) E := by
  refine checks_foldChecked hpolls (fun _ overlap => overlap = ∅) rfl ?_
  rintro done intent rest acc hsplit rfl
  rw [visitDirectAncestors_eq]
  refine checks_visitEach hpolls (fun ancestor hancestor acc hacc => ?_) _ rfl
  refine Checks.bind (Checks.lift (reads_pathKey h ancestor)) ?_
  rintro _ rfl
  rw [hnone intent (by simp [hsplit]) ancestor hancestor]
  exact Checks.pure hacc

/-- What is told apart in one way is told apart in a finer one. -/
theorem nodup_map_of_finer {A K L : Type} {coarse : A → K} {fine : A → L} {l : List A}
    (hfiner : ∀ a b, fine a = fine b → coarse a = coarse b) (h : (l.map coarse).Nodup) :
    (l.map fine).Nodup := by
  rw [List.Nodup, List.pairwise_map] at h ⊢
  exact h.imp fun hne heq => hne (hfiner _ _ heq)

/-- The entry of a changed source. -/
theorem observed_source (h : Admissible V textual s.backend request) {intent : RenameIntent}
    (hintent : intent ∈ request.changed) : ∃ identity,
    V.observed s.backend (V.key intent.source) = some ⟨identity, .file, false⟩ ∧
      identity.volume = (V.parent intent.source).volume := by
  obtain ⟨identity, hoccupied, hkind, hreparse, hvolume⟩ := h.present intent hintent
  refine ⟨identity, ?_, hvolume⟩
  rw [Volume.observed, hoccupied, Option.map_some, hkind, hreparse]

/-- A directory on the way to a source is not a source. -/
theorem textual_ancestor_ne (h : Admissible V textual s.backend request)
    {intent other : RenameIntent} (hintent : intent ∈ request.changed)
    (hother : other ∈ request.changed) {ancestor : LegacyText}
    (hancestor : ancestor ∈ directAncestors intent.source) :
    textual other.source ≠ textual ancestor := by
  intro heq
  obtain ⟨identity, hobserved, -⟩ := observed_source h hother
  rw [h.separate _ _ heq] at hobserved
  have hkind := h.ancestors intent hintent ancestor hancestor _ hobserved
  cases hkind

/-- The keys that the backend gives the paths of an admissible request do not repeat. -/
theorem checks_checkPathKeys_complete (h : Serves V textual request env s)
    (hpolls : Polls env s (E .cancelled)) (hrequest : Admissible V textual s.backend request) :
    Checks env (checkPathKeys request.changed) s (fun issues => issues = []) E := by
  have hsub : (request.changed.map fun intent => V.key intent.source).Nodup :=
    hrequest.sources.sublist (List.filter_sublist.map _)
  unfold checkPathKeys
  refine Checks.bind (checks_collectOwners hpolls (reads_pathKey h) _) ?_
  rintro _ ⟨keyed, hkeyed, hkeys, rfl⟩
  have hsources : keyed.map (fun x => x.2.1) =
      request.changed.map fun intent => textual intent.source := by
    rw [← hkeyed, List.map_map]
    exact List.map_congr_left fun x hx => (hkeys x hx).1
  have hdestinations : keyed.map (fun x => x.2.2) =
      request.changed.map fun intent => textual intent.destination := by
    rw [← hkeyed, List.map_map]
    exact List.map_congr_left fun x hx => (hkeys x hx).2
  have hids : keyed.map (fun x => x.1.id) = request.changed.map RenameIntent.id := by
    rw [← hkeyed, List.map_map]
    rfl
  have hnosources : duplicateIssues (ownerSets (ownersOf keyed).source) .duplicateSource = [] := by
    refine duplicateIssues_eq_nil_iff.2 (forall_ownerSets_length_le_one_iff.2 ?_)
    rw [hsources]
    exact nodup_map_of_finer (fun a b => hrequest.separate _ _) hsub
  have hnoids : duplicateIssues (ownerSets (ownersOf keyed).entry) .duplicateEntryId = [] := by
    refine duplicateIssues_eq_nil_iff.2 (forall_ownerSets_length_le_one_iff.2 ?_)
    rw [hids]
    exact hrequest.ids
  have hnodestinations :
      duplicateIssues (ownerSets (ownersOf keyed).destination) .duplicateDestination = [] := by
    refine duplicateIssues_eq_nil_iff.2 (forall_ownerSets_length_le_one_iff.2 ?_)
    rw [hdestinations]
    exact nodup_map_of_finer (fun a b => hrequest.separate _ _) hrequest.destinations
  refine Checks.bind (checks_appendDuplicateIssues hpolls _ _ _) ?_
  rintro _ rfl
  refine Checks.bind (checks_appendDuplicateIssues hpolls _ _ _) ?_
  rintro _ rfl
  refine Checks.bind (checks_appendDuplicateIssues hpolls _ _ _) ?_
  rintro _ rfl
  rw [hnosources, hnoids, hnodestinations]
  refine Checks.bind
    (checks_collectOverlap_empty h hpolls fun intent hintent ancestor hancestor => ?_) ?_
  · have hnone : keyed.filter (fun x => x.2.1 = textual ancestor) = [] := by
      refine List.filter_eq_nil_iff.2 fun x hx => ?_
      have hmem : x.1 ∈ request.changed := hkeyed ▸ List.mem_map_of_mem hx
      simp only [decide_eq_true_eq]
      rw [(hkeys x hx).1]
      exact textual_ancestor_ne hrequest hintent hmem hancestor
    rw [ownersOf, getElem?_ownersBy, hnone]
    rfl
  · rintro _ rfl
    refine (checks_issueEach hpolls _ _ _).mono (fun issues hissues => ?_) fun _ => id
    rw [hissues]
    simp

end Keys

section Rows

/-- A changed source is resolved to its entry. -/
theorem reads_resolveSource (h : Serves V textual request env s)
    (hrequest : Admissible V textual s.backend request) {intent : RenameIntent}
    (hintent : intent ∈ request.changed) :
    Reads env (resolveSource intent.source) s fun answer => answer =
      .ok ⟨intent.source, V.snapshot s.backend intent.source, some (V.key intent.source)⟩ := by
  refine Reads.ask fun answer t step => ⟨h.admits.read step (by simp), ?_⟩
  cases answer with
  | error error => exact absurd step (h.resolving _ error t)
  | ok resolved =>
      obtain ⟨hpath, hkey⟩ := h.stored intent (PlanRequest.mem_of_changed hintent) resolved t step
      obtain ⟨identity, hoccupied, -⟩ := hrequest.present intent hintent
      have hresolves : V.Resolves s.backend intent.source resolved :=
        (h.admits _ _ _ step).1.1
      obtain ⟨hsnapshot, hkeys⟩ := hresolves.exact_path hpath
      obtain ⟨path, snapshot, entryKey⟩ := resolved
      obtain ⟨key, rfl⟩ := Option.ne_none_iff_exists'.1 (hkey (by simp [hoccupied]))
      obtain rfl : path = intent.source := hpath
      obtain rfl : snapshot = _ := hsnapshot
      rw [hkeys key rfl]

theorem reads_observe (h : Serves V textual request env s) (path : LegacyText) :
    Reads env (observe path) s fun answer => answer = .ok (V.snapshot s.backend path) := by
  refine Reads.ask fun answer t step => ⟨h.admits.read step (by simp), ?_⟩
  cases answer with
  | error error => exact absurd step (h.observe path error t)
  | ok snapshot => exact congrArg Except.ok (h.admits _ _ _ step).1.1

theorem reads_plannedEntryKey (h : Serves V textual request env s) (parent : EntryIdentity)
    (leaf : LegacyText) :
    Reads env (plannedEntryKey parent leaf) s fun answer =>
      answer = .ok (V.entryKey parent leaf) := by
  refine Reads.ask fun answer t step => ⟨h.admits.read step (by simp), ?_⟩
  cases answer with
  | error error => exact absurd step (h.plannedEntryKey parent leaf error t)
  | ok key => exact congrArg Except.ok (h.admits _ _ _ step).1.1

/-- The row of a changed intent. -/
def rowOf (V : Volume) (o : VolumeState) (intent : RenameIntent) : PlanRow where
  id := intent.id
  source := intent.source
  destination := intent.destination
  kind := intent.kind
  sourceSnapshot := V.snapshot o intent.source
  destinationSnapshot := V.snapshot o intent.destination
  sourceEntryKey := V.key intent.source
  destinationEntryKey := V.key intent.destination

theorem key_destination (h : Admissible V textual s.backend request) {intent : RenameIntent}
    (hintent : intent ∈ request.changed) :
    V.entryKey (V.parent intent.destination) intent.destinationName = V.key intent.destination := by
  rw [Volume.key, RenameIntent.pathLeaf_destination (h.names intent hintent)]

theorem checks_planSource_complete (h : Serves V textual request env s)
    (hpolls : Polls env s (E .cancelled)) (hrequest : Admissible V textual s.backend request)
    {intent : RenameIntent} (hintent : intent ∈ request.changed) :
    Checks env (planSource intent) s (fun result => ∃ identity,
      identity.volume = (V.parent intent.source).volume ∧ result = .ok
        (⟨intent.source, V.snapshot s.backend intent.source, some (V.key intent.source)⟩,
          ⟨identity, .file, false⟩, V.key intent.source)) E := by
  obtain ⟨identity, hobserved, hvolume⟩ := observed_source hrequest hintent
  have hmem := PlanRequest.mem_of_changed hintent
  have hdepth := hrequest.shallow intent hmem
  have habsolute := hrequest.absolute intent hmem
  simp only [sourceTooDeep, decide_eq_false_iff_not, Nat.not_lt] at hdepth
  simp only [relativeSource, Bool.not_eq_false'] at habsolute
  have hentry : (V.snapshot s.backend intent.source).entry = some ⟨identity, .file, false⟩ :=
    hobserved
  refine Checks.bind (Checks.lift (reads_resolveSource h hrequest hintent)) ?_
  rintro _ rfl
  refine Checks.bind (checks_checkCancelled hpolls) fun _ _ => ?_
  dsimp only
  simp only [hentry, hrequest.files intent hintent, ne_eq, not_true_eq_false, if_false,
    Nat.not_lt.2 hdepth, habsolute, Bool.true_eq_false, or_self]
  refine Checks.bind (Checks.lift (reads_plannedEntryKey h _ _)) ?_
  rintro _ rfl
  have hkey : V.entryKey (V.snapshot s.backend intent.source).parent (pathLeaf intent.source) =
      V.key intent.source := rfl
  dsimp only
  rw [if_neg (not_not.2 hkey), if_neg Bool.false_ne_true]
  exact Checks.pure ⟨identity, hvolume, rfl⟩

theorem checks_planRow_complete (h : Serves V textual request env s)
    (hpolls : Polls env s (E .cancelled)) (hrequest : Admissible V textual s.backend request)
    {intent : RenameIntent} (hintent : intent ∈ request.changed) :
    Checks env (planRow request.scope intent) s
      (fun result => result = .ok (rowOf V s.backend intent)) E := by
  refine Checks.bind (checks_planSource_complete h hpolls hrequest hintent) ?_
  rintro _ ⟨identity, hvolume, rfl⟩
  refine Checks.bind (Checks.lift (reads_observe h _)) ?_
  rintro _ rfl
  refine Checks.bind (checks_checkCancelled hpolls) fun _ _ => ?_
  have hblockers : boundaryIssues request.scope ⟨identity, .file, false⟩
      (V.parent intent.source) (V.parent intent.destination) = [] := by
    rcases hrequest.boundary intent hintent with heq | ⟨hscope, hsame⟩
    · simp [boundaryIssues, heq, hvolume]
    · simp [boundaryIssues, hscope, hsame, hvolume]
  dsimp only [Volume.snapshot] at hblockers ⊢
  rw [hblockers, if_neg (not_not.2 rfl)]
  refine Checks.bind (Checks.lift (reads_plannedEntryKey h _ _)) ?_
  rintro _ rfl
  refine Checks.pure ?_
  rw [key_destination hrequest hintent]
  rfl

theorem checks_planRows_complete (h : Serves V textual request env s)
    (hpolls : Polls env s (E .cancelled)) (hrequest : Admissible V textual s.backend request) :
    Checks env (planRows request.scope false request.changed) s
      (fun rows => rows.entries = request.changed.map (rowOf V s.backend) ∧
        rows.issues = []) E := by
  refine checks_foldChecked hpolls (fun done (rows : RowsState) =>
    rows.entries = done.map (rowOf V s.backend) ∧ rows.issues = []) ⟨rfl, rfl⟩ ?_
  rintro done intent rest rows hsplit ⟨hentries, hissues⟩
  refine Checks.bind (checks_planRow_complete h hpolls hrequest ?_) ?_
  · rw [hsplit]
    simp
  · rintro _ rfl
    refine Checks.pure ⟨?_, hissues⟩
    simp [hentries]

end Rows

section Actual

/-- The key that a candidate is normalised under. -/
def candidateKey (V : Volume) (candidate : SourceCandidate) : PathKey :=
  candidate.entryKey.getD (V.key candidate.path)

/-- Candidates that are resolved to the key of their path have distinct keys when those do. -/
theorem keys_of_normalizes {group : List SourceCandidate}
    {keyed : List (PathKey × SourceCandidate)} (h : Normalizes env s group keyed)
    (hresolved : ∀ candidate ∈ group, ∀ resolved t, candidate.entryKey = none →
      env s (.backend (.resolveSource candidate.path)) (.ok resolved) t →
        ∀ key ∈ resolved.entryKey, key = V.key candidate.path)
    (hnodup : (group.map (candidateKey V)).Nodup) : (keyed.map Prod.fst).Nodup := by
  have hkeys : keyed.map Prod.fst = (keyed.map Prod.snd).map (candidateKey V) := by
    rw [List.map_map]
    refine List.map_congr_left fun p hp => ?_
    rcases h.keyed p hp with hown | ⟨hnone, resolved, t, step, hkey⟩
    · simp [candidateKey, hown]
    · have hmem : p.2 ∈ group := h.sublist.mem (List.mem_map_of_mem hp)
      simp [candidateKey, hnone, hresolved p.2 hmem resolved t hnone step p.1 hkey]
  rw [hkeys]
  exact hnodup.sublist (h.sublist.map _)

/-- The candidates of an admissible request have distinct keys. -/
theorem candidates_nodup (hrequest : Admissible V textual s.backend request)
    {found : List (SourceIdentity × SourceCandidate)}
    (hunkeyed : ∀ p ∈ found, p.2.entryKey = none ∧ p.2.changed = false)
    (hpaths : (found.map fun p => p.2.path).Sublist
      ((request.entries.filter fun intent => !intent.changes).map RenameIntent.source)) :
    (((request.changed.map (rowOf V s.backend)).map
      (fun row => (rowIdentity row, rowCandidate row)) ++
      found).map fun p => candidateKey V p.2).Nodup := by
  have hfound : found.map (fun p => candidateKey V p.2) =
      (found.map fun p => p.2.path).map V.key := by
    rw [List.map_map]
    refine List.map_congr_left fun p hp => ?_
    simp [candidateKey, (hunkeyed p hp).1]
  have hrows : ((request.changed.map (rowOf V s.backend)).map
      (fun row => (rowIdentity row, rowCandidate row))).map (fun p => candidateKey V p.2) =
      request.changed.map fun intent => V.key intent.source := by
    rw [List.map_map, List.map_map]
    exact List.map_congr_left fun intent _ => rfl
  have hperm : (request.changed ++ request.entries.filter fun intent => !intent.changes).Perm
      request.entries := List.filter_append_perm _ _
  have hall := (hperm.map fun intent => V.key intent.source).nodup_iff.2 hrequest.sources
  rw [List.map_append, hrows, hfound]
  rw [List.map_append] at hall
  refine hall.sublist ((List.Sublist.refl _).append ?_)
  have hsub := hpaths.map V.key
  simp only [List.map_map] at hsub ⊢
  exact hsub

/-- A candidate without a key of its own is resolved to the key of its path. -/
theorem key_of_resolved (h : Serves V textual request env s)
    {found : List (SourceIdentity × SourceCandidate)}
    (hpaths : (found.map fun p => p.2.path).Sublist
      ((request.entries.filter fun intent => !intent.changes).map RenameIntent.source))
    {p : SourceIdentity × SourceCandidate} (hp : p ∈ found) {resolved : ResolvedSource}
    {t : World VolumeState}
    (step : env s (.backend (.resolveSource p.2.path)) (.ok resolved) t) :
    ∀ key ∈ resolved.entryKey, key = V.key p.2.path := by
  obtain ⟨intent, hintent, hpath⟩ :=
    List.mem_map.1 (hpaths.mem (List.mem_map_of_mem (f := fun p => p.2.path) hp))
  have hresolves : V.Resolves s.backend p.2.path resolved := (h.admits _ _ _ step).1.1
  refine (hresolves.exact_path ?_).2
  rw [← hpath] at step ⊢
  exact (h.stored intent (List.mem_filter.1 hintent).1 resolved t step).1

/-- No source of an admissible request is repeated. -/
theorem checks_actualDuplicates_complete (h : Serves V textual request env s)
    (hpolls : Polls env s (E .cancelled)) (hrequest : Admissible V textual s.backend request) :
    Checks env (appendActualDuplicateSourceIssues request.entries
      (request.changed.map (rowOf V s.backend))) s (fun issues => issues = []) E := by
  unfold appendActualDuplicateSourceIssues
  split
  · exact Checks.pure rfl
  refine Checks.bind (checks_changedCandidates hpolls ?_) ?_
  · intro row hrow
    obtain ⟨intent, hintent, rfl⟩ := List.mem_map.1 hrow
    obtain ⟨identity, hobserved, -⟩ := observed_source hrequest hintent
    exact ⟨_, hobserved⟩
  rintro _ rfl
  refine Checks.bind (checks_unchangedCandidates h.admits hpolls _ _) ?_
  rintro ⟨candidates, issues⟩ ⟨found, hcandidates, hunkeyed, hpaths, hissues⟩
  obtain rfl : issues = [] := hissues h.observe
  obtain rfl : candidates = _ := hcandidates
  dsimp only
  rw [if_neg (not_not.2 rfl)]
  have hall := candidates_nodup hrequest hunkeyed hpaths
  refine Checks.bind (checks_foldChecked hpolls
    (fun _ (acc : ExtTreeSet EntryId × List PlanIssue) => acc = (∅, [])) rfl ?_) ?_
  · rintro done group rest _ hsplit rfl
    have hgroup : group ∈ ownerSets (ownersBy Prod.fst Prod.snd ((request.changed.map
        (rowOf V s.backend)).map (fun row => (rowIdentity row, rowCandidate row)) ++ found)) := by
      refine List.mem_of_mem_filter (p := isDuplicateGroup) ?_
      rw [hsplit]
      simp
    obtain ⟨q, -, rfl⟩ := mem_ownerSets_ownersBy.1 hgroup
    refine (checks_groupDuplicates h.admits hpolls (∅, []) _).mono ?_ fun _ => id
    rintro ⟨duplicates, issues⟩ ⟨keyed, hkeyed, hids, -, hclean⟩
    have hkeys : (keyed.map Prod.fst).Nodup := by
      refine keys_of_normalizes (V := V) hkeyed ?_ ?_
      · intro candidate hcandidate resolved t hnone step
        obtain ⟨p, hp, rfl⟩ := List.mem_map.1 hcandidate
        rcases List.mem_append.1 (List.mem_of_mem_filter hp) with hrow | hfound
        · obtain ⟨row, -, rfl⟩ := List.mem_map.1 hrow
          cases hnone
        · exact key_of_resolved h hpaths hfound step
      · rw [List.map_map]
        exact hall.sublist (List.filter_sublist.map _)
    have hnone : duplicates = ∅ := by
      refine ExtTreeSet.eq_empty_iff_forall_not_mem.2 fun id hid => ?_
      rcases (hids id).1 hid with hid | ⟨owners, howners, hduplicate, -⟩
      · simp at hid
      · rw [isDuplicateGroup_eq_false hkeys howners] at hduplicate
        cases hduplicate
    obtain rfl : issues = [] := hclean h.resolving
    rw [hnone]
  · rintro _ rfl
    refine (checks_issueEach hpolls _ _ _).mono (fun issues hissues => ?_) fun _ => id
    rw [hissues]
    simp

end Actual

section Plan

/-- Without a changed directory there is nothing to inspect. -/
theorem checks_checkDirectories_files (entries changed : List RenameIntent) (rows : RowsState) :
    Checks env (checkDirectories entries changed false rows) s (fun issues => issues = []) E :=
  Checks.pure rfl

theorem checks_planIdCancellable (hpolls : Polls env s (E .cancelled)) (request : PlanRequest) :
    Checks env (planIdCancellable request) s (fun _ => True) E :=
  Checks.bind (checks_foldChecked_pure hpolls _ _ _) fun _ _ => Checks.pure trivial

theorem any_directory_eq_false (h : Admissible V textual s.backend request) :
    (request.changed.any fun intent => intent.kind == .directory) = false := by
  refine List.any_eq_false.2 fun intent hintent => ?_
  rw [h.files intent hintent]
  decide

/-- A destination where something was observed is occupied. -/
theorem occupied_of_isSome {o : VolumeState} {intent : RenameIntent}
    (h : (rowOf V o intent).destinationSnapshot.entry.isSome = true) :
    o (V.key intent.destination) ≠ none := by
  intro hnone
  simp [rowOf, Volume.snapshot, Volume.observed, hnone] at h

/-- An admissible request is planned, one row for each changed intent. -/
theorem checks_planCancellable_complete (h : Serves V textual request env s)
    (hrequest : Admissible V textual s.backend request) :
    Checks env (planCancellable request) s
      (fun plan => plan.entries = request.changed.map (rowOf V s.backend)) fun _ => False := by
  have hrefuse : Checks env (refuse []) s (fun _ => True) fun _ : PlanAttemptError => False :=
    Checks.pure trivial
  have hchanged : request.entries.filter RenameIntent.changes = request.changed := rfl
  unfold planCancellable
  refine Checks.bind (checks_collectChanged h.polls _) ?_
  rintro _ rfl
  rw [hchanged, any_directory_eq_false hrequest]
  refine Checks.bind (checks_validateTexts h.polls _ _) ?_
  rintro _ rfl
  rw [textIssues_eq_nil hrequest]
  refine Checks.bind hrefuse fun _ _ => ?_
  refine Checks.bind (checks_validateEnvironments h h.polls _) ?_
  rintro _ rfl
  refine Checks.bind hrefuse fun _ _ => ?_
  refine Checks.bind (checks_checkPathKeys_complete h h.polls hrequest) ?_
  rintro _ rfl
  refine Checks.bind hrefuse fun _ _ => ?_
  refine Checks.bind (checks_planRows_complete h h.polls hrequest) ?_
  rintro rows ⟨hentries, hissues⟩
  rw [hissues, hentries]
  refine Checks.bind hrefuse fun _ _ => ?_
  refine Checks.bind (checks_checkDestinationKeys h.polls _) fun destinations hdestinations => ?_
  obtain rfl : destinations = [] := by
    refine hdestinations.2 ?_
    rw [List.map_map]
    exact hrequest.destinations
  refine Checks.bind hrefuse fun _ _ => ?_
  refine Checks.bind (checks_actualDuplicates_complete h h.polls hrequest) ?_
  rintro _ rfl
  refine Checks.bind hrefuse fun _ _ => ?_
  refine Checks.bind (checks_checkDirectories_files _ _ rows) ?_
  rintro _ rfl
  refine Checks.bind hrefuse fun _ _ => ?_
  refine Checks.bind (checks_checkOccupied h.polls _) fun occupied hoccupied => ?_
  obtain rfl : occupied = [] := by
    refine hoccupied.2 fun row hrow hsome => ?_
    obtain ⟨intent, hintent, rfl⟩ := List.mem_map.1 hrow
    obtain ⟨other, hother, hkey⟩ := hrequest.occupied intent hintent (occupied_of_isSome hsome)
    exact ⟨_, List.mem_map_of_mem hother, hkey⟩
  refine Checks.bind hrefuse fun _ _ => ?_
  refine Checks.bind (checks_checkCancelled h.polls) fun _ _ => ?_
  refine Checks.bind (checks_planIdCancellable h.polls _) fun id _ => ?_
  exact Checks.pure rfl

end Plan

end Planner

end DarkReNamer
