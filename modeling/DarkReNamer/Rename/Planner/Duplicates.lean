import DarkReNamer.Rename.Planner.Rows

/-!
# Duplicate sources by actual key

Candidates for a repeated source are grouped by parent and identity, and inside a group
by entry key, which for an unchanged intent is resolved again. The list of candidates
that a map was filled from is kept beside the map (`ownersBy`), so that both directions
can be read off it: an accepted request repeats no source key, and a request whose keys
are distinct has no duplicates.
-/

namespace DarkReNamer

open Std Interaction

namespace Planner

variable {V : Volume} {env : Environment (World VolumeState) Call Answer}
  {s : World VolumeState} {E : PlanAttemptError → Prop}

/-- A candidate with its own key, or with one its source resolves to. -/
def Keyed (env : Environment (World VolumeState) Call Answer) (s : World VolumeState)
    (p : PathKey × SourceCandidate) : Prop :=
  p.2.entryKey = some p.1 ∨ p.2.entryKey = none ∧ ∃ resolved t,
    env s (.backend (.resolveSource p.2.path)) (.ok resolved) t ∧
      resolved.entryKey = some p.1

/-- The candidates that bring a key of their own. -/
def ownKeys (group : List SourceCandidate) : List (PathKey × SourceCandidate) :=
  group.filterMap fun candidate => candidate.entryKey.map (·, candidate)

/-- The keys a group is normalised under. -/
structure Normalizes (env : Environment (World VolumeState) Call Answer)
    (s : World VolumeState) (group : List SourceCandidate)
    (keyed : List (PathKey × SourceCandidate)) : Prop where
  own : (ownKeys group).Sublist keyed
  sublist : (keyed.map Prod.snd).Sublist group
  keyed : ∀ p ∈ keyed, Keyed env s p

theorem Normalizes.skip {group : List SourceCandidate} {keyed : List (PathKey × SourceCandidate)}
    (h : Normalizes env s group keyed) {candidate : SourceCandidate}
    (hnone : candidate.entryKey = none) :
    Normalizes env s (group ++ [candidate]) keyed where
  own := by simpa [ownKeys, hnone] using h.own
  sublist := h.sublist.trans (List.sublist_append_left _ _)
  keyed := h.keyed

theorem Normalizes.push {group : List SourceCandidate} {keyed : List (PathKey × SourceCandidate)}
    (h : Normalizes env s group keyed) {key : PathKey} {candidate : SourceCandidate}
    (hkey : Keyed env s (key, candidate)) :
    Normalizes env s (group ++ [candidate]) (keyed ++ [(key, candidate)]) where
  own := by
    rw [ownKeys, List.filterMap_append]
    refine List.Sublist.append h.own ?_
    rcases hkey with hown | ⟨hnone, -⟩
    · simp only at hown
      simp [hown]
    · simp only at hnone
      simp [hnone]
  sublist := by
    rw [List.map_append]
    exact List.Sublist.append h.sublist (List.Sublist.refl _)
  keyed p hp := by
    rcases List.mem_append.1 hp with hp | hp
    · exact h.keyed p hp
    · rw [List.mem_singleton.1 hp]
      exact hkey

/-- Sources resolve without an error. -/
def Resolving (env : Environment (World VolumeState) Call Answer) (s : World VolumeState) :
    Prop :=
  ∀ path error t, ¬ env s (.backend (.resolveSource path)) (.error error) t

theorem checks_candidateEntryKey (h : V.Admits env s) (candidate : SourceCandidate) :
    Checks env (candidateEntryKey candidate) s
      (fun r => (∀ key, r.1 = some key → Keyed env s (key, candidate)) ∧
        (r.1 = none → candidate.entryKey = none) ∧ (Resolving env s → r.2 = [])) E := by
  unfold candidateEntryKey
  split
  · next key hkey =>
      refine Checks.pure ⟨?_, by simp, fun _ => rfl⟩
      rintro _ ⟨⟩
      exact .inl hkey
  · next hnone =>
      have hresolve : Reads env (resolveSource candidate.path) s fun answer =>
          ∃ t, env s (.backend (.resolveSource candidate.path)) answer t :=
        Reads.ask fun answer t step => ⟨h.read step (by simp), t, step⟩
      refine Checks.bind (Checks.lift hresolve) fun answer hanswer => ?_
      obtain ⟨t, step⟩ := hanswer
      cases answer with
      | ok resolved =>
          refine Checks.pure ⟨?_, fun _ => hnone, fun _ => rfl⟩
          intro key hkey
          exact .inr ⟨hnone, resolved, t, step, hkey⟩
      | error error =>
          dsimp only
          split
          · exact Checks.pure ⟨by simp, fun _ => hnone, fun _ => rfl⟩
          · refine Checks.pure ⟨by simp, fun _ => hnone, fun hresolving => ?_⟩
            exact absurd step (hresolving _ _ _)

/-- What normalising a group returns. -/
def Normalized (env : Environment (World VolumeState) Call Answer)
    (s : World VolumeState) (issues : List PlanIssue) (group : List SourceCandidate)
    (r : ExtTreeMap PathKey (List SourceCandidate) × List PlanIssue) : Prop :=
  ∃ keyed, Normalizes env s group keyed ∧ r.1 = ownersBy Prod.fst Prod.snd keyed ∧
    (∃ more, r.2 = issues ++ more) ∧ (Resolving env s → r.2 = issues)

theorem checks_normalizedOwners (h : V.Admits env s) (hpolls : Polls env s (E .cancelled))
    (group : List SourceCandidate) (issues : List PlanIssue) :
    Checks env (normalizedOwners group issues) s (Normalized env s issues group) E := by
  refine checks_foldChecked hpolls (Normalized env s issues)
    ⟨[], ⟨.refl _, .refl _, by simp⟩, rfl, ⟨[], by simp⟩, fun _ => rfl⟩ ?_
  rintro done candidate rest ⟨owners, issues'⟩ - ⟨keyed, hkeyed, howners, ⟨more, hmore⟩, hnone⟩
  refine Checks.bind (checks_candidateEntryKey h candidate) fun r hr => ?_
  obtain ⟨key, found⟩ := r
  obtain ⟨hsome, habsent, hfound⟩ := hr
  dsimp only at howners hmore hnone hsome habsent hfound ⊢
  have hissues : ∃ more, issues' ++ found = issues ++ more :=
    ⟨more ++ found, by rw [hmore, List.append_assoc]⟩
  have hclean : Resolving env s → issues' ++ found = issues := fun hresolving => by
    rw [hfound hresolving, List.append_nil, hnone hresolving]
  cases key with
  | none => exact Checks.pure ⟨keyed, hkeyed.skip (habsent rfl), howners, hissues, hclean⟩
  | some key =>
      refine Checks.pure ⟨keyed ++ [(key, candidate)], hkeyed.push (hsome key rfl), ?_,
        hissues, hclean⟩
      simp [howners, ownersBy]

/-- What a group adds to the duplicates. -/
theorem checks_groupDuplicates (h : V.Admits env s) (hpolls : Polls env s (E .cancelled))
    (acc : ExtTreeSet EntryId × List PlanIssue) (group : List SourceCandidate) :
    Checks env (groupDuplicates acc group) s
      (fun r => ∃ keyed, Normalizes env s group keyed ∧
        (∀ id, id ∈ r.1 ↔ id ∈ acc.1 ∨ ∃ owners ∈ ownerSets (ownersBy Prod.fst Prod.snd keyed),
          isDuplicateGroup owners = true ∧ ∃ candidate ∈ owners, candidate.id = id) ∧
        (∃ more, r.2 = acc.2 ++ more) ∧ (Resolving env s → r.2 = acc.2)) E := by
  unfold groupDuplicates
  refine Checks.bind (checks_normalizedOwners h hpolls group acc.2) fun r hr => ?_
  obtain ⟨owners, issues⟩ := r
  obtain ⟨keyed, hkeyed, rfl, hissues, hclean⟩ := hr
  refine Checks.bind (checks_foldChecked hpolls
    (fun done (duplicates : ExtTreeSet EntryId) => ∀ id, id ∈ duplicates ↔ id ∈ acc.1 ∨
      ∃ owners ∈ done, ∃ candidate ∈ owners, candidate.id = id) (by simp) ?_)
    fun duplicates hduplicates => ?_
  · rintro done owners rest duplicates - hduplicates
    refine Checks.pure fun id => ?_
    rw [ExtTreeSet.mem_insertMany_list, hduplicates]
    simp only [List.contains_iff_mem, List.mem_map, List.mem_append, List.mem_singleton,
      or_and_right, exists_or, exists_eq_left, or_assoc]
  · refine Checks.pure ⟨keyed, hkeyed, fun id => ?_, hissues, hclean⟩
    rw [hduplicates]
    simp only [List.mem_filter, and_assoc]

section Groups

variable {group : List SourceCandidate}
  {keyed : List (PathKey × SourceCandidate)}

/-- Two own keys of a group that agree put two candidates under that key, so the
group has a duplicate. -/
theorem exists_duplicateGroup (h : Normalizes env s group keyed)
    (hchanged : ∀ candidate ∈ group, candidate.entryKey ≠ none → candidate.changed = true)
    (hrepeat : ¬ ((ownKeys group).map Prod.fst).Nodup) :
    ∃ owners ∈ ownerSets (ownersBy Prod.fst Prod.snd keyed),
      isDuplicateGroup owners = true := by
  have hgroups : ¬ ∀ own ∈ ownerSets (ownersBy Prod.fst Prod.snd (ownKeys group)),
      own.length ≤ 1 := fun h => hrepeat (forall_ownerSets_length_le_one_iff.1 h)
  obtain ⟨own, hown, hlong⟩ : ∃ own ∈ ownerSets (ownersBy Prod.fst Prod.snd (ownKeys group)),
      1 < own.length := by
    simpa only [not_forall, exists_prop, Nat.not_le] using hgroups
  obtain ⟨p, hp, rfl⟩ := mem_ownerSets_ownersBy.1 hown
  have hsub : ((ownKeys group).filter fun q => q.1 = p.1).Sublist
      (keyed.filter fun q => q.1 = p.1) := h.own.filter _
  refine ⟨(keyed.filter fun q => q.1 = p.1).map Prod.snd,
    mem_ownerSets_ownersBy.2 ⟨p, h.own.mem hp, rfl⟩, ?_⟩
  obtain ⟨candidate, hcandidate, hpair⟩ := List.mem_filterMap.1 hp
  obtain ⟨key, hkey, rfl⟩ := Option.map_eq_some_iff.1 hpair
  rw [List.length_map] at hlong
  have hmem : candidate ∈ (keyed.filter fun q => q.1 = key).map Prod.snd :=
    List.mem_map.2 ⟨(key, candidate), List.mem_filter.2 ⟨h.own.mem hp, by simp⟩, rfl⟩
  simp only [isDuplicateGroup, Bool.and_eq_true, decide_eq_true_eq, List.length_map,
    List.any_eq_true]
  exact ⟨Nat.lt_of_lt_of_le hlong hsub.length_le, candidate, hmem,
    hchanged candidate hcandidate (by rw [hkey]; simp)⟩

/-- Under distinct keys no group has a duplicate. -/
theorem isDuplicateGroup_eq_false (hkeyed : (keyed.map Prod.fst).Nodup)
    {owners : List SourceCandidate}
    (howners : owners ∈ ownerSets (ownersBy Prod.fst Prod.snd keyed)) :
    isDuplicateGroup owners = false := by
  have hshort := forall_ownerSets_length_le_one_iff.2 hkeyed owners howners
  simp [isDuplicateGroup, Nat.not_lt.2 hshort]

/-- Without duplicates a group repeats none of its own keys. -/
theorem ownKeys_nodup_of_not_duplicate
    (hchanged : ∀ candidate ∈ group, candidate.entryKey ≠ none → candidate.changed = true)
    (h : isDuplicateGroup group = false) : ((ownKeys group).map Prod.fst).Nodup := by
  simp only [isDuplicateGroup, Bool.and_eq_false_iff, decide_eq_false_iff_not, Nat.not_lt,
    List.any_eq_false] at h
  rcases h with hshort | hnone
  · have hlength : ((ownKeys group).map Prod.fst).length ≤ 1 := by
      rw [List.length_map]
      exact Nat.le_trans (List.length_filterMap_le _ _) hshort
    match hkeys : (ownKeys group).map Prod.fst with
    | [] => exact List.nodup_nil
    | [key] => exact List.nodup_singleton key
    | _ :: _ :: _ => simp [hkeys] at hlength
  · have hempty : ownKeys group = [] := by
      refine List.filterMap_eq_nil_iff.2 fun candidate hcandidate => ?_
      by_contra hne
      refine hnone candidate hcandidate (hchanged candidate hcandidate fun hkey => hne ?_)
      rw [hkey]
      rfl
    simp [hempty]

end Groups

/-- The group of a planned row. -/
def rowIdentity (row : PlanRow) : SourceIdentity :=
  ⟨row.sourceSnapshot.parent,
    (row.sourceSnapshot.entry.map ObservedEntry.identity).getD ⟨0, 0⟩⟩

def rowCandidate (row : PlanRow) : SourceCandidate :=
  ⟨row.id, row.source, some row.sourceEntryKey, true⟩

theorem checks_changedCandidates (hpolls : Polls env s (E .cancelled)) {entries : List PlanRow}
    (hentry : ∀ row ∈ entries, ∃ source, row.sourceSnapshot.entry = some source) :
    Checks env (changedCandidates entries) s
      (fun candidates => candidates = ownersBy rowIdentity rowCandidate entries) E := by
  refine checks_foldChecked hpolls
    (fun done candidates => candidates = ownersBy rowIdentity rowCandidate done) rfl ?_
  rintro done row rest candidates rfl rfl
  obtain ⟨source, hsource⟩ := hentry row (by simp)
  simp only [hsource]
  refine Checks.pure ?_
  simp [ownersBy, rowIdentity, rowCandidate, hsource]

/-- All candidates of a request: its planned rows and the unchanged intents found. -/
structure Found (env : Environment (World VolumeState) Call Answer)
    (s : World VolumeState) (entries : List PlanRow) (unchanged : List RenameIntent)
    (r : Candidates × List PlanIssue) (found : List (SourceIdentity × SourceCandidate)) :
    Prop where
  candidates : r.1 = ownersBy Prod.fst Prod.snd
    (entries.map (fun row => (rowIdentity row, rowCandidate row)) ++ found)
  unkeyed : ∀ p ∈ found, p.2.entryKey = none ∧ p.2.changed = false
  paths : (found.map fun p => p.2.path).Sublist (unchanged.map RenameIntent.source)
  issues : (∀ path error t, ¬ env s (.backend (.observe path)) (.error error) t) → r.2 = []

theorem ownersBy_map {A K W : Type} [Ord K] [TransOrd K] [LawfulEqOrd K] (key : A → K)
    (value : A → W) (l : List A) :
    ownersBy key value l = ownersBy Prod.fst Prod.snd (l.map fun a => (key a, value a)) := by
  simp [ownersBy, List.foldl_map]

theorem checks_unchangedCandidates (h : V.Admits env s) (hpolls : Polls env s (E .cancelled))
    (entries : List PlanRow) (unchanged : List RenameIntent) :
    Checks env (unchangedCandidates unchanged (ownersBy rowIdentity rowCandidate entries)) s
      (fun r => ∃ found, Found env s entries unchanged r found) E := by
  refine checks_foldChecked hpolls (fun done r => ∃ found, Found env s entries done r found)
    ⟨[], ?_, by simp, .refl _, fun _ => rfl⟩ ?_
  · simp [ownersBy_map rowIdentity]
  rintro done intent rest ⟨candidates, issues⟩ - ⟨found, hcandidates, hunkeyed, hpaths, hissues⟩
  dsimp only at hcandidates hissues ⊢
  have hskip : Found env s entries (done ++ [intent]) (candidates, issues) found :=
    ⟨hcandidates, hunkeyed, by
      rw [List.map_append]
      exact hpaths.trans (List.sublist_append_left _ _), hissues⟩
  have hobserve : Reads env (observe intent.source) s fun answer =>
      ∀ error, answer = .error error →
        ¬ ∀ path error t, ¬ env s (.backend (.observe path)) (.error error) t := by
    refine Reads.ask fun answer t step => ⟨h.read step (by simp), ?_⟩
    rintro error rfl hnever
    exact hnever _ _ _ step
  refine Checks.bind (Checks.lift hobserve) fun answer hanswer => ?_
  cases answer with
  | ok snapshot =>
      obtain ⟨parent, entry⟩ := snapshot
      cases entry with
      | none => exact Checks.pure ⟨found, hskip⟩
      | some source =>
          refine Checks.pure ⟨found ++ [(⟨parent, source.identity⟩,
            ⟨intent.id, intent.source, none, false⟩)], ?_, ?_, ?_, hissues⟩
          · simp only [hcandidates]
            simp [ownersBy]
          · intro p hp
            rcases List.mem_append.1 hp with hp | hp
            · exact hunkeyed p hp
            · rw [List.mem_singleton.1 hp]
              exact ⟨rfl, rfl⟩
          · rw [List.map_append, List.map_append]
            exact List.Sublist.append hpaths (List.Sublist.refl _)
  | error error =>
      dsimp only
      split
      · exact Checks.pure ⟨found, hskip⟩
      · refine Checks.pure ⟨found, hcandidates, hunkeyed, ?_, fun hnever =>
          absurd hnever (hanswer error rfl)⟩
        rw [List.map_append]
        exact hpaths.trans (List.sublist_append_left _ _)

section Pass

variable {entries : List PlanRow} {request : List RenameIntent}

/-- Classes that keep equal keys together are enough to compare inside. -/
theorem nodup_map_of_classes {A K W : Type} [DecidableEq W] {key : A → K} {cls : A → W}
    {l : List A} (hcls : ∀ a ∈ l, ∀ b ∈ l, key a = key b → cls a = cls b)
    (hnodup : ∀ a ∈ l, ((l.filter fun b => cls b = cls a).map key).Nodup) :
    (l.map key).Nodup := by
  induction l with
  | nil => exact List.nodup_nil
  | cons a l ih =>
      rw [List.map_cons, List.nodup_cons]
      refine ⟨?_, ih ?_ ?_⟩
      · intro hmem
        obtain ⟨b, hb, hkey⟩ := List.mem_map.1 hmem
        have hclass := hcls b (by simp [hb]) a (by simp) hkey
        have hfirst := hnodup a (by simp)
        rw [List.filter_cons_of_pos (by simp), List.map_cons, List.nodup_cons] at hfirst
        refine hfirst.1 (List.mem_map.2 ⟨b, List.mem_filter.2 ⟨hb, by simp [hclass]⟩, hkey⟩)
      · exact fun b hb c hc => hcls b (by simp [hb]) c (by simp [hc])
      · intro b hb
        refine (hnodup b (by simp [hb])).sublist (List.Sublist.map key ?_)
        exact (List.sublist_cons_self a l).filter _

/-- The own keys in the group of a row are the source keys of the rows of its group. -/
theorem ownKeys_group (found : List (SourceIdentity × SourceCandidate))
    (hunkeyed : ∀ p ∈ found, p.2.entryKey = none ∧ p.2.changed = false)
    (identity : SourceIdentity) :
    (ownKeys (((entries.map (fun row => (rowIdentity row, rowCandidate row)) ++ found).filter
      fun p => p.1 = identity).map Prod.snd)).map Prod.fst =
      (entries.filter fun row => rowIdentity row = identity).map PlanRow.sourceEntryKey := by
  have hfound : ownKeys ((found.filter fun p => p.1 = identity).map Prod.snd) = [] := by
    refine List.filterMap_eq_nil_iff.2 fun candidate hcandidate => ?_
    obtain ⟨p, hp, rfl⟩ := List.mem_map.1 hcandidate
    rw [(hunkeyed p (List.mem_of_mem_filter hp)).1]
    rfl
  rw [List.filter_append, List.map_append, ownKeys, List.filterMap_append, ← ownKeys,
    ← ownKeys, hfound, List.append_nil]
  induction entries with
  | nil => rfl
  | cons row entries ih =>
      by_cases hrow : rowIdentity row = identity
      · simp [hrow, ownKeys, rowCandidate] at ih ⊢
        exact ih
      · simp [hrow] at ih ⊢
        exact ih

/-- All candidates with an own key are changed. -/
theorem changed_of_entryKey {found : List (SourceIdentity × SourceCandidate)}
    (hunkeyed : ∀ p ∈ found, p.2.entryKey = none ∧ p.2.changed = false)
    {group : List SourceCandidate}
    (hgroup : group ∈ ownerSets (ownersBy Prod.fst Prod.snd
      (entries.map (fun row => (rowIdentity row, rowCandidate row)) ++ found))) :
    ∀ candidate ∈ group, candidate.entryKey ≠ none → candidate.changed = true := by
  obtain ⟨p, -, rfl⟩ := mem_ownerSets_ownersBy.1 hgroup
  intro candidate hcandidate hkey
  obtain ⟨q, hq, rfl⟩ := List.mem_map.1 hcandidate
  rcases List.mem_append.1 (List.mem_of_mem_filter hq) with hrow | hfound
  · obtain ⟨row, -, rfl⟩ := List.mem_map.1 hrow
    rfl
  · exact absurd (hunkeyed q hfound).1 hkey

/-- The source keys of an accepted request do not repeat. -/
theorem checks_actualDuplicates_sound (h : V.Admits env s)
    (hentry : ∀ row ∈ entries, ∃ source, row.sourceSnapshot.entry = some source)
    (hsame : ∀ row ∈ entries, ∀ row' ∈ entries,
      row.sourceEntryKey = row'.sourceEntryKey → rowIdentity row = rowIdentity row') :
    Checks env (appendActualDuplicateSourceIssues request entries) s
      (fun issues => issues = [] → (entries.map PlanRow.sourceEntryKey).Nodup)
      fun _ => True := by
  unfold appendActualDuplicateSourceIssues
  split
  · next hempty =>
      refine Checks.pure fun _ => ?_
      rw [List.isEmpty_iff.1 hempty]
      exact List.nodup_nil
  refine Checks.bind (checks_changedCandidates h.polls hentry) fun candidates hcandidates => ?_
  subst hcandidates
  refine Checks.bind (checks_unchangedCandidates h h.polls entries _) fun r hr => ?_
  obtain ⟨candidates, issues⟩ := r
  obtain ⟨found, hfound⟩ := hr
  have hall : candidates = ownersBy Prod.fst Prod.snd
    (entries.map (fun row => (rowIdentity row, rowCandidate row)) ++ found) := hfound.candidates
  have hchanged : ∀ group ∈ ownerSets candidates, ∀ candidate ∈ group,
      candidate.entryKey ≠ none → candidate.changed = true := by
    intro group hgroup
    rw [hall] at hgroup
    exact changed_of_entryKey hfound.unkeyed hgroup
  dsimp only
  split
  · next hissues => exact Checks.pure fun hnil => absurd hnil hissues
  refine Checks.bind (checks_foldChecked h.polls
    (fun done (acc : ExtTreeSet EntryId × List PlanIssue) => (∀ id, id ∉ acc.1) →
      ∀ group ∈ done, ((ownKeys group).map Prod.fst).Nodup) (by simp) ?_)
    fun acc hacc => ?_
  · intro done group rest acc hsplit hacc
    have hgroup : group ∈ ownerSets candidates := by
      refine List.mem_of_mem_filter (p := isDuplicateGroup) ?_
      rw [hsplit]
      simp
    refine (checks_groupDuplicates h h.polls acc group).mono ?_ fun _ => id
    rintro acc' ⟨keyed, hkeyed, hids, -⟩ hnone other hother
    rcases List.mem_append.1 hother with hother | hother
    · exact hacc (fun id hid => hnone id ((hids id).2 (.inl hid))) other hother
    · rw [List.mem_singleton.1 hother]
      by_contra hrepeat
      obtain ⟨owners, howners, hduplicate⟩ :=
        exists_duplicateGroup hkeyed (hchanged group hgroup) hrepeat
      obtain ⟨candidate, hcandidate⟩ : ∃ candidate, candidate ∈ owners := by
        refine List.exists_mem_of_length_pos ?_
        simp only [isDuplicateGroup, Bool.and_eq_true, decide_eq_true_eq] at hduplicate
        exact Nat.lt_of_succ_lt hduplicate.1
      exact hnone candidate.id
        ((hids _).2 (.inr ⟨owners, howners, hduplicate, candidate, hcandidate, rfl⟩))
  · refine (checks_issueEach h.polls _ _ _).mono (fun issues hissues hnil => ?_) fun _ => id
    rw [hissues, List.append_eq_nil_iff, List.map_eq_nil_iff] at hnil
    have hnone : ∀ id, id ∉ acc.1 := by
      intro id hid
      rw [← ExtTreeSet.mem_toList, hnil.2] at hid
      simp at hid
    refine nodup_map_of_classes hsame fun row hrow => ?_
    have hgroup : ((entries.map (fun row => (rowIdentity row, rowCandidate row)) ++
        found).filter fun p => p.1 = rowIdentity row).map Prod.snd ∈ ownerSets candidates := by
      rw [hall]
      exact mem_ownerSets_ownersBy.2 ⟨(rowIdentity row, rowCandidate row),
        List.mem_append_left _ (List.mem_map.2 ⟨row, hrow, rfl⟩), rfl⟩
    rw [← ownKeys_group found hfound.unkeyed]
    by_cases hduplicate : isDuplicateGroup (((entries.map
        (fun row => (rowIdentity row, rowCandidate row)) ++ found).filter
          fun p => p.1 = rowIdentity row).map Prod.snd) = true
    · exact hacc hnone _ (List.mem_filter.2 ⟨hgroup, hduplicate⟩)
    · exact ownKeys_nodup_of_not_duplicate (hchanged _ hgroup) (by simpa using hduplicate)

end Pass

end Planner

end DarkReNamer
