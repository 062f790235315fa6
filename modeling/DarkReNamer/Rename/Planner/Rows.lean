import DarkReNamer.Rename.Planner.Loops
import DarkReNamer.Rename.Volume

/-!
# Planned rows

What the planner has checked of one row over a volume: its endpoints are the entries
under its keys, the source is what the intent says it is, and the move stays inside the
boundary of the request.
-/

namespace DarkReNamer

open Std Interaction

/-- Every member of a list is related to one of the list beside it. -/
theorem exists_mem_of_forall₂ {A B : Type} {R : A → B → Prop} {l : List A} {l' : List B}
    (h : List.Forall₂ R l l') : ∀ b ∈ l', ∃ a ∈ l, R a b := by
  induction h with
  | nil => simp
  | cons hab _ ih =>
      intro b hb
      rcases List.mem_cons.1 hb with rfl | hb
      · exact ⟨_, List.mem_cons_self, hab⟩
      · obtain ⟨a, ha, hrel⟩ := ih b hb
        exact ⟨a, List.mem_cons_of_mem _ ha, hrel⟩

/-- A row the planner accepts for an intent. -/
structure PlannedRow (V : Volume) (o : VolumeState) (scope : MoveScope)
    (intent : RenameIntent) (row : PlanRow) : Prop where
  id : row.id = intent.id
  destination : row.destination = intent.destination
  kind : row.kind = intent.kind
  resolves : V.Resolves o intent.source
    ⟨row.source, row.sourceSnapshot, some row.sourceEntryKey⟩
  source_entry : ∃ identity, row.sourceSnapshot.entry = some ⟨identity, row.kind, false⟩
  source_key : row.sourceEntryKey = V.entryKey row.sourceSnapshot.parent (pathLeaf row.source)
  destination_key : row.destinationEntryKey =
    V.entryKey row.destinationSnapshot.parent intent.destinationName
  destination_snapshot : row.destinationSnapshot = V.snapshot o row.destination
  volume : ∀ source, row.sourceSnapshot.entry = some source →
    source.identity.volume = row.sourceSnapshot.parent.volume ∧
      row.sourceSnapshot.parent.volume = row.destinationSnapshot.parent.volume
  boundary : row.sourceSnapshot.parent ≠ row.destinationSnapshot.parent →
    scope = .sameVolumeFilesOnly ∧ row.kind = .file

namespace PlannedRow

variable {V : Volume} {o : VolumeState} {scope : MoveScope} {intent : RenameIntent}
  {row : PlanRow}

theorem occupant (h : PlannedRow V o scope intent row) :
    V.observed o row.sourceEntryKey = row.sourceSnapshot.entry :=
  h.resolves.occupant _ rfl

theorem exists_source (h : PlannedRow V o scope intent row) : ∃ source,
    row.sourceSnapshot.entry = some source ∧ o row.sourceEntryKey = some source.identity := by
  obtain ⟨identity, hentry⟩ := h.source_entry
  have hoccupant := h.occupant
  rw [hentry, Volume.observed, Option.map_eq_some_iff] at hoccupant
  obtain ⟨occupant, ho, hsource⟩ := hoccupant
  refine ⟨_, hentry, ?_⟩
  rw [ho, ← hsource]

end PlannedRow

namespace Planner

variable {V : Volume} {env : Environment (World VolumeState) Call Answer}
  {s : World VolumeState}

theorem boundaryIssues_eq_nil {scope : MoveScope} {sourceEntry : ObservedEntry}
    {sourceParent destinationParent : EntryIdentity}
    (h : boundaryIssues scope sourceEntry sourceParent destinationParent = []) :
    (sourceEntry.identity.volume = sourceParent.volume ∧
      sourceParent.volume = destinationParent.volume) ∧
    (sourceParent ≠ destinationParent →
      scope = .sameVolumeFilesOnly ∧ sourceEntry.kind = .file) := by
  simp only [boundaryIssues, List.append_eq_nil_iff, ite_eq_right_iff, List.cons_ne_nil,
    imp_false, not_and, not_or, not_not] at h
  obtain ⟨⟨hparent, hdirectory⟩, hvolume⟩ := h
  refine ⟨hvolume, fun hne => ?_⟩
  have hscope : scope = .sameVolumeFilesOnly := by
    cases scope with
    | sameParent => exact absurd rfl (hparent hne)
    | sameVolumeFilesOnly => rfl
  refine ⟨hscope, ?_⟩
  cases hkind : sourceEntry.kind with
  | file => rfl
  | directory => exact absurd hkind (hdirectory hne hscope)

/-- What an accepted source promises. -/
structure SourceAccepted (V : Volume) (o : VolumeState) (intent : RenameIntent)
    (source : ResolvedSource × ObservedEntry × PathKey) : Prop where
  resolves : V.Resolves o intent.source source.1
  entry : source.1.snapshot.entry = some source.2.1
  entryKey : source.1.entryKey = some source.2.2
  kind : source.2.1.kind = intent.kind
  key : source.2.2 = V.entryKey source.1.snapshot.parent (pathLeaf source.1.path)
  not_reparse : source.2.1.isReparsePoint = false

theorem checks_planSource_answered (h : V.Admits env s) (intent : RenameIntent) :
    Checks env (planSource intent) s
      (fun result => ∀ source, result = .ok source →
        SourceAccepted V s.backend intent source ∧
          ∃ t, env s (.backend (.resolveSource intent.source)) (.ok source.1) t)
      fun _ => True := by
  have hrefused : ∀ kind : PlanIssueKind, Checks env
      (pure (.error kind) : ExceptT PlanAttemptError Engine
        (Except PlanIssueKind (ResolvedSource × ObservedEntry × PathKey))) s
      (fun result => ∀ source, result = .ok source →
        SourceAccepted V s.backend intent source ∧
          ∃ t, env s (.backend (.resolveSource intent.source)) (.ok source.1) t)
      fun _ => True := fun kind => Checks.pure (by simp)
  refine Checks.bind (Checks.lift (h.reads_resolveSource _).answered) fun answer hanswer => ?_
  obtain ⟨hanswer, t, step⟩ := hanswer
  cases answer with
  | error error => exact hrefused _
  | ok resolved =>
      have hresolves := hanswer resolved rfl
      refine Checks.bind (checks_checkCancelled (h.polls)) fun _ _ => ?_
      split
      · exact hrefused _
      · next sourceEntry hentry =>
          split
          · exact hrefused _
          · next hkind =>
              split
              · exact hrefused _
              · next key hkey =>
                  split
                  · exact hrefused _
                  · refine Checks.bind (Checks.lift (h.reads_plannedEntryKey _ _))
                      fun planned hplanned => ?_
                    cases planned with
                    | error error => exact hrefused _
                    | ok plannedKey =>
                        dsimp only
                        split
                        · exact hrefused _
                        · next hsame =>
                            split
                            · exact hrefused _
                            · next hreparse =>
                                refine Checks.pure ?_
                                rintro source ⟨⟩
                                have hplannedKey := hplanned plannedKey rfl
                                rw [not_not.1 hsame] at hplannedKey
                                exact ⟨⟨hresolves, hentry, hkey, not_not.1 hkind, hplannedKey,
                                  by simpa using hreparse⟩, t, step⟩

/-- The answers of the backend that a row is made of. -/
structure Answered (env : Environment (World VolumeState) Call Answer)
    (s : World VolumeState) (intent : RenameIntent) (row : PlanRow) : Prop where
  source : ∃ t, env s (.backend (.resolveSource intent.source))
    (.ok ⟨row.source, row.sourceSnapshot, some row.sourceEntryKey⟩) t
  destination : ∃ t, env s (.backend (.observe intent.destination))
    (.ok row.destinationSnapshot) t

theorem checks_planRow_answered (h : V.Admits env s) (scope : MoveScope)
    (intent : RenameIntent) :
    Checks env (planRow scope intent) s
      (ExceptPost (fun row => PlannedRow V s.backend scope intent row ∧
        Answered env s intent row) (· ≠ [])) fun _ => True := by
  refine Checks.bind (checks_planSource_answered h intent) fun result hsource => ?_
  cases result with
  | error kind => exact Checks.pure (List.cons_ne_nil _ _)
  | ok source =>
      obtain ⟨resolved, sourceEntry, sourceEntryKey⟩ := source
      obtain ⟨⟨hresolves, hentry, hentryKey, hkind, hkey, hreparse⟩, hresolved⟩ :=
        hsource _ rfl
      refine Checks.bind (Checks.lift (h.reads_observe _).answered) fun answer hanswer => ?_
      obtain ⟨hanswer, hobserved⟩ := hanswer
      cases answer with
      | error error => exact Checks.pure (List.cons_ne_nil _ _)
      | ok destinationSnapshot =>
          refine Checks.bind (checks_checkCancelled (h.polls)) fun _ _ => ?_
          dsimp only
          split
          · next hblockers => exact Checks.pure hblockers
          · next hblockers =>
              refine Checks.bind (Checks.lift (h.reads_plannedEntryKey _ _))
                fun planned hplanned => ?_
              cases planned with
              | error error => exact Checks.pure (List.cons_ne_nil _ _)
              | ok destinationEntryKey =>
                  refine Checks.pure ?_
                  obtain ⟨hvolume, hboundary⟩ := boundaryIssues_eq_nil (not_not.1 hblockers)
                  dsimp only at hentry hentryKey hkind hkey hreparse
                  refine ⟨?_, ⟨hentryKey ▸ hresolved, hobserved⟩⟩
                  refine
                    { id := rfl
                      destination := rfl
                      kind := rfl
                      source_entry := ⟨sourceEntry.identity, ?_⟩
                      resolves := ?_
                      source_key := hkey
                      destination_key := hplanned _ rfl
                      destination_snapshot := hanswer _ rfl
                      volume := ?_
                      boundary := ?_ }
                  · rw [← hentryKey]
                    exact hresolves
                  · dsimp only
                    rw [hentry, ← hkind, ← hreparse]
                  · intro source hsource
                    obtain rfl := Option.some.inj (hentry.symm.trans hsource)
                    exact hvolume
                  · intro hne
                    obtain ⟨hscope, hfile⟩ := hboundary hne
                    exact ⟨hscope, hkind ▸ hfile⟩

/-- A pass without issues has a planned row for every changed intent, in order, made of what the
backend answers for that intent. -/
theorem checks_planRows_answered (h : V.Admits env s) (scope : MoveScope)
    (hasChangedDirectory : Bool) (changed : List RenameIntent) :
    Checks env (planRows scope hasChangedDirectory changed) s
      (fun rows => rows.issues = [] → List.Forall₂ (fun intent row =>
        PlannedRow V s.backend scope intent row ∧ Answered env s intent row) changed rows.entries)
      fun _ => True := by
  refine checks_foldChecked h.polls (fun done (rows : RowsState) => rows.issues = [] →
    List.Forall₂ (fun intent row => PlannedRow V s.backend scope intent row ∧
      Answered env s intent row) done rows.entries) (fun _ => .nil) ?_
  intro done intent rest st _ hst
  refine Checks.bind (checks_planRow_answered h scope intent) fun result hresult => ?_
  cases result with
  | error kinds =>
      refine Checks.pure fun hnil => ?_
      obtain ⟨-, hkinds⟩ := List.append_eq_nil_iff.1 hnil
      exact absurd (List.map_eq_nil_iff.1 hkinds) hresult
  | ok row =>
      have hpush : st.issues = [] → List.Forall₂ (fun intent row =>
          PlannedRow V s.backend scope intent row ∧ Answered env s intent row)
          (done ++ [intent]) (st.entries ++ [row]) := fun hnil =>
        List.rel_append (hst hnil) (.cons hresult .nil)
      dsimp only
      split
      · exact Checks.pure hpush
      · exact Checks.pure hpush

theorem checks_planRows (h : V.Admits env s) (scope : MoveScope) (hasChangedDirectory : Bool)
    (changed : List RenameIntent) :
    Checks env (planRows scope hasChangedDirectory changed) s
      (fun rows => rows.issues = [] →
        List.Forall₂ (PlannedRow V s.backend scope) changed rows.entries) fun _ => True :=
  (checks_planRows_answered h scope hasChangedDirectory changed).mono
    (fun _ hrows hnil => (hrows hnil).imp fun _ _ hrow => hrow.1) fun _ => id

end Planner

end DarkReNamer
