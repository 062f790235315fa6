import DarkReNamer.Workbench.Effect

/-!
# What a command does to the sources

An append index goes by the identity and the revision of its list. Whatever its totals are, a
command that returns either leaves both, and then the list has the sources it had, in some
order, or it makes every index stale.
-/

namespace DarkReNamer

open Interaction LegacyList

def LegacyList.sources (list : LegacyList) : List LegacyText := list.items.map (·.sourcePath)

inductive SourceEffect (fresh : ℕ) (list list' : LegacyList) : Prop
  | kept (identity : list'.identity = list.identity)
      (revision : list'.sourceRevision = list.sourceRevision)
      (perm : list'.sources.Perm list.sources)
  | renewed (identity : list'.identity = (list.invalidateSourceIndex fresh).identity)
      (revision : list'.sourceRevision = (list.invalidateSourceIndex fresh).sourceRevision)

section

variable {fresh : ℕ} {list list' : LegacyList}

theorem SourceEffect.refl (fresh : ℕ) (list : LegacyList) : SourceEffect fresh list list :=
  .kept rfl rfl (.refl _)

/-- The same sources in the same order. -/
theorem SourceEffect.of_eq (identity : list'.identity = list.identity)
    (revision : list'.sourceRevision = list.sourceRevision)
    (sources : list'.sources = list.sources) : SourceEffect fresh list list' :=
  .kept identity revision (sources ▸ .refl _)

/-- What the identity and the revision become does not depend on the rows and the totals. -/
theorem invalidateSourceIndex_congr (identity : list'.identity = list.identity)
    (revision : list'.sourceRevision = list.sourceRevision) :
    (list'.invalidateSourceIndex fresh).identity = (list.invalidateSourceIndex fresh).identity ∧
      (list'.invalidateSourceIndex fresh).sourceRevision =
        (list.invalidateSourceIndex fresh).sourceRevision := by
  unfold invalidateSourceIndex
  rw [revision]
  split
  · exact ⟨identity, rfl⟩
  · exact ⟨rfl, rfl⟩

theorem SourceEffect.invalidate (identity : list'.identity = list.identity)
    (revision : list'.sourceRevision = list.sourceRevision) :
    SourceEffect fresh list (list'.invalidateSourceIndex fresh) :=
  .renewed (invalidateSourceIndex_congr identity revision).1
    (invalidateSourceIndex_congr identity revision).2

/-! ### Commands that return their result -/

theorem clear_sources (list : LegacyList) (fresh : ℕ) :
    SourceEffect fresh list (list.clear fresh).2 := by
  unfold clear
  dsimp only
  split
  · rename_i hempty
    exact .of_eq rfl rfl (by rw [sources, sources, List.isEmpty_iff.1 hempty])
  · exact .invalidate rfl rfl

theorem removeRows_sources {selected : List ℕ} {count : ℕ}
    (h : list.removeRows fresh selected = some (count, list')) :
    SourceEffect fresh list list' := by
  unfold removeRows at h
  dsimp only at h
  split at h
  · cases h
    exact .refl fresh list
  · simp only [Option.bind_eq_bind, Option.bind_eq_some_iff] at h
    obtain ⟨_, -, _, -, _, -, ⟨⟩⟩ := h
    exact .invalidate rfl rfl

theorem reordered_sources {items : List LegacyListItem} (h : items.Perm list.items) :
    SourceEffect fresh list { list with items := items } :=
  .kept rfl rfl (h.map _)

theorem sources_changeRows {proposal : LegacyListItem → LegacyText} {row total units : ℕ}
    {items items' : List LegacyListItem} {rows : List ℕ}
    (h : changeRows proposal row items total = some (rows, items', units)) :
    items'.map (·.sourcePath) = items.map (·.sourcePath) := by
  induction items generalizing row total rows items' units with
  | nil =>
      cases h
      rfl
  | cons item items ih =>
      simp only [changeRows, Option.bind_eq_bind, Option.bind_eq_some_iff] at h
      obtain ⟨_, -, ⟨rows', later, _⟩, hrest, h⟩ := h
      have hlater := ih hrest
      split at h
      · cases h
        rw [List.map_cons, List.map_cons, hlater]
      · cases h
        rw [List.map_cons, List.map_cons, hlater]

theorem changedProposals_sources {proposal : LegacyListItem → LegacyText} {rows : List ℕ}
    (h : list.changedProposals proposal = some (rows, list')) : SourceEffect fresh list list' := by
  simp only [changedProposals, Option.bind_eq_bind, Option.bind_eq_some_iff] at h
  obtain ⟨⟨_, items, _⟩, hrows, _, -, ⟨⟩⟩ := h
  exact .of_eq rfl rfl (sources_changeRows hrows)

theorem sources_writeProposal (items : List LegacyListItem) (row : ℕ) (value : LegacyText) :
    (writeProposal items ⟨row, value⟩).map (·.sourcePath) = items.map (·.sourcePath) := by
  unfold writeProposal
  induction items generalizing row with
  | nil => rw [List.modify_nil]
  | cons item items ih =>
      cases row with
      | zero => rfl
      | succ row => rw [List.modify_succ_cons, List.map_cons, List.map_cons, ih row]

theorem setManualProposal_sources (fresh : ℕ) (list : LegacyList) (index : ℕ) (name : LegacyText) :
    SourceEffect fresh list (list.setManualProposal index name).2 := by
  unfold setManualProposal
  split
  · exact .refl fresh list
  · split
    · exact .refl fresh list
    · exact .of_eq rfl rfl (sources_writeProposal _ _ _)

theorem recordMoveSuccess_sources {index : ℕ} {isMoved : Bool}
    (h : list.recordMoveSuccess fresh index = some (isMoved, list')) :
    SourceEffect fresh list list' := by
  unfold recordMoveSuccess at h
  split at h
  · cases h
    exact .refl fresh list
  · simp only [Option.bind_eq_bind, Option.bind_eq_some_iff] at h
    obtain ⟨_, -, _, -, ⟨⟩⟩ := h
    exact .invalidate rfl rfl

/-! ### Commands that ask the allocator -/

theorem RenamesOrRefuses.sources {r : Except ProposalMutationError (List ℕ) × LegacyList}
    (h : RenamesOrRefuses list r) : SourceEffect fresh list r.2 := by
  obtain ⟨result, list'⟩ := r
  cases result with
  | error error =>
      obtain rfl : list' = list := h
      exact .refl fresh list'
  | ok rows =>
      obtain ⟨items, hrenamed, rfl⟩ := h
      exact .of_eq rfl rfl hrenamed.renames.sourcePaths

theorem withParents_sources (fresh : ℕ) (list : LegacyList) (units : ℕ)
    (f : LegacyListItem → LegacyText) :
    SourceEffect fresh list (list.withParents units (list.items.map f)).2 := by
  refine .of_eq rfl rfl ?_
  rw [sources, withParents, zipWith_writeParent, sourcePaths_reparented, sources]

theorem unifyDestinationParentChanged_sources (list : LegacyList) (parent : LegacyText) :
    Confined (fun _ => True) (fun r => SourceEffect fresh list r.2)
      (list.unifyDestinationParentChanged parent) := by
  unfold unifyDestinationParentChanged
  refine Confined.bind (stages_any _) fun r _ => ?_
  cases r with
  | error error => exact .refl fresh list
  | ok staged =>
      have hparents : List.replicate list.items.length staged.2 =
          list.items.map fun _ => staged.2 := by simp
      have hsources := withParents_sources fresh list staged.1 fun _ => staged.2
      rwa [← hparents] at hsources

theorem resetDestinationParents_sources (list : LegacyList) :
    Confined (fun _ => True) (fun r => SourceEffect fresh list r.2)
      list.resetDestinationParents := by
  unfold resetDestinationParents
  refine Confined.bind (stages_stageReset list) fun r hr => ?_
  cases r with
  | error error => exact .refl fresh list
  | ok staged =>
      obtain ⟨hparents, -, -⟩ := hr staged rfl
      have hsources := withParents_sources fresh list staged.1 sourceParent
      rwa [← hparents] at hsources

/-! ### Every command -/

/-- Whatever list a command returns. -/
abbrev AffectsSources (fresh : ℕ) (list : LegacyList)
    (program : Program Reservation Granted (Option (Outcome × LegacyList))) : Prop :=
  Confined (fun _ => True)
    (fun r => ∀ outcome list', r = some (outcome, list') → SourceEffect fresh list list') program

theorem AffectsSources.performed {α : Type} {outcome : α → Outcome}
    {result : Option (α × LegacyList)}
    (h : ∀ a list', result = some (a, list') → SourceEffect fresh list list') :
    AffectsSources fresh list (performed outcome result) := by
  intro o list' heq
  obtain ⟨⟨a, list''⟩, hresult, heq⟩ := Option.map_eq_some_iff.1 heq
  cases heq
  exact h a list'' hresult

theorem AffectsSources.attempted {ε : Type} {outcome : Except ε (List ℕ) → Outcome}
    {program : Program Reservation Granted (Except ε (List ℕ) × LegacyList)}
    (h : Confined (fun _ => True) (fun r => SourceEffect fresh list r.2) program) :
    AffectsSources fresh list (attempted outcome program) := by
  refine Confined.bind h ?_
  rintro ⟨result, list'⟩ hr o list'' heq
  cases heq
  exact hr

theorem AffectsSources.renaming
    {program : Program Reservation Granted (Except ProposalMutationError (List ℕ) × LegacyList)}
    (h : Confined (fun _ => True) (RenamesOrRefuses list) program) :
    AffectsSources fresh list (DarkReNamer.attempted .ofProposals program) :=
  .attempted (h.mono fun _ => RenamesOrRefuses.sources)

theorem withNormalizedExtension_sources (list : LegacyList) (extension : LegacyText)
    (proposal : LegacyText → ℕ → LegacyListItem → Staging ProposalMutationError LegacyText) :
    Confined (fun _ => True) (fun r => SourceEffect fresh list r.2)
      (list.withNormalizedExtension extension proposal) := by
  unfold withNormalizedExtension
  refine Confined.bind (stages_any _) fun r _ => ?_
  cases r with
  | error error => exact .refl fresh list
  | ok extension =>
      cases extension with
      | none => exact .refl fresh list
      | some extension =>
          exact (list.tryChangedProposals_spec _).mono fun _ => RenamesOrRefuses.sources

theorem perform_affectsSources (alg : Slices.Algorithms) (fresh : ℕ) (list : LegacyList)
    (command : Command) : AffectsSources fresh list (command.perform alg fresh list) := by
  cases command with
  | clear =>
      refine .performed fun a list' h => ?_
      have hsources := clear_sources list fresh
      rwa [Option.some_inj.1 h] at hsources
  | removeRows selected => exact .performed fun _ _ => removeRows_sources
  | moveRowsEarlier selected =>
      obtain ⟨outcome, items, hperm, hmoved⟩ := list.moveRowsEarlierChanged_perm selected
      refine .performed fun a list' h => ?_
      cases hmoved.symm.trans h
      exact reordered_sources hperm
  | moveRowsLater selected =>
      obtain ⟨outcome, items, hperm, hmoved⟩ := list.moveRowsLaterChanged_perm selected
      refine .performed fun a list' h => ?_
      cases hmoved.symm.trans h
      exact reordered_sources hperm
  | resetProposals => exact .renaming (list.tryChangedProposals_spec _)
  | manualChange index name =>
      refine .performed fun a list' h => ?_
      have hsources := setManualProposal_sources fresh list index name
      rwa [Option.some_inj.1 h] at hsources
  | recordMoveSuccess index => exact .performed fun _ _ => recordMoveSuccess_sources
  | replaceComplete source target =>
      exact .renaming (list.tryChangedProposalsOptional_spec _ _)
  | prefixComplete front =>
      refine .attempted ?_
      unfold prefixCompleteChanged
      split
      · exact .refl fresh list
      · exact (list.tryChangedProposals_spec _).mono fun _ => RenamesOrRefuses.sources
  | suffixBeforeExtension suffix =>
      refine .attempted ?_
      unfold suffixBeforeExtensionChanged
      split
      · exact .refl fresh list
      · exact (list.tryChangedProposals_spec _).mono fun _ => RenamesOrRefuses.sources
  | clearName => exact .performed fun _ _ => changedProposals_sources
  | deleteFrontRange start finish =>
      refine .performed fun a list' h => ?_
      unfold deleteFrontRangeChanged at h
      split at h
      · cases h
        exact .refl fresh list
      · split at h
        · cases h
          exact .refl fresh list
        · obtain ⟨⟨rows, list''⟩, hchanged, heq⟩ := Option.bind_eq_some_iff.1 h
          cases heq
          exact changedProposals_sources hchanged
  | deleteLast count =>
      refine .performed fun a list' h => ?_
      unfold deleteLastChanged at h
      split at h
      · cases h
        exact .refl fresh list
      · exact changedProposals_sources h
  | deleteFirstDelimited start finish =>
      refine .performed fun a list' h => ?_
      unfold deleteFirstDelimitedChanged at h
      split at h
      · obtain ⟨⟨rows, list''⟩, hchanged, heq⟩ := Option.bind_eq_some_iff.1 h
        cases heq
        exact changedProposals_sources hchanged
      · cases h
        exact .refl fresh list
  | keepAsciiDigits => exact .performed fun _ _ => changedProposals_sources
  | padLastDigitRun width => exact .renaming (padDigitRunChanged_spec list width _)
  | padFirstDigitRun width => exact .renaming (padDigitRunChanged_spec list width _)
  | addSequence width start mode compareText =>
      exact .renaming (addSequenceByChanged_spec list width start mode compareText)
  | deleteExtension => exact .performed fun _ _ => changedProposals_sources
  | addExtension extension => exact .attempted (withNormalizedExtension_sources list extension _)
  | replaceExtension extension =>
      exact .attempted (withNormalizedExtension_sources list extension _)
  | prefixParentFolder => exact .renaming (list.tryChangedProposals_spec _)
  | suffixParentFolder => exact .renaming (list.tryChangedProposals_spec _)
  | unifyDestinationParent parent =>
      exact .attempted (unifyDestinationParentChanged_sources list parent)
  | resetDestinationParents => exact .attempted (resetDestinationParents_sources list)
  | sort mode semantics compareText =>
      obtain ⟨outcome, items, hperm, hsorted⟩ :=
        list.sortByWithSemanticsChanged_spec alg mode semantics compareText
      refine .performed fun a list' h => ?_
      cases hsorted.symm.trans h
      exact reordered_sources hperm
  | importNames text => exact .renaming (list.tryChangedProposalsOptional_spec _ _)

end

end DarkReNamer
