import DarkReNamer.Workbench.Command
import DarkReNamer.Workbench.Units
import Mathlib.Order.Nat

/-!
# Renaming rows

What the commands that change proposed names do to the rows and the totals. The transforms that
cannot fail shorten names or leave them as long as they are, whatever the stem of a name is.
The others stage their results: the staged rows are those whose name changes, each name is
within its budget, and the staged totals are those of the rows after the change.
-/

namespace DarkReNamer

open Interaction

/-! ### Transforms that cannot fail -/

section Shortening

variable (item : LegacyListItem)

theorem clearNameProposal_len_le : (clearNameProposal item).len ≤ item.proposedName.len :=
  (Nat.le_add_left _ _).trans (stemExtensionUnits_length_le item)

theorem deleteExtensionProposal_len_le :
    (deleteExtensionProposal item).len ≤ item.proposedName.len :=
  (Nat.le_add_right _ _).trans (stemExtensionUnits_length_le item)

/-- A shorter stem makes a shorter name. -/
theorem stem_append_extension_le {stem : List UInt16}
    (h : stem.length ≤ (stemExtensionUnits item).1.length) :
    (stem ++ (stemExtensionUnits item).2).length ≤ item.proposedName.len := by
  rw [List.length_append]
  exact (Nat.add_le_add_right h _).trans (stemExtensionUnits_length_le item)

theorem keepAsciiDigitsProposal_len_le :
    (keepAsciiDigitsProposal item).len ≤ item.proposedName.len :=
  stem_append_extension_le item (List.length_filter_le _ _)

theorem deleteLastProposal_len_le (count : ℕ) :
    (deleteLastProposal count item).len ≤ item.proposedName.len :=
  stem_append_extension_le item (List.length_take_le' _ _)

theorem deleteFrontRangeProposal_len_le (start finish : ℕ)
    (h : finish = 0 ∨ start ≤ finish) :
    (deleteFrontRangeProposal start finish item).len ≤ item.proposedName.len := by
  unfold deleteFrontRangeProposal LegacyText.len
  dsimp only
  split
  · refine stem_append_extension_le item ?_
    simp only [List.length_append, List.length_take, List.length_drop]
    split
    · omega
    · omega
  · exact stem_append_extension_le item le_rfl

theorem deleteFirstDelimitedProposal_len_le (start finish : UInt16) :
    (deleteFirstDelimitedProposal start finish item).len ≤ item.proposedName.len := by
  unfold deleteFirstDelimitedProposal LegacyText.len
  dsimp only
  split
  · exact stem_append_extension_le item le_rfl
  · split
    · exact stem_append_extension_le item le_rfl
    · refine stem_append_extension_le item ?_
      simp only [List.length_append, List.length_take, List.length_drop]
      omega

end Shortening

/-- The rows with the names that a transform proposes for them. -/
def renamed (proposal : LegacyListItem → LegacyText) (items : List LegacyListItem) :
    List LegacyListItem :=
  items.map fun item => { item with proposedName := proposal item }

theorem nameUnits_renamed_le {proposal : LegacyListItem → LegacyText}
    (h : ∀ item, (proposal item).len ≤ item.proposedName.len) (items : List LegacyListItem) :
    nameUnits (renamed proposal items) ≤ nameUnits items := by
  induction items with
  | nil => exact le_rfl
  | cons item items ih =>
      rw [renamed, List.map_cons, nameUnits_cons, nameUnits_cons]
      exact Nat.add_le_add (h item) ih

theorem pathUnits_renamed_le {proposal : LegacyListItem → LegacyText}
    (h : ∀ item, (proposal item).len ≤ item.proposedName.len) (items : List LegacyListItem) :
    pathUnits (renamed proposal items) ≤ pathUnits items := by
  have hle := nameUnits_renamed_le h items
  have hparents := (Renames.map items proposal).parentUnits
  rw [← renamed] at hparents
  rw [pathUnits_eq, pathUnits_eq]
  omega

namespace LegacyList

theorem changeRows_eq (proposal : LegacyListItem → LegacyText) (row : ℕ)
    (items : List LegacyListItem) (total : ℕ)
    (h : total + nameUnits (renamed proposal items) ≤ usizeMax) :
    changeRows proposal row items total =
      some (differFrom (·.proposedName) row items (renamed proposal items),
        renamed proposal items, total + nameUnits (renamed proposal items)) := by
  induction items generalizing row total with
  | nil => rfl
  | cons item items ih =>
      simp only [renamed, List.map_cons, nameUnits_cons] at h ih ⊢
      have hadd : checkedAdd usizeMax total (proposal item).len =
          some (total + (proposal item).len) := checkedAdd_eq_some.2 ⟨by omega, rfl⟩
      simp only [changeRows, hadd, Option.bind_eq_bind, Option.bind_some,
        ih (row + 1) (total + (proposal item).len) (by omega), differFrom, Nat.add_assoc]
      split
      · rfl
      · rename_i hsame
        simp only [ne_eq, Decidable.not_not] at hsame
        rw [← hsame]

/-- A transform that lengthens no name sets the totals to what they are afterwards. -/
theorem changedProposals_eq {list : LegacyList} (h : Tallied list)
    {proposal : LegacyListItem → LegacyText}
    (hshort : ∀ item, (proposal item).len ≤ item.proposedName.len) :
    list.changedProposals proposal =
      some (differingRows (·.proposedName) list.items (renamed proposal list.items),
        list.withItems (renamed proposal list.items)) := by
  have hle := nameUnits_renamed_le hshort list.items
  have hparents := (Renames.map list.items proposal).parentUnits
  have hpaths := pathUnits_eq list.items
  have hrenamed := pathUnits_eq (renamed proposal list.items)
  have hsub : checkedSub list.plannedPathUtf16Units
      (list.proposedNameUtf16Units - nameUnits (renamed proposal list.items)) =
        some (pathUnits (renamed proposal list.items)) := by
    rw [checkedSub_eq_some, h.names, h.paths]
    rw [← renamed] at hparents
    omega
  rw [changedProposals, changeRows_eq proposal 0 list.items 0
    (by rw [Nat.zero_add]; exact hle.trans h.nameUnits_le)]
  simp only [Option.bind_eq_bind, Option.bind_some, Nat.zero_add, hsub,
    differFrom_zero _ (show list.items.length = (renamed proposal list.items).length by
      simp [renamed]), withItems]

end LegacyList

/-! ### Transforms that may exceed a budget -/

section Staging

variable {σ : Type} (proposal : Proposal σ) (items : List LegacyListItem)

/-- What staging one row with the name `name` gives. -/
structure StagedRow (row : ℕ) (item : LegacyListItem) (units : StagedUnits) (name : LegacyText)
    (staged : Option StagedProposal) (units' : StagedUnits) : Prop where
  len_le : name.len ≤ maxProposedNameUtf16Units
  staged_eq : staged = if item.proposedName ≠ name then some ⟨row, name⟩ else none
  names_eq : units'.names = units.names + name.len
  paths_eq : units'.paths =
    units.paths + plannedPathUnits item.destinationParent.units name.len
  names_le : units'.names ≤ maxTotalProposedNameUtf16Units

theorem stages_stageProposal (s : σ) (row : ℕ) (item : LegacyListItem) (units : StagedUnits) :
    Stages (fun r => ∃ name, StagedRow row item units name r.1 r.2.2)
      (stageProposal proposal s items row item units) := by
  unfold stageProposal
  refine Tries.bind (stages_any _) ?_
  rintro ⟨next, s⟩ -
  obtain ⟨name, hname⟩ : ∃ name, name = next.getD item.proposedName := ⟨_, rfl⟩
  have hlen : next.elim item.proposedName.len LegacyText.len = name.len := by
    cases next with
    | none => simp [hname]
    | some next => simp [hname]
  have hstaged : (next.filter fun next => item.proposedName ≠ next) =
      if item.proposedName ≠ name then some name else none := by
    cases next with
    | none => simp [hname]
    | some next => simp [hname, Option.filter]
  simp only [hlen, hstaged]
  refine Tries.bind (Stages.ofExcept (q := fun _ => name.len ≤ maxProposedNameUtf16Units)
    fun ⟨⟩ h => validateProposalUnits_eq_ok.1 h) fun _ hname_le => ?_
  refine Tries.bind (Stages.okOr fun names h => checkedAdd_eq_some.1 h) ?_
  rintro names ⟨-, rfl⟩
  refine Stages.unless fun hnames => ?_
  refine Tries.bind (Stages.okOr fun units h => checkedPlannedPathUnits_eq_some h) ?_
  rintro _ rfl
  refine Tries.bind (Stages.okOr fun paths h => checkedAdd_eq_some.1 h) ?_
  rintro paths ⟨-, rfl⟩
  have hrow (staged : Option StagedProposal)
      (h : staged = if item.proposedName ≠ name then some ⟨row, name⟩ else none) :
      StagedRow row item units name staged ⟨units.names + name.len, units.paths +
        plannedPathUnits item.destinationParent.units name.len⟩ :=
    ⟨hname_le, h, rfl, rfl, Nat.not_lt.1 hnames⟩
  by_cases hsame : item.proposedName = name
  · rw [if_neg (not_not_intro hsame)]
    exact Tries.pure ⟨name, hrow none (by rw [if_neg (not_not_intro hsame)])⟩
  · rw [if_pos hsame]
    refine Tries.bind (stages_any _) fun _ _ => ?_
    exact Tries.pure ⟨name, hrow _ (by rw [if_pos hsame])⟩

/-- The rows from `row` on after staging them; what was staged writes them. -/
structure StagedRows (row : ℕ) (rest : List LegacyListItem) (units : StagedUnits)
    (after : List LegacyListItem) (staged : List StagedProposal) (units' : StagedUnits) :
    Prop where
  renames : Renames rest after
  len_le : ∀ item ∈ after, item.proposedName.len ≤ maxProposedNameUtf16Units
  names_eq : units'.names = units.names + nameUnits after
  paths_eq : units'.paths = units.paths + pathUnits after
  names_le : units.names ≤ maxTotalProposedNameUtf16Units →
    units'.names ≤ maxTotalProposedNameUtf16Units
  rows_eq : staged.map (·.row) = differFrom (·.proposedName) row rest after
  written : ∀ front : List LegacyListItem, front.length = row →
    staged.foldl writeProposal (front ++ rest) = front ++ after

variable {proposal items}

theorem writeProposal_append (front : List LegacyListItem) (item : LegacyListItem)
    (back : List LegacyListItem) (name : LegacyText) :
    writeProposal (front ++ item :: back) ⟨front.length, name⟩ =
      front ++ { item with proposedName := name } :: back := by
  induction front with
  | nil => rfl
  | cons first front ih => simpa [writeProposal] using ih

/-- One row staged in front of others. -/
theorem StagedRow.cons {row : ℕ} {item : LegacyListItem} {rest after : List LegacyListItem}
    {units units₁ units₂ : StagedUnits} {name : LegacyText} {staged : Option StagedProposal}
    {later : List StagedProposal} (h : StagedRow row item units name staged units₁)
    (hafter : StagedRows (row + 1) rest units₁ after later units₂) :
    StagedRows row (item :: rest) units ({ item with proposedName := name } :: after)
      (staged.toList ++ later) units₂ where
  renames := .cons rfl hafter.renames
  len_le := by
    intro item' hitem
    rcases List.mem_cons.1 hitem with rfl | hitem
    · exact h.len_le
    · exact hafter.len_le item' hitem
  names_eq := by
    rw [hafter.names_eq, h.names_eq, nameUnits_cons, Nat.add_assoc]
  paths_eq := by
    rw [hafter.paths_eq, h.paths_eq, pathUnits_cons, LegacyListItem.plannedPath_len,
      Nat.add_assoc]
  names_le := fun _ => hafter.names_le h.names_le
  rows_eq := by
    rw [differFrom, List.map_append, hafter.rows_eq, h.staged_eq]
    by_cases hsame : item.proposedName = name
    · simp [hsame]
    · simp [hsame]
  written := by
    intro front hfront
    have hwrite : staged.toList.foldl writeProposal (front ++ item :: rest) =
        front ++ { item with proposedName := name } :: rest := by
      rw [h.staged_eq]
      by_cases hsame : item.proposedName = name
      · simp [← hsame]
      · simpa [hsame, hfront] using writeProposal_append front item rest name
    have hrest := hafter.written (front ++ [{ item with proposedName := name }])
      (by simp [hfront])
    rw [List.foldl_append, hwrite]
    simpa using hrest

theorem stages_stageProposals (s : σ) (row : ℕ) (rest : List LegacyListItem)
    (units : StagedUnits) :
    Stages (fun r => ∃ after, StagedRows row rest units after r.1 r.2)
      (stageProposals proposal items s row rest units) := by
  induction rest generalizing s row units with
  | nil =>
      exact Tries.pure ⟨[], .nil, by simp, rfl, rfl, id, rfl, fun _ _ => rfl⟩
  | cons item rest ih =>
      rw [stageProposals]
      refine Tries.bind (stages_stageProposal proposal items s row item units) ?_
      rintro ⟨staged, s, units₁⟩ ⟨name, h⟩
      refine Tries.bind (ih s (row + 1) units₁) ?_
      rintro ⟨later, units₂⟩ ⟨after, hafter⟩
      exact Tries.pure ⟨_, h.cons hafter⟩

end Staging

/-- What a list whose rows have become `items` keeps of them: other names, within the budgets,
at the reported rows. -/
structure RenamedTo (list : LegacyList) (items : List LegacyListItem) (rows : List ℕ) :
    Prop where
  renames : Renames list.items items
  len_le : ∀ item ∈ items, item.proposedName.len ≤ maxProposedNameUtf16Units
  names_le : nameUnits items ≤ maxTotalProposedNameUtf16Units
  paths_le : pathUnits items ≤ maxTotalPlannedPathUtf16Units
  rows_eq : rows = differingRows (·.proposedName) list.items items

/-- A transform that cannot fail renames within the budgets of the list. -/
theorem RenamedTo.of_shorter {list : LegacyList} (h : list.Exact)
    {proposal : LegacyListItem → LegacyText}
    (hshort : ∀ item, (proposal item).len ≤ item.proposedName.len) :
    RenamedTo list (renamed proposal list.items)
      (differingRows (·.proposedName) list.items (renamed proposal list.items)) where
  renames := Renames.map _ _
  len_le := by
    intro item hitem
    obtain ⟨item', hitem', rfl⟩ := List.mem_map.1 hitem
    exact (hshort item').trans (h.name_le item' hitem')
  names_le := (nameUnits_renamed_le hshort _).trans (h.names ▸ h.names_le)
  paths_le := (pathUnits_renamed_le hshort _).trans (h.paths ▸ h.paths_le)
  rows_eq := rfl

theorem stages_stageChanges {σ : Type} (items : List LegacyListItem) (s : σ)
    (proposal : Proposal σ) :
    Stages (fun r => (∃ after, StagedRows 0 items ⟨0, 0⟩ after r.1 r.2) ∧
      r.2.paths ≤ maxTotalPlannedPathUtf16Units) (stageChanges items s proposal) := by
  unfold stageChanges
  refine Tries.bind (stages_stageProposals s 0 items ⟨0, 0⟩) ?_
  rintro ⟨staged, units⟩ hstaged
  refine Stages.unless fun hpaths => ?_
  refine Tries.bind (stages_any _) fun _ _ => ?_
  exact Tries.pure ⟨hstaged, Nat.not_lt.1 hpaths⟩

namespace LegacyList

/-- An error and an untouched list, or the reported rows renamed. -/
def RenamesOrRefuses (list : LegacyList)
    (r : Except ProposalMutationError (List ℕ) × LegacyList) : Prop :=
  match r.1 with
  | .error _ => r.2 = list
  | .ok rows => ∃ items, RenamedTo list items rows ∧ r.2 = list.withItems items

theorem tryChangedProposalsOptional_spec {σ : Type} (list : LegacyList) (s : σ)
    (proposal : Proposal σ) :
    Confined (fun _ => True) (RenamesOrRefuses list)
      (list.tryChangedProposalsOptional s proposal) := by
  unfold tryChangedProposalsOptional
  refine Confined.bind (stages_stageChanges list.items s proposal) fun r hr => ?_
  cases r with
  | error error => exact rfl
  | ok staged =>
      obtain ⟨⟨items, h⟩, hpaths⟩ := hr _ rfl
      have hnames : staged.2.names = nameUnits items := by simpa using h.names_eq
      have hpathUnits : staged.2.paths = pathUnits items := by simpa using h.paths_eq
      have hwritten : staged.1.foldl writeProposal list.items = items := by
        simpa using h.written [] rfl
      refine ⟨items, ⟨h.renames, h.len_le, ?_, ?_, ?_⟩, ?_⟩
      · rw [← hnames]
        exact h.names_le (Nat.zero_le _)
      · rwa [← hpathUnits]
      · rw [h.rows_eq, differFrom_zero _ h.renames.length_eq]
      · simp only [withItems, hnames, hpathUnits, hwritten]

theorem tryChangedProposals_spec (list : LegacyList)
    (proposal : ℕ → LegacyListItem → Staging ProposalMutationError LegacyText) :
    Confined (fun _ => True) (RenamesOrRefuses list) (list.tryChangedProposals proposal) :=
  list.tryChangedProposalsOptional_spec _ _

/-! ### One row -/

theorem manualUnits_eq_ok {list : LegacyList} {index : ℕ} {current : LegacyListItem}
    {name : LegacyText} {units : StagedUnits}
    (h : list.manualUnits index current name = .ok units) :
    name.len ≤ maxProposedNameUtf16Units ∧
      units.names = list.proposedNameUtf16Units - current.proposedName.len + name.len ∧
      units.paths = list.plannedPathUtf16Units -
        plannedPathUnits current.destinationParent.units current.proposedName.len +
          plannedPathUnits current.destinationParent.units name.len ∧
      units.names ≤ maxTotalProposedNameUtf16Units ∧
      units.paths ≤ maxTotalPlannedPathUtf16Units := by
  simp only [manualUnits, bind_eq_ok_iff, okOr_eq_ok_iff, unless_eq_ok_iff,
    Option.bind_eq_bind, Option.bind_eq_some_iff, checkedAdd_eq_some, checkedSub_eq_some] at h
  obtain ⟨⟨⟩, hname, names, ⟨_, ⟨-, rfl⟩, -, rfl⟩, hnames, current', hcurrent, next, hnext, paths,
    ⟨_, ⟨-, rfl⟩, -, rfl⟩, hpaths, hunits⟩ := h
  cases hunits
  rw [checkedPlannedPathUnits_eq_some hcurrent, checkedPlannedPathUnits_eq_some hnext] at *
  exact ⟨validateProposalUnits_eq_ok.1 hname, rfl, rfl, Nat.not_lt.1 hnames,
    Nat.not_lt.1 hpaths⟩

/-- A name set by hand is written into its row, within the budgets. -/
theorem setManualProposal_spec {list : LegacyList} (h : Tallied list) (index : ℕ)
    (name : LegacyText) :
    (list.setManualProposal index name).2 = list ∨
      ∃ isChanged front current back, list.items = front ++ current :: back ∧
        name.len ≤ maxProposedNameUtf16Units ∧
        nameUnits (front ++ { current with proposedName := name } :: back) ≤
          maxTotalProposedNameUtf16Units ∧
        pathUnits (front ++ { current with proposedName := name } :: back) ≤
          maxTotalPlannedPathUtf16Units ∧
        list.setManualProposal index name = (.ok (some isChanged),
          list.withItems (front ++ { current with proposedName := name } :: back)) := by
  unfold setManualProposal
  split
  · exact .inl rfl
  · rename_i current hcurrent
    split
    · exact .inl rfl
    · rename_i units hunits
      obtain ⟨hname, hnames, hpaths, hnames_le, hpaths_le⟩ := manualUnits_eq_ok hunits
      obtain ⟨front, back, hsplit, rfl⟩ := exists_split hcurrent
      have hwrite : writeProposal list.items ⟨front.length, name⟩ =
          front ++ { current with proposedName := name } :: back := by
        rw [hsplit, writeProposal_append]
      have hnameUnits : units.names =
          nameUnits (front ++ { current with proposedName := name } :: back) := by
        rw [hnames, h.names, hsplit]
        simp only [nameUnits_append, nameUnits_cons]
        omega
      have hpathUnits : units.paths =
          pathUnits (front ++ { current with proposedName := name } :: back) := by
        rw [hpaths, h.paths, hsplit]
        simp only [pathUnits_append, pathUnits_cons, LegacyListItem.plannedPath_len]
        omega
      refine .inr ⟨current.proposedName != name, front, current, back, hsplit, hname,
        hnameUnits ▸ hnames_le, hpathUnits ▸ hpaths_le, ?_⟩
      rw [hwrite, hnameUnits, hpathUnits]
      rfl

end LegacyList

end DarkReNamer
