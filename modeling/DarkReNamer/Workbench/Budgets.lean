import DarkReNamer.Workbench.Allocation
import DarkReNamer.Workbench.Renaming
import DarkReNamer.Workbench.Totals

/-!
# Changes within the budgets

A staged change of names is refused for its budgets alone. When the proposals of the rows are
the names `names`, staging them returns if and only if the rows with these names keep all
budgets, and the list that it leaves then has these rows; the checks on the way, which see one
row and the totals so far, refuse nothing that would have been within the budgets at the end.
-/

namespace DarkReNamer

open Interaction

/-! ### Deciding a condition -/

/-- A result that is a value in `ok` exactly when `fits` holds. -/
def Decides {ε α : Type} (fits : Prop) (ok : α → Prop) : Except ε α → Prop
  | .ok a => fits ∧ ok a
  | .error _ => ¬fits

section Decides

variable {ε α β : Type} {failed : ε} {fits fits' : Prop} {ok : α → Prop} {ok' : β → Prop}

theorem Decides.mono {r : Except ε α} {ok' : α → Prop} (h : Decides fits ok r)
    (hfits : fits ↔ fits') (hok : ∀ a, ok a → ok' a) : Decides fits' ok' r := by
  cases r with
  | error e => exact mt hfits.2 h
  | ok a => exact ⟨hfits.1 h.1, hok a h.2⟩

/-- Two conditions that are decided one after the other. -/
theorem Decides.bind {r : Except ε α} {f : α → Except ε β} (h : Decides fits ok r)
    (himp : fits' → fits) (hok : ∀ a, fits → ok a → Decides fits' ok' (f a)) :
    Decides fits' ok' (r >>= f) := by
  cases r with
  | error e => exact mt himp h
  | ok a => exact hok a h.1 h.2

theorem AllocatesOr.decides_bind {p : Staging ε α} {f : α → Staging ε β}
    (h : AllocatesOr failed (Decides fits ok) p) (himp : fits' → fits)
    (hok : ∀ a, fits → ok a → AllocatesOr failed (Decides fits' ok') (f a)) :
    AllocatesOr failed (Decides fits' ok') (p >>= f) :=
  .bind h (fun a ha => hok a ha.1 ha.2) fun _ he hfits' => he (himp hfits')

/-- A condition checked without the allocator. -/
theorem AllocatesOr.decides_ofExcept {r : Except ε α} (h : Decides fits ok r) :
    AllocatesOr failed (Decides fits ok) (liftM r : Staging ε α) := .ofExcept h

/-- What is computed behind a check that throws. -/
theorem AllocatesOr.decides_unless {c : Prop} [Decidable c] {error : ε}
    {next : PUnit → Staging ε α} {p : Staging ε α} (himp : c → ¬fits)
    (h : ¬c → AllocatesOr failed (Decides fits ok) p) :
    AllocatesOr failed (Decides fits ok) (if c then throw error >>= next else p) := by
  split
  · next hc => exact himp hc
  · next hc => exact h hc

theorem decides_okOr {o : Option α} {error : ε} (h : ∀ a, o = some a → fits ∧ ok a)
    (hnone : o = none → ¬fits) : Decides fits ok (okOr error o) := by
  cases o with
  | none => exact hnone rfl
  | some a => exact h a rfl

end Decides

theorem decides_validateProposalUnits (row units : ℕ) :
    Decides (units ≤ maxProposedNameUtf16Units) (fun _ => True)
      (validateProposalUnits row units) := by
  unfold validateProposalUnits
  split
  · next h => exact Nat.not_le.2 h
  · next h => exact ⟨Nat.not_lt.1 h, trivial⟩

/-- Building a proposal within the budget, with everything granted. -/
theorem allocates_tryBuildProposal {row requestedUnits : ℕ} {units : List UInt16}
    (h : requestedUnits ≤ maxProposedNameUtf16Units) :
    AllocatesOr .allocationFailed (fun r => r = .ok ⟨units⟩)
      (tryBuildProposal row requestedUnits units) := by
  refine .bind (g := fun r => r = .ok ()) (.ofExcept (validateProposalUnits_eq_ok.2 h)) ?_
    (by rintro _ ⟨⟩)
  rintro _ -
  exact .reserving_bind (.pure rfl)

theorem decides_checkedAdd {ε : Type} {error : ε} (a b : ℕ) :
    Decides (a + b ≤ usizeMax) (· = a + b) (okOr error (checkedAdd usizeMax a b)) := by
  refine decides_okOr (fun c hc => ?_) fun hnone => ?_
  · exact checkedAdd_eq_some.1 hc
  · intro hle
    rw [checkedAdd, if_pos hle] at hnone
    cases hnone

theorem decides_checkedSum (parts : List ℕ) :
    Decides (parts.sum ≤ usizeMax) (· = parts.sum) (checkedSum parts) := by
  have hfrom (total : ℕ) (htotal : total ≤ usizeMax) : Decides (total + parts.sum ≤ usizeMax)
      (· = total + parts.sum) (parts.foldlM (fun total part =>
        okOr ProposalMutationError.arithmeticOverflow (checkedAdd usizeMax total part)) total) := by
    induction parts generalizing total with
    | nil => exact ⟨htotal, rfl⟩
    | cons part parts ih =>
        rw [List.foldlM_cons, List.sum_cons, ← Nat.add_assoc]
        refine (decides_checkedAdd total part).bind (fun h => by omega) ?_
        rintro _ hle rfl
        exact ih (total + part) hle
  have hzero := hfrom 0 (Nat.zero_le _)
  rw [Nat.zero_add] at hzero
  exact hzero

theorem decides_checkedPlannedPathUnits {ε : Type} {error : ε} (parent : List UInt16)
    (name : ℕ) : Decides (plannedPathUnits parent name ≤ usizeMax)
      (· = plannedPathUnits parent name) (okOr error (checkedPlannedPathUnits parent name)) := by
  refine decides_okOr (fun units hunits => ?_) fun hnone hle => ?_
  · have heq := checkedPlannedPathUnits_eq_some hunits
    simp only [checkedPlannedPathUnits, Option.bind_eq_bind, Option.bind_eq_some_iff,
      checkedAdd_eq_some] at hunits
    obtain ⟨_, ⟨-, rfl⟩, hle, -⟩ := hunits
    exact ⟨hle, heq⟩
  · unfold plannedPathUnits at hle
    rw [checkedPlannedPathUnits, checkedAdd, if_pos (by omega), Option.bind_eq_bind,
      Option.bind_some, checkedAdd, if_pos hle] at hnone
    cases hnone

/-! ### Rows with other names -/

/-- The rows with the given names. -/
def withNames (items : List LegacyListItem) (names : List LegacyText) : List LegacyListItem :=
  List.zipWith (fun item name => { item with proposedName := name }) items names

@[simp] theorem withNames_cons (item : LegacyListItem) (items : List LegacyListItem)
    (name : LegacyText) (names : List LegacyText) : withNames (item :: items) (name :: names) =
      { item with proposedName := name } :: withNames items names := rfl

theorem withNames_map (items : List LegacyListItem) (proposal : LegacyListItem → LegacyText) :
    withNames items (items.map proposal) = renamed proposal items := by
  rw [withNames, List.zipWith_map_right, List.zipWith_self, renamed]

/-- The budgets of the rows of a list. -/
structure WithinBudgets (items : List LegacyListItem) : Prop where
  name_le : ∀ item ∈ items, item.proposedName.len ≤ maxProposedNameUtf16Units
  names_le : nameUnits items ≤ maxTotalProposedNameUtf16Units
  paths_le : pathUnits items ≤ maxTotalPlannedPathUtf16Units

/-- What staging checks of rows before it has seen them all, `units` being the totals in front
of them. -/
structure Countable (units : StagedUnits) (items : List LegacyListItem) : Prop where
  name_le : ∀ item ∈ items, item.proposedName.len ≤ maxProposedNameUtf16Units
  names_le : units.names + nameUnits items ≤ maxTotalProposedNameUtf16Units
  paths_le : units.paths + pathUnits items ≤ usizeMax

/-! ### Staging -/

section Staging

variable {σ : Type} {proposal : Proposal σ} {items : List LegacyListItem}

/-- The proposal of a row is a name, unless it is refused because the name is too long. -/
def Names (item : LegacyListItem) (name : LegacyText) (s' : σ) :
    Except ProposalMutationError (Option LegacyText × σ) → Prop
  | .ok r => r.1.getD item.proposedName = name ∧ r.2 = s'
  | .error _ => maxProposedNameUtf16Units < name.len

/-- The proposals of the rows from `row` on are these names. -/
def Proposes (proposal : Proposal σ) (items : List LegacyListItem) :
    σ → ℕ → List LegacyListItem → List LegacyText → Prop
  | _, _, [], [] => True
  | s, row, item :: rest, name :: names => ∃ s',
      AllocatesOr .allocationFailed (Names item name s') (proposal s items row item) ∧
        Proposes proposal items s' (row + 1) rest names
  | _, _, _, _ => False

/-- A proposal that is always made, unless its name is too long. -/
def Builds (name : LegacyText) : Except ProposalMutationError LegacyText → Prop
  | .ok text => text = name
  | .error _ => maxProposedNameUtf16Units < name.len

theorem allocates_tryBuildProposal_builds (row : ℕ) (units : List UInt16) :
    AllocatesOr .allocationFailed (Builds ⟨units⟩) (tryBuildProposal row units.length units) := by
  by_cases hlong : units.length ≤ maxProposedNameUtf16Units
  · refine Allocates.mono (allocates_tryBuildProposal hlong) ?_
    rintro _ rfl
    exact rfl
  · refine .bind (g := fun r => ∃ e, r = .error e) (.ofExcept ?_) (by rintro _ ⟨_, ⟨⟩⟩)
      fun _ _ => Nat.not_le.1 hlong
    exact ⟨_, if_pos (Nat.not_le.1 hlong)⟩

/-- Parts put together, with their lengths summed first. -/
theorem allocates_sumAndBuild (row : ℕ) {parts : List ℕ} {units : List UInt16}
    (h : parts.sum = units.length) :
    AllocatesOr .allocationFailed (Builds ⟨units⟩) (do
      let requestedUnits ← checkedSum parts
      tryBuildProposal row requestedUnits units) := by
  have hbudget : maxProposedNameUtf16Units ≤ usizeMax := by decide
  have hsum := decides_checkedSum parts
  rw [h] at hsum
  refine .bind (.ofExcept hsum) ?_ fun _ hlong =>
    Nat.lt_of_le_of_lt hbudget (Nat.not_le.1 hlong)
  rintro _ ⟨-, rfl⟩
  exact allocates_tryBuildProposal_builds row units

/-- One name for each row, whatever is carried along. -/
theorem proposes_map {s : σ} {name : LegacyListItem → LegacyText}
    (h : ∀ row item, AllocatesOr .allocationFailed (Names item (name item) s)
      (proposal s items row item)) (row : ℕ) (rest : List LegacyListItem) :
    Proposes proposal items s row rest (rest.map name) := by
  induction rest generalizing row with
  | nil => trivial
  | cons item rest ih => exact ⟨s, h row item, ih (row + 1)⟩

theorem allocates_stageProposal {s s' : σ} {row : ℕ} {item : LegacyListItem}
    {name : LegacyText} (units : StagedUnits)
    (h : AllocatesOr .allocationFailed (Names item name s') (proposal s items row item)) :
    AllocatesOr .allocationFailed
      (Decides (name.len ≤ maxProposedNameUtf16Units ∧
          units.names + name.len ≤ maxTotalProposedNameUtf16Units ∧
          units.paths + plannedPathUnits item.destinationParent.units name.len ≤ usizeMax)
        fun r => r.2.1 = s' ∧ StagedRow row item units name r.1 r.2.2)
      (stageProposal proposal s items row item units) := by
  unfold stageProposal
  refine .bind h ?_ fun _ (hlong : _ < _) hfits => Nat.not_le.2 hlong hfits.1
  rintro ⟨next, s'⟩ ⟨rfl, rfl⟩
  obtain ⟨name, hname⟩ : ∃ name, name = next.getD item.proposedName := ⟨_, rfl⟩
  have hlen : next.elim item.proposedName.len LegacyText.len = name.len := by
    cases next with
    | none => simp [hname]
    | some next => simp [hname]
  have hstaged : (next.filter fun next => item.proposedName ≠ next) =
      if item.proposedName ≠ name then some name else none := by
    cases next with
    | none => simp [hname]
    | some next => simp [hname, Option.filter]
  simp only [hlen, hstaged]
  rw [← hname]
  refine .decides_bind (.decides_ofExcept (decides_validateProposalUnits row name.len))
    (fun h => h.1) fun _ hname_le _ => ?_
  have hbudget : maxTotalProposedNameUtf16Units ≤ usizeMax := by decide
  refine .decides_bind (.decides_ofExcept (decides_checkedAdd units.names name.len))
    (fun h => h.2.1.trans hbudget) ?_
  rintro _ - rfl
  refine .decides_unless (fun hnames h => Nat.not_le.2 hnames h.2.1) fun hnames => ?_
  refine .decides_bind (.decides_ofExcept
    (decides_checkedPlannedPathUnits item.destinationParent.units name.len))
    (fun h => (Nat.le_add_left _ _).trans h.2.2) ?_
  rintro _ - rfl
  refine .decides_bind (.decides_ofExcept (decides_checkedAdd units.paths _))
    (fun h => h.2.2) ?_
  rintro _ hpaths rfl
  have hrow (staged : Option StagedProposal)
      (h : staged = if item.proposedName ≠ name then some ⟨row, name⟩ else none) :
      StagedRow row item units name staged ⟨units.names + name.len, units.paths +
        plannedPathUnits item.destinationParent.units name.len⟩ :=
    ⟨hname_le, h, rfl, rfl, Nat.not_lt.1 hnames⟩
  have hfits := And.intro hname_le (And.intro (Nat.not_lt.1 hnames) hpaths)
  by_cases hsame : item.proposedName = name
  · rw [if_neg (not_not_intro hsame)]
    exact .pure ⟨hfits, rfl, hrow none (by rw [if_neg (not_not_intro hsame)])⟩
  · rw [if_pos hsame]
    exact .reserving_bind (.pure ⟨hfits, rfl, hrow _ (by rw [if_pos hsame])⟩)

theorem allocates_stageProposals {s : σ} {row : ℕ} {rest : List LegacyListItem}
    {names : List LegacyText} (units : StagedUnits)
    (hnames : units.names ≤ maxTotalProposedNameUtf16Units) (hpaths : units.paths ≤ usizeMax)
    (h : Proposes proposal items s row rest names) :
    AllocatesOr .allocationFailed
      (Decides (Countable units (withNames rest names)) fun r =>
        StagedRows row rest units (withNames rest names) r.1 r.2)
      (stageProposals proposal items s row rest units) := by
  induction rest generalizing s row names units with
  | nil =>
      cases names with
      | nil => exact .pure ⟨⟨by simp [withNames], hnames, hpaths⟩,
          ⟨.nil, by simp [withNames], rfl, rfl, id, rfl, fun _ _ => rfl⟩⟩
      | cons name names => exact h.elim
  | cons item rest ih =>
      cases names with
      | nil => exact h.elim
      | cons name names =>
          obtain ⟨s', hitem, hrest⟩ := h
          have hcount : Countable units (withNames (item :: rest) (name :: names)) ↔
              (name.len ≤ maxProposedNameUtf16Units ∧
                units.names + name.len ≤ maxTotalProposedNameUtf16Units ∧
                units.paths + plannedPathUnits item.destinationParent.units name.len ≤
                  usizeMax) ∧
              Countable ⟨units.names + name.len, units.paths +
                plannedPathUnits item.destinationParent.units name.len⟩
                (withNames rest names) := by
            constructor
            · rintro ⟨hname_le, hnames_le, hpaths_le⟩
              rw [withNames_cons, nameUnits_cons] at hnames_le
              rw [withNames_cons, pathUnits_cons, LegacyListItem.plannedPath_len] at hpaths_le
              rw [withNames_cons, List.forall_mem_cons] at hname_le
              dsimp only at hnames_le hpaths_le
              exact ⟨⟨hname_le.1, by omega, by omega⟩, hname_le.2, by dsimp only; omega,
                by dsimp only; omega⟩
            · rintro ⟨⟨hlen, -, -⟩, hname_le, hnames_le, hpaths_le⟩
              dsimp only at hnames_le hpaths_le
              refine ⟨?_, ?_, ?_⟩
              · rw [withNames_cons, List.forall_mem_cons]
                exact ⟨hlen, hname_le⟩
              · rw [withNames_cons, nameUnits_cons]
                dsimp only
                omega
              · rw [withNames_cons, pathUnits_cons, LegacyListItem.plannedPath_len]
                dsimp only
                omega
          rw [stageProposals]
          refine .decides_bind (allocates_stageProposal units hitem) (fun h => (hcount.1 h).1) ?_
          rintro ⟨staged, s₁, units₁⟩ hfits ⟨rfl, hrow⟩
          obtain rfl : units₁ = ⟨units.names + name.len, units.paths +
              plannedPathUnits item.destinationParent.units name.len⟩ := by
            rw [← hrow.names_eq, ← hrow.paths_eq]
          refine .decides_bind (ih _ hfits.2.1 hfits.2.2 hrest) (fun h => (hcount.1 h).2) ?_
          rintro ⟨later, units₂⟩ hcountable hafter
          exact .pure ⟨hcount.2 ⟨hfits, hcountable⟩, hrow.cons hafter⟩

theorem allocates_stageChanges {s : σ} {names : List LegacyText}
    (h : Proposes proposal items s 0 items names) :
    AllocatesOr .allocationFailed
      (Decides (WithinBudgets (withNames items names)) fun r =>
        StagedRows 0 items ⟨0, 0⟩ (withNames items names) r.1 r.2)
      (stageChanges items s proposal) := by
  have hbudget : maxTotalPlannedPathUtf16Units ≤ usizeMax := by decide
  unfold stageChanges
  refine .decides_bind (allocates_stageProposals ⟨0, 0⟩ (Nat.zero_le _) (Nat.zero_le _) h) ?_ ?_
  · rintro ⟨hname_le, hnames_le, hpaths_le⟩
    exact ⟨hname_le, by simpa using hnames_le, by simpa using hpaths_le.trans hbudget⟩
  · rintro ⟨staged, units⟩ hcountable hstaged
    have hpaths : units.paths = pathUnits (withNames items names) := by
      simpa using hstaged.paths_eq
    refine .decides_unless (fun hover h => ?_) fun hunder => ?_
    · rw [gt_iff_lt, hpaths] at hover
      exact Nat.not_le.2 hover h.paths_le
    · rw [Nat.not_lt, hpaths] at hunder
      exact .reserving_bind (.pure ⟨⟨hcountable.name_le, by simpa using hcountable.names_le,
        hunder⟩, hstaged⟩)

end Staging

namespace LegacyList

/-- A change to names that the budgets allow is made; any other is refused, and then, as when a
reservation is, the list is left alone. -/
theorem tryChangedProposalsOptional_allocates {σ : Type} {list : LegacyList} {s : σ}
    {proposal : Proposal σ} {names : List LegacyText}
    (h : Proposes proposal list.items s 0 list.items names) :
    Allocates
      (fun r => Decides (WithinBudgets (withNames list.items names))
          (· = differingRows (·.proposedName) list.items (withNames list.items names)) r.1 ∧
        r.2 = if r.1.isOk then list.withItems (withNames list.items names) else list)
      (fun r => r = (.error .allocationFailed, list))
      (list.tryChangedProposalsOptional s proposal) := by
  unfold tryChangedProposalsOptional
  refine Allocates.bind (allocates_stageChanges h) (fun r hr => ?_) ?_
  · cases r with
    | error error => exact ⟨hr, rfl⟩
    | ok staged =>
        obtain ⟨hfits, hstaged⟩ := hr
        have hnames : staged.2.names = nameUnits (withNames list.items names) := by
          simpa using hstaged.names_eq
        have hpaths : staged.2.paths = pathUnits (withNames list.items names) := by
          simpa using hstaged.paths_eq
        have hwritten : staged.1.foldl writeProposal list.items =
            withNames list.items names := by
          simpa using hstaged.written [] rfl
        refine ⟨⟨hfits, ?_⟩, ?_⟩
        · rw [hstaged.rows_eq, differFrom_zero _ hstaged.renames.length_eq]
        · rw [hwritten, hnames, hpaths]
          rfl
  · rintro r rfl
    exact rfl

/-- The same for proposals that are always made. -/
theorem tryChangedProposals_allocates {list : LegacyList}
    {proposal : ℕ → LegacyListItem → Staging ProposalMutationError LegacyText}
    {name : LegacyListItem → LegacyText}
    (h : ∀ row item, AllocatesOr .allocationFailed (Builds (name item)) (proposal row item)) :
    Allocates
      (fun r => Decides (WithinBudgets (renamed name list.items))
          (· = differingRows (·.proposedName) list.items (renamed name list.items)) r.1 ∧
        r.2 = if r.1.isOk then list.withItems (renamed name list.items) else list)
      (fun r => r = (.error .allocationFailed, list))
      (list.tryChangedProposals proposal) := by
  rw [← withNames_map]
  refine tryChangedProposalsOptional_allocates (proposes_map (fun row item => ?_) _ _)
  refine .bind (h row item) ?_ fun _ hlong => hlong
  rintro text rfl
  exact .pure ⟨rfl, rfl⟩

end LegacyList

/-! ### Runs -/

/-- No reservation of a run was refused. -/
def Grants (trace : List (Event Reservation Granted)) : Prop :=
  ∀ event ∈ trace, event.answer = true

theorem Allocates.of_runs {α : Type} {granted refused : α → Prop}
    {p : Program Reservation Granted α} (h : Allocates granted refused p)
    {trace : List (Event Reservation Granted)} {a : α}
    (run : Runs allocator p () trace (some a) ()) :
    Grants trace ∧ granted a ∨ ¬Grants trace ∧ refused a := by
  induction p generalizing trace with
  | pure b =>
      cases run
      exact .inl ⟨by simp [Grants], h⟩
  | request c next ih =>
      cases run with
      | @call _ _ _ _ _ answer trace _ _ rest =>
          cases answer with
          | true =>
              have hgrants : Grants (⟨c, true⟩ :: trace) ↔ Grants trace := by
                simp [Grants]
              rw [hgrants]
              exact ih true h.1 rest
          | false => exact .inr ⟨by simp [Grants], Confined.of_runs h.2 rest⟩

end DarkReNamer
