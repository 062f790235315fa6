import DarkReNamer.Workbench.Effect

/-!
# Exact totals

The totals of a list that was built by its public operations are the exact sums over its rows
and stay within their budgets, whatever the allocator refuses on the way. So no operation
leaves `usize`, and none that fails has changed a row.
-/

namespace DarkReNamer

open Interaction LegacyList

/-! ### Appending -/

theorem appendedUnits_eq_ok {length row : ℕ} {rows : List LegacyListItem}
    {units units' : StagedUnits} (h : appendedUnits length row rows units = .ok units') :
    (∀ item ∈ rows, item.proposedName.len ≤ maxProposedNameUtf16Units) ∧
      units'.names = units.names + nameUnits rows ∧
      units'.paths = units.paths + pathUnits rows := by
  induction rows generalizing row units with
  | nil =>
      cases h
      exact ⟨by simp, rfl, rfl⟩
  | cons item rows ih =>
      simp only [appendedUnits, bind_eq_ok_iff, okOr_eq_ok_iff, checkedAdd_eq_some] at h
      obtain ⟨_, -, ⟨⟩, hname, _, ⟨-, rfl⟩, itemUnits, hitem, _, ⟨-, rfl⟩, hrest⟩ := h
      obtain ⟨hnames_le, hnames, hpaths⟩ := ih hrest
      refine ⟨?_, ?_, ?_⟩
      · intro item' hitem'
        rcases List.mem_cons.1 hitem' with rfl | hitem'
        · exact validateProposalUnits_eq_ok.1 hname
        · exact hnames_le item' hitem'
      · rw [hnames, nameUnits_cons, Nat.add_assoc]
      · rw [hpaths, pathUnits_cons, checkedPlannedPathUnits_eq_some hitem,
          LegacyListItem.plannedPath_len, Nat.add_assoc]

/-- Rows that may be appended, and the totals after them. -/
structure Appendable (list : LegacyList) (rows : List LegacyListItem) (units : StagedUnits) :
    Prop where
  name_le : ∀ item ∈ rows, item.proposedName.len ≤ maxProposedNameUtf16Units
  names_eq : units.names = nameUnits (list.items ++ rows)
  paths_eq : units.paths = pathUnits (list.items ++ rows)
  names_le : units.names ≤ maxTotalProposedNameUtf16Units
  paths_le : units.paths ≤ maxTotalPlannedPathUtf16Units

theorem validateAppend_eq_ok {list : LegacyList} (h : list.Tallied) {rows : List LegacyListItem}
    {units : StagedUnits} (hok : validateAppend list rows = .ok units) :
    Appendable list rows units := by
  simp only [validateAppend, bind_eq_ok_iff, unless_eq_ok_iff] at hok
  obtain ⟨_, happended, hnames, hpaths, ⟨⟩⟩ := hok
  obtain ⟨hname_le, hnames_eq, hpaths_eq⟩ := appendedUnits_eq_ok happended
  exact
    { name_le := hname_le
      names_eq := by rw [hnames_eq, h.names, nameUnits_append]
      paths_eq := by rw [hpaths_eq, h.paths, pathUnits_append]
      names_le := Nat.not_lt.1 hnames
      paths_le := Nat.not_lt.1 hpaths }

section Append

variable (alg : Slices.Algorithms) (compareText : LegacyText → LegacyText → Ordering)

theorem stages_stageAppend {list : LegacyList} (h : list.Tallied) (index : LegacyAppendIndex)
    (items : List LegacyListItem) :
    Stages (fun r => ∀ staged, r.2 = some staged →
      Appendable list (staged.accepted.map (·.2)) staged.units)
      (stageAppend alg compareText index items list) := by
  unfold stageAppend
  refine Tries.bind (stages_any _) fun rebuilt _ => ?_
  refine Tries.bind (stages_any _) fun accepted _ => ?_
  split
  · exact Tries.pure fun staged hstaged => by cases hstaged
  · refine Tries.bind (Stages.ofExcept fun units hunits => validateAppend_eq_ok h hunits) ?_
    intro units hunits
    refine Tries.bind (stages_any _) fun _ _ => ?_
    refine Tries.bind (stages_any _) fun _ _ => ?_
    refine Tries.bind (stages_any _) fun _ _ => ?_
    exact Tries.pure fun staged hstaged => by
      cases hstaged
      exact hunits

/-- What an append leaves of the list: a failed one leaves it as it was. -/
def AppendEffect (fresh : ℕ) (list : LegacyList) (appended : Appended) : Prop :=
  match appended.result with
  | .error _ => appended.list = list
  | .ok _ => appended.list = list ∨ ∃ rows units, Appendable list rows units ∧
      appended.list = (list.withItems (list.items ++ rows)).invalidateSourceIndex fresh

theorem withItems_invalidate (list : LegacyList) (fresh : ℕ) (items : List LegacyListItem) :
    (list.withItems items).invalidateSourceIndex fresh =
      { list.invalidateSourceIndex fresh with
        items := items
        proposedNameUtf16Units := nameUnits items
        plannedPathUtf16Units := pathUnits items } := by
  unfold invalidateSourceIndex
  split <;> simp_all [withItems]

theorem commitAppend_effect (fresh : ℕ) {list : LegacyList} (index : LegacyAppendIndex)
    {staged : StagedAppend}
    (happend : Appendable list (staged.accepted.map (·.2)) staged.units) :
    Confined (fun _ => True) (AppendEffect fresh list)
      (commitAppend alg compareText fresh index staged list) := by
  unfold commitAppend
  refine Confined.bind (stages_any _) fun r _ => ?_
  cases r with
  | error error => exact rfl
  | ok chunks =>
      refine .inr ⟨_, _, happend, ?_⟩
      rw [withItems_invalidate, ← happend.names_eq, ← happend.paths_eq]

theorem appendBatchIndexed_effect (fresh : ℕ) {list : LegacyList} (h : list.Tallied)
    (index : LegacyAppendIndex) (items : List LegacyListItem) :
    Confined (fun _ => True) (AppendEffect fresh list)
      (appendBatchIndexed alg compareText fresh index items list) := by
  unfold appendBatchIndexed
  refine Confined.bind (stages_stageAppend alg compareText h index items) fun r hr => ?_
  cases r with
  | error error => exact rfl
  | ok result =>
      obtain ⟨rebuilt, staged⟩ := result
      cases rebuilt with
      | none =>
          cases staged with
          | none => exact .inl rfl
          | some staged =>
              exact commitAppend_effect alg compareText fresh index (hr _ rfl staged rfl)
      | some rebuilt =>
          cases staged with
          | none => exact .inl rfl
          | some staged =>
              exact commitAppend_effect alg compareText fresh index (hr _ rfl staged rfl)

end Append

/-! ### Lists built by their operations -/

/-- The allocator may grant or refuse any reservation. -/
def allocator : Environment Unit Reservation Granted := fun _ _ _ _ => True

theorem Confined.of_runs {α : Type} {post : α → Prop} {program : Program Reservation Granted α}
    (h : Confined (fun _ => True) post program) {trace : List (Event Reservation Granted)}
    {a : α} (run : Runs allocator program () trace (some a) ()) : post a :=
  ((h.spec (I := fun _ => True) (fun _ _ _ _ _ _ _ => trivial) trivial).sound run).2 a rfl |>.2

/-- The lists that the public operations build, starting from an empty one. -/
inductive Reached (alg : Slices.Algorithms) : LegacyList → Prop
  | new (fresh : ℕ) : Reached alg (new fresh)
  | clone {list : LegacyList} (past : Reached alg list) (fresh : ℕ) :
      Reached alg (list.clone fresh)
  | perform {list list' : LegacyList} {command : Command} {fresh : ℕ} {outcome : Outcome}
      {trace : List (Event Reservation Granted)} (past : Reached alg list)
      (admissible : command.Admissible list)
      (run : Runs allocator (command.perform alg fresh list) () trace
        (some (some (outcome, list'))) ()) : Reached alg list'
  | append {list : LegacyList} {compareText : LegacyText → LegacyText → Ordering} {fresh : ℕ}
      {index : LegacyAppendIndex} {items : List LegacyListItem} {appended : Appended}
      {trace : List (Event Reservation Granted)} (past : Reached alg list)
      (run : Runs allocator (appendBatchIndexed alg compareText fresh index items list) () trace
        (some appended) ()) : Reached alg appended.list

theorem Effect.exact {fresh : ℕ} {list list' : LegacyList} {outcome : Outcome}
    (h : list.Exact) (heffect : Effect fresh list outcome list') : list'.Exact := by
  have hnames := h.names ▸ h.names_le
  have hpaths := h.paths ▸ h.paths_le
  cases heffect with
  | refused => exact h
  | idle => exact h
  | reordered _ perm =>
      exact Exact.withItems (fun item hitem => h.name_le item (perm.mem_iff.1 hitem))
        (nameUnits_perm perm ▸ hnames) (pathUnits_perm perm ▸ hpaths)
  | renamed _ renames => exact Exact.withItems renames.len_le renames.names_le renames.paths_le
  | reparented paths_le =>
      refine Exact.withItems ?_ (by rwa [nameUnits_reparented]) paths_le
      intro item hitem
      obtain ⟨item', hitem', rfl⟩ := List.mem_map.1 hitem
      exact h.name_le item' hitem'
  | removed _ sublist =>
      exact (Exact.withItems (fun item hitem => h.name_le item (sublist.subset hitem))
        ((nameUnits_sublist sublist).trans hnames)
        ((pathUnits_sublist sublist).trans hpaths)).invalidate fresh
  | moved hitem clean =>
      obtain ⟨hname, hpath⟩ := clean.units_set hitem
      refine (Exact.withItems ?_ (hname ▸ hnames) (hpath ▸ hpaths)).invalidate fresh
      intro item' hitem'
      rcases List.mem_or_eq_of_mem_set hitem' with hmem | rfl
      · exact h.name_le item' hmem
      · rw [clean.proposedName]
        exact h.name_le _ (List.mem_of_getElem? hitem)

theorem Reached.exact {alg : Slices.Algorithms} {list : LegacyList} (h : Reached alg list) :
    list.Exact := by
  induction h with
  | new fresh => exact ⟨rfl, rfl, by simp [LegacyList.new], Nat.zero_le _, Nat.zero_le _⟩
  | clone past fresh ih => exact ⟨ih.names, ih.paths, ih.name_le, ih.names_le, ih.paths_le⟩
  | perform past admissible run ih =>
      obtain ⟨outcome, list', heq, heffect⟩ :=
        Confined.of_runs (perform_hasEffect alg _ ih admissible) run
      cases heq
      exact heffect.exact ih
  | @append list _ fresh _ _ appended _ past run ih =>
      have heffect := Confined.of_runs (appendBatchIndexed_effect alg _ fresh ih.tallied _ _) run
      unfold AppendEffect at heffect
      split at heffect
      · exact heffect ▸ ih
      · rcases heffect with hsame | ⟨rows, units, happend, hlist⟩
        · exact hsame ▸ ih
        · rw [hlist]
          refine (Exact.withItems ?_ (happend.names_eq ▸ happend.names_le)
            (happend.paths_eq ▸ happend.paths_le)).invalidate fresh
          intro item hitem
          rcases List.mem_append.1 hitem with hitem | hitem
          · exact ih.name_le item hitem
          · exact happend.name_le item hitem

/-! ### Outcomes -/

/-- The transforms that return no error of a budget: they never retain more text. -/
def Command.isInfallible : Command → Bool
  | .clearName | .deleteFrontRange _ _ | .deleteLast _ | .deleteFirstDelimited _ _
  | .keepAsciiDigits | .deleteExtension => true
  | _ => false

/-- No row's name is longer afterwards. -/
def Shortens (list list' : LegacyList) : Prop :=
  List.Forall₂ (fun item item' => item'.proposedName.len ≤ item.proposedName.len)
    list.items list'.items

theorem Shortens.refl (list : LegacyList) : Shortens list list :=
  List.forall₂_same.2 fun _ _ => le_rfl

theorem changedProposals_shortens {list list' : LegacyList} (h : list.Exact) {rows : List ℕ}
    {proposal : LegacyListItem → LegacyText}
    (hshort : ∀ item, (proposal item).len ≤ item.proposedName.len)
    (hchanged : list.changedProposals proposal = some (rows, list')) : Shortens list list' := by
  rw [changedProposals_eq h.tallied hshort] at hchanged
  cases hchanged
  rw [Shortens, withItems_items, renamed, List.forall₂_map_right_iff]
  exact List.forall₂_same.2 fun item _ => hshort item

theorem performed_run {α : Type} {outcome : α → Outcome} {result : Option (α × LegacyList)}
    {trace : List (Event Reservation Granted)} {o : Outcome} {list' : LegacyList}
    (run : Runs allocator (performed outcome result) () trace (some (some (o, list'))) ()) :
    ∃ a, result = some (a, list') ∧ o = outcome a := by
  have hconfined : Confined (fun _ => True)
      (fun r => r = result.map fun r => (outcome r.1, r.2)) (performed outcome result) := rfl
  have hmap := Confined.of_runs hconfined run
  obtain ⟨⟨a, list''⟩, hresult, heq⟩ := Option.map_eq_some_iff.1 hmap.symm
  cases heq
  exact ⟨a, hresult, rfl⟩

theorem perform_shortens (alg : Slices.Algorithms) (fresh : ℕ) {list list' : LegacyList}
    (h : list.Exact) {command : Command} (hinfallible : command.isInfallible = true)
    {trace : List (Event Reservation Granted)} {outcome : Outcome}
    (run : Runs allocator (command.perform alg fresh list) () trace
      (some (some (outcome, list'))) ()) : Shortens list list' := by
  cases command with
  | clearName =>
      obtain ⟨rows, hresult, -⟩ := performed_run run
      exact changedProposals_shortens h clearNameProposal_len_le hresult
  | keepAsciiDigits =>
      obtain ⟨rows, hresult, -⟩ := performed_run run
      exact changedProposals_shortens h keepAsciiDigitsProposal_len_le hresult
  | deleteExtension =>
      obtain ⟨rows, hresult, -⟩ := performed_run run
      exact changedProposals_shortens h deleteExtensionProposal_len_le hresult
  | deleteLast count =>
      obtain ⟨rows, hresult, -⟩ := performed_run run
      unfold deleteLastChanged at hresult
      split at hresult
      · cases hresult
        exact .refl list
      · exact changedProposals_shortens h (fun item => deleteLastProposal_len_le item count)
          hresult
  | deleteFrontRange start finish =>
      obtain ⟨result, hresult, -⟩ := performed_run run
      unfold deleteFrontRangeChanged at hresult
      split at hresult
      · cases hresult
        exact .refl list
      · split at hresult
        · cases hresult
          exact .refl list
        · obtain ⟨⟨rows, list''⟩, hchanged, heq⟩ := Option.bind_eq_some_iff.1 hresult
          cases heq
          exact changedProposals_shortens h
            (fun item => deleteFrontRangeProposal_len_le item _ _ (by omega)) hchanged
  | deleteFirstDelimited start finish =>
      obtain ⟨result, hresult, -⟩ := performed_run run
      unfold deleteFirstDelimitedChanged at hresult
      split at hresult
      · obtain ⟨⟨rows, list''⟩, hchanged, heq⟩ := Option.bind_eq_some_iff.1 hresult
        cases heq
        exact changedProposals_shortens h
          (fun item => deleteFirstDelimitedProposal_len_le item _ _) hchanged
      · cases hresult
        exact .refl list
  | _ => cases hinfallible

/-- The reported rows are those at which the list has changed. -/
def Outcome.ReportsExactly (list list' : LegacyList) : Outcome → Prop
  | .changedProposals rows => rows = differingRows (·.proposedName) list.items list'.items
  | .changedParents rows => rows = differingRows (·.destinationParent) list.items list'.items
  | _ => True

theorem Outcome.isPlain_reports (list list' : LegacyList) {outcome : Outcome}
    (h : outcome.isPlain = true) :
    outcome.ReportsExactly list list' ∧ outcome.isError = false := by
  cases outcome with
  | changed | count | moved => exact ⟨trivial, rfl⟩
  | changedProposals | changedParents | invalidInput | proposalError | parentError => cases h

theorem Effect.reports {fresh : ℕ} {list list' : LegacyList} {outcome : Outcome}
    (heffect : Effect fresh list outcome list') :
    outcome.ReportsExactly list list' ∧ (outcome.isError = true → list' = list) := by
  have hplain {list'' : LegacyList} (h : outcome.isPlain = true) :
      outcome.ReportsExactly list list'' ∧ (outcome.isError = true → list'' = list) :=
    ⟨(Outcome.isPlain_reports _ _ h).1, fun herror => by
      rw [(Outcome.isPlain_reports list list h).2] at herror
      cases herror⟩
  cases heffect with
  | refused herror =>
      refine ⟨?_, fun _ => rfl⟩
      cases outcome with
      | invalidInput | proposalError | parentError => trivial
      | changed | count | moved | changedProposals | changedParents => cases herror
  | idle h =>
      rcases h with h | rfl
      · exact ⟨(hplain h).1, fun _ => rfl⟩
      · refine ⟨?_, fun _ => rfl⟩
        rw [Outcome.ReportsExactly, ← differFrom_zero _ rfl, differFrom_self]
  | reordered h _ => exact hplain h
  | renamed h renames =>
      rcases h with h | rfl
      · exact hplain h
      · exact ⟨renames.rows_eq, fun herror => by cases herror⟩
  | reparented _ => exact ⟨rfl, fun herror => by cases herror⟩
  | removed h _ => exact hplain h
  | moved _ _ => exact hplain rfl

/-- In every list that the public operations build, both totals are the exact sums over its rows
and within their budgets. From there every operation stays inside `usize` and the rows, changes
nothing when it fails, and reports exactly the rows it changed; the transforms that cannot fail
lengthen no name. -/
theorem reached_totals {alg : Slices.Algorithms} {list : LegacyList} (h : Reached alg list) :
    (list.proposedNameUtf16Units = nameUnits list.items ∧
      list.plannedPathUtf16Units = pathUnits list.items ∧
      (∀ item ∈ list.items, item.proposedName.len ≤ 255) ∧
      list.proposedNameUtf16Units ≤ 2 * 1024 * 1024 ∧
      list.plannedPathUtf16Units ≤ 2 * 1024 * 1024) ∧
    (∀ (fresh : ℕ) (command : Command), command.Admissible list →
      ∀ trace r, Runs allocator (command.perform alg fresh list) () trace (some r) () →
        ∃ outcome list', r = some (outcome, list') ∧
          (outcome.isError = true → list' = list) ∧ outcome.ReportsExactly list list' ∧
          (command.isInfallible = true → Shortens list list')) ∧
    (∀ (compareText : LegacyText → LegacyText → Ordering) (fresh : ℕ) (index : LegacyAppendIndex)
      (items : List LegacyListItem) (trace : List (Event Reservation Granted))
      (appended : Appended) (error : ProposalMutationError),
      Runs allocator (appendBatchIndexed alg compareText fresh index items list) () trace
        (some appended) () → appended.result = .error error → appended.list = list) := by
  have hexact := h.exact
  refine ⟨⟨hexact.names, hexact.paths, hexact.name_le, hexact.names_le, hexact.paths_le⟩,
    ?_, ?_⟩
  · intro fresh command hadmissible trace r run
    obtain ⟨outcome, list', rfl, heffect⟩ :=
      Confined.of_runs (perform_hasEffect alg fresh hexact hadmissible) run
    exact ⟨outcome, list', rfl, heffect.reports.2, heffect.reports.1,
      fun hinfallible => perform_shortens alg fresh hexact hinfallible run⟩
  · intro compareText fresh index items trace appended error run herror
    have heffect :=
      Confined.of_runs
        (appendBatchIndexed_effect alg compareText fresh hexact.tallied index items) run
    rwa [AppendEffect, herror] at heffect

/-- A file appended, with every reservation granted. -/
def appendFile (fresh : ℕ) (path : LegacyText) (past : Appended) : Appended :=
  ((appendBatchIndexed .reference compareUnits fresh past.index
    [.newWithActualSize path false 0 0 0 0] past.list).run (fun _ _ => (true, ())) ()).1

theorem reached_appendFile {fresh : ℕ} {path : LegacyText} {past : Appended}
    (h : Reached .reference past.list) : Reached .reference (appendFile fresh path past).list :=
  .append h (Runs.of_run (fun _ _ => trivial) _ _)

/-- Three files appended to an empty list, one after the other. -/
def threeFiles : Appended :=
  appendFile 3 (.ofAscii "C:\\c.txt") (appendFile 2 (.ofAscii "C:\\b.txt")
    (appendFile 1 (.ofAscii "C:\\a.txt") ⟨.ok 0, .new, .new 0⟩))

theorem reached_threeFiles : Reached .reference threeFiles.list :=
  reached_appendFile (reached_appendFile (reached_appendFile (.new 0)))

/-- The second of them is to get a longer name. -/
def longerName : Command := .replaceComplete (.ofAscii "b") (.ofAscii "long")

def renamedFiles : Option (Outcome × LegacyList) :=
  ((longerName.perform .reference 4 threeFiles.list).run (fun _ _ => (true, ())) ()).1

theorem runs_renamedFiles : ∃ trace, Runs allocator
    (longerName.perform .reference 4 threeFiles.list) () trace (some renamedFiles) () :=
  ⟨_, Runs.of_run (fun _ _ => trivial) _ _⟩

theorem reached_renamedFiles {outcome : Outcome} {list' : LegacyList}
    (h : renamedFiles = some (outcome, list')) : Reached .reference list' := by
  obtain ⟨trace, run⟩ := runs_renamedFiles
  rw [h] at run
  have hadmissible : longerName.Admissible threeFiles.list := trivial
  exact .perform reached_threeFiles hadmissible run

theorem reached_totals_threeFiles : ∃ list',
    renamedFiles = some (.changedProposals [1], list') ∧
      [1] = differingRows (·.proposedName) threeFiles.list.items list'.items ∧
      list'.proposedNameUtf16Units = nameUnits list'.items ∧
      list'.plannedPathUtf16Units = pathUnits list'.items ∧ nameUnits list'.items = 18 := by
  obtain ⟨trace, run⟩ := runs_renamedFiles
  obtain ⟨outcome, list', hrenamed, -, hreports, -⟩ :=
    (reached_totals reached_threeFiles).2.1 4 longerName trivial _ _ run
  have hvalues : renamedFiles.map (fun r => (r.1, nameUnits r.2.items)) =
      some (.changedProposals [1], 18) := by decide +kernel
  rw [hrenamed, Option.map_some, Option.some_inj, Prod.mk.injEq] at hvalues
  obtain ⟨rfl, hunits⟩ := hvalues
  obtain ⟨hnames, hpaths, -⟩ := (reached_totals (reached_renamedFiles hrenamed)).1
  exact ⟨list', hrenamed, hreports, hnames, hpaths, hunits⟩

end DarkReNamer
