import DarkReNamer.Workbench.Budgets
import DarkReNamer.Workbench.Trimming

/-!
# Exported names

The export writes every proposed name on a line of its own, and the import trims every line and
skips the blank ones. Importing an export of the same rows changes nothing exactly when trimming
changes no name that another nonblank name follows, so that no line is shifted.
-/

namespace DarkReNamer

open Interaction

/-- The code unit of a carriage return. -/
def carriageReturn : UInt16 := 13

/-- Every line with a CRLF behind it. -/
def exportLines (lines : List LegacyText) : LegacyText :=
  ⟨lines.flatMap fun line => line.units ++ [carriageReturn, lineFeed]⟩

def LegacyList.exportNames (list : LegacyList) : LegacyText :=
  exportLines (list.items.map (·.proposedName))

/-! ### Lines -/

theorem splitOn_exportLines {lines : List LegacyText}
    (h : ∀ line ∈ lines, lineFeed ∉ line.units) :
    (exportLines lines).units.splitOn lineFeed =
      lines.map (fun line => line.units ++ [carriageReturn]) ++ [[]] := by
  induction lines with
  | nil => simp [exportLines]
  | cons line lines ih =>
      have hline : lineFeed ∉ line.units ++ [carriageReturn] := by
        intro hmem
        rcases List.mem_append.1 hmem with hmem | hmem
        · exact h line (by simp) hmem
        · exact absurd (List.mem_singleton.1 hmem) (by decide)
      have hsplit : (exportLines (line :: lines)).units =
          (line.units ++ [carriageReturn]) ++ lineFeed :: (exportLines lines).units := by
        simp [exportLines]
      rw [hsplit, List.splitOn_append_cons_self, List.splitOn_eq_singleton hline,
        ih fun line hline => h line (by simp [hline])]
      rfl

/-- The lines that an import reads of an export. -/
theorem trimmedImportUnitSlices_exportLines {lines : List LegacyText}
    (h : ∀ line ∈ lines, lineFeed ∉ line.units) :
    trimmedImportUnitSlices (exportLines lines) =
      (lines.map (·.units)).filterMap trimmedSlice := by
  have hblank : Blank [carriageReturn] := by simp [Blank, carriageReturn, isTrimUnit]
  have hnil : trimmedSlice [] = none := rfl
  rw [trimmedImportUnitSlices, splitOn_exportLines h, List.filterMap_append, List.filterMap_map,
    List.filterMap_map, List.filterMap_cons_none hnil, List.filterMap_nil, List.append_nil]
  refine List.filterMap_congr fun line _ => ?_
  exact trimmedSlice_append hblank

/-- Trimming leaves a beginning of the names as they are if and only if the names up to some
point are left as they are and all others are blank. -/
theorem filterMap_trimmedSlice_isPrefix_iff {names : List (List UInt16)} :
    names.filterMap trimmedSlice <+: names ↔
      ∃ k, (∀ name ∈ names.take k, Untrimmed name) ∧ ∀ name ∈ names.drop k, Blank name := by
  induction names with
  | nil => simp
  | cons name names ih =>
      cases hslice : trimmedSlice name with
      | none =>
          have hblank := trimmedSlice_eq_none_iff.1 hslice
          rw [List.filterMap_cons_none hslice]
          constructor
          · intro hstarts
            cases hrest : names.filterMap trimmedSlice with
            | nil =>
                refine ⟨0, by simp, fun other hother => ?_⟩
                rcases List.mem_cons.1 hother with rfl | hother
                · exact hblank
                · exact trimmedSlice_eq_none_iff.1 (List.filterMap_eq_nil_iff.1 hrest _ hother)
            | cons core cores =>
                rw [hrest, List.cons_prefix_cons] at hstarts
                have hmem : core ∈ names.filterMap trimmedSlice := by simp [hrest]
                obtain ⟨other, -, hother⟩ := List.mem_filterMap.1 hmem
                exact absurd (hstarts.1 ▸ hblank) (untrimmed_of_trimmedSlice hother).not_blank
          · rintro ⟨k, huntrimmed, hblanks⟩
            cases k with
            | zero =>
                have hnil : names.filterMap trimmedSlice = [] := List.filterMap_eq_nil_iff.2
                  fun other hother => trimmedSlice_of_blank (hblanks other (by simp [hother]))
                rw [hnil]
                exact List.nil_prefix
            | succ k => exact absurd hblank (huntrimmed name (by simp)).not_blank
      | some core =>
          rw [List.filterMap_cons_some hslice, List.cons_prefix_cons, ih]
          constructor
          · rintro ⟨rfl, k, huntrimmed, hblanks⟩
            refine ⟨k + 1, fun other hother => ?_, hblanks⟩
            rcases List.mem_cons.1 hother with rfl | hother
            · exact untrimmed_of_trimmedSlice hslice
            · exact huntrimmed other hother
          · rintro ⟨k, huntrimmed, hblanks⟩
            cases k with
            | zero =>
                rw [trimmedSlice_of_blank (hblanks name (by simp))] at hslice
                cases hslice
            | succ k =>
                have hself := (huntrimmed name (by simp)).trimmedSlice_eq_self
                rw [hslice, Option.some.injEq] at hself
                exact ⟨hself, k, fun other hother => huntrimmed other (by simp [hother]), hblanks⟩

/-! ### The import -/

/-- The names of the rows behind an import: the lines in order, then the names as they were. -/
def importedNames : List (List UInt16) → List LegacyListItem → List LegacyText
  | _, [] => []
  | [], item :: items => item.proposedName :: importedNames [] items
  | units :: lines, _ :: items => ⟨units⟩ :: importedNames lines items

theorem importedNames_nil (items : List LegacyListItem) :
    importedNames [] items = items.map (·.proposedName) := by
  induction items with
  | nil => rfl
  | cons item items ih => rw [importedNames, ih, List.map_cons]

theorem length_importedNames (lines : List (List UInt16)) (items : List LegacyListItem) :
    (importedNames lines items).length = items.length := by
  fun_induction importedNames lines items with
  | case1 => rfl
  | case2 item items ih => rw [List.length_cons, List.length_cons, ih]
  | case3 units lines item items ih => rw [List.length_cons, List.length_cons, ih]

/-- The names stay as they are when the lines are a beginning of them. -/
theorem importedNames_eq_iff {lines : List (List UInt16)} {items : List LegacyListItem}
    (h : lines.length ≤ items.length) :
    importedNames lines items = items.map (·.proposedName) ↔
      lines <+: items.map (·.proposedName.units) := by
  induction items generalizing lines with
  | nil =>
      obtain rfl : lines = [] := List.length_eq_zero_iff.1 (Nat.le_zero.1 h)
      simp [importedNames]
  | cons item items ih =>
      cases lines with
      | nil => simp [importedNames, importedNames_nil]
      | cons units lines =>
          rw [importedNames, List.map_cons, List.map_cons, List.cons.injEq, List.cons_prefix_cons,
            ih (by simpa using h)]
          exact and_congr_left' ⟨fun heq => by rw [← heq], fun heq => LegacyText.ext heq⟩

/-- The proposal that `importNamesChanged` makes for a row. -/
def importProposal : Proposal (List (List UInt16)) := fun lines _ row item =>
  match lines with
  | [] => do
    let proposal ← tryBuildProposal row item.proposedName.len item.proposedName.units
    return (some proposal, [])
  | units :: lines => do
    let proposal ← tryBuildProposal row units.length units
    return (some proposal, lines)

theorem proposes_importProposal (items : List LegacyListItem) (lines : List (List UInt16))
    (row : ℕ) (rest : List LegacyListItem) :
    Proposes importProposal items lines row rest (importedNames lines rest) := by
  have hbuild {σ : Type} (row : ℕ) (item : LegacyListItem) (units : List UInt16) (s : σ) :
      AllocatesOr .allocationFailed (Names item ⟨units⟩ s) (do
        let proposal ← tryBuildProposal row units.length units
        return (some proposal, s)) := by
    refine .bind (allocates_tryBuildProposal_builds row units) ?_ fun _ hlong => hlong
    rintro text rfl
    exact .pure ⟨rfl, rfl⟩
  induction rest generalizing lines row with
  | nil => exact trivial
  | cons item rest ih =>
      cases lines with
      | nil => exact ⟨[], hbuild row item item.proposedName.units [], ih [] (row + 1)⟩
      | cons units lines => exact ⟨lines, hbuild row item units lines, ih lines (row + 1)⟩

theorem differFrom_withNames_eq_nil {items : List LegacyListItem} {names : List LegacyText}
    (h : names.length = items.length) (row : ℕ) :
    differFrom (·.proposedName) row items (withNames items names) = [] ↔
      names = items.map (·.proposedName) := by
  induction items generalizing names row with
  | nil => simp [differFrom, List.length_eq_zero_iff.1 h]
  | cons item items ih =>
      cases names with
      | nil => cases h
      | cons name names =>
          rw [withNames_cons, differFrom, List.map_cons, List.cons.injEq,
            ← ih (by simpa using h) (row + 1)]
          by_cases hname : item.proposedName = name
          · simp [hname]
          · simp [hname, Ne.symm hname]

theorem withNames_proposedNames (items : List LegacyListItem) :
    withNames items (items.map (·.proposedName)) = items := by
  rw [withNames_map, renamed, List.map_id'']
  exact fun _ => rfl

/-- A valid name has no line feed. -/
theorem not_mem_of_validateWindowsLeafName {name : LegacyText}
    (h : validateWindowsLeafName name = .ok ()) : lineFeed ∉ name.units := by
  intro hmem
  have hany : name.units.any isInvalidCharacter = true :=
    List.any_eq_true.2 ⟨lineFeed, hmem, by decide⟩
  unfold validateWindowsLeafName at h
  simp only [hany, if_true] at h
  split_ifs at h

/-- Importing what was exported of valid names changes no row exactly when the names up to some
row begin and end with other units than white space and all later ones are white space. -/
theorem LegacyList.importNamesChanged_exportNames (list : LegacyList)
    (hvalid : ∀ item ∈ list.items, validateWindowsLeafName item.proposedName = .ok ()) :
    Allocates
      (fun r => (r.1 = .ok [] ↔ WithinBudgets list.items ∧
          ∃ k, (∀ item ∈ list.items.take k, Untrimmed item.proposedName.units) ∧
            ∀ item ∈ list.items.drop k, Blank item.proposedName.units) ∧
        (r.1 = .ok [] → r.2.items = list.items))
      (fun r => r = (.error .allocationFailed, list))
      (list.importNamesChanged list.exportNames) := by
  have hlines : (trimmedImportUnitSlices list.exportNames).take list.items.length =
      (list.items.map (·.proposedName.units)).filterMap trimmedSlice := by
    rw [LegacyList.exportNames, trimmedImportUnitSlices_exportLines, List.map_map]
    · refine List.take_of_length_le ((List.length_filterMap_le _ _).trans ?_)
      rw [List.length_map]
    · intro line hline
      obtain ⟨item, hitem, rfl⟩ := List.mem_map.1 hline
      exact not_mem_of_validateWindowsLeafName (hvalid item hitem)
  have hle : ((list.items.map (·.proposedName.units)).filterMap trimmedSlice).length ≤
      list.items.length :=
    (List.length_filterMap_le _ _).trans (List.length_map _).le
  have hsame : importedNames ((list.items.map (·.proposedName.units)).filterMap trimmedSlice)
        list.items = list.items.map (·.proposedName) ↔
      ∃ k, (∀ item ∈ list.items.take k, Untrimmed item.proposedName.units) ∧
        ∀ item ∈ list.items.drop k, Blank item.proposedName.units := by
    rw [importedNames_eq_iff hle, filterMap_trimmedSlice_isPrefix_iff]
    simp only [← List.map_take, ← List.map_drop, List.forall_mem_map]
  refine (LegacyList.tryChangedProposalsOptional_allocates
    (proposes_importProposal list.items _ 0 list.items)).mono ?_
  rw [hlines]
  rintro ⟨result, list'⟩ ⟨hdecides, hlist⟩
  dsimp only at hdecides hlist ⊢
  rw [← hsame]
  cases result with
  | error error =>
      refine ⟨⟨by rintro ⟨⟩, ?_⟩, by rintro ⟨⟩⟩
      rintro ⟨hwithin, hnames⟩
      rw [hnames, withNames_proposedNames] at hdecides
      exact absurd hwithin hdecides
  | ok rows =>
      obtain ⟨hwithin, rfl⟩ := hdecides
      have hlength := length_importedNames
        ((list.items.map (·.proposedName.units)).filterMap trimmedSlice) list.items
      have hrows : list.items.length = (withNames list.items (importedNames
          ((list.items.map (·.proposedName.units)).filterMap trimmedSlice) list.items)).length := by
        rw [withNames, List.length_zipWith, hlength, Nat.min_self]
      rw [← differFrom_zero _ hrows, Except.ok.injEq, differFrom_withNames_eq_nil hlength]
      refine ⟨⟨fun hnames => ?_, fun h => h.2⟩, fun hnames => ?_⟩
      · rw [hnames, withNames_proposedNames] at hwithin
        exact ⟨hwithin, hnames⟩
      · rw [hlist, hnames, withNames_proposedNames]
        rfl

/-- A list of one file with the given name. -/
def fileNamed (name : String) : LegacyList :=
  (LegacyList.new 0).withItems [.newWithActualSize (.ofAscii ("C:\\" ++ name)) false 0 0 0 0]

theorem importNamesChanged_exportNames_plain :
    ∃ list' : LegacyList, ((fileNamed "a.txt").importNamesChanged
        (fileNamed "a.txt").exportNames).run (fun _ _ => (true, ())) () =
          ((.ok [], list'), ()) ∧ list'.items = (fileNamed "a.txt").items := by
  have hexact := ((fileNamed "a.txt").importNamesChanged_exportNames (by decide +kernel)).run
  have hok := hexact.1.2 ⟨⟨by decide +kernel, by decide +kernel, by decide +kernel⟩, 1, ?_, ?_⟩
  · exact ⟨_, Prod.ext (Prod.ext hok rfl) rfl, hexact.2 hok⟩
  · intro item hitem
    obtain rfl := List.mem_singleton.1 hitem
    exact ⟨⟨97, _, rfl, by decide⟩, ⟨[97, 46, 116, 120], 116, rfl, by decide⟩⟩
  · intro item hitem
    cases hitem

/-- A name that begins with a space is valid, and the import takes the space away. -/
theorem not_importNamesChanged_leadingSpace :
    ¬∀ list : LegacyList,
      (∀ item ∈ list.items, validateWindowsLeafName item.proposedName = .ok ()) →
        Allocates (fun r => r.1 = .ok []) (fun r => r = (.error .allocationFailed, list))
          (list.importNamesChanged list.exportNames) := by
  intro h
  have hrun := (h (fileNamed " a.txt") (by decide +kernel)).run
  have hrows : (((fileNamed " a.txt").importNamesChanged (fileNamed " a.txt").exportNames).run
      (fun _ _ => (true, ())) ()).1.1.toOption = some [0] := by decide +kernel
  rw [hrun] at hrows
  cases hrows

end DarkReNamer
