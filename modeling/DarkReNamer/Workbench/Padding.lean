import DarkReNamer.Workbench.Budgets
import DarkReNamer.Workbench.DigitRuns

/-!
# Padding runs of digits

A padded name has the padded stem as its stem and keeps its extension, even where the name held
a backslash and lost what stood in front of it. So the second of two paddings finds the run of
the first, and both together are one padding to the larger width.
-/

namespace DarkReNamer

open Interaction

/-! ### Stems -/

theorem nameStart_eq_zero {units : List UInt16} (h : ∀ unit ∈ units, unit ≠ backslash) :
    nameStart units = 0 := by
  rw [nameStart, rposition_eq_none.2 fun unit hunit => by simp [h unit hunit]]

/-- No backslash stands behind the start of the name. -/
theorem ne_backslash_of_mem_drop {units : List UInt16} {unit : UInt16}
    (h : unit ∈ units.drop (nameStart units)) : unit ≠ backslash := by
  unfold nameStart at h
  cases hlast : rposition (· == backslash) units with
  | none =>
      rw [hlast] at h
      simpa using rposition_eq_none.1 hlast unit (List.mem_of_mem_drop h)
  | some index =>
      obtain ⟨front, _, back, rfl, rfl, -, hback⟩ := exists_of_rposition_eq_some hlast
      rw [hlast] at h
      dsimp only at h
      rw [List.drop_length_add_append, List.drop_one, List.tail_cons] at h
      simpa using hback unit h

/-- Where a name is cut: a directory has no extension, that of a file begins at the last dot, and
a stem holds no backslash. -/
inductive Stem (item : LegacyListItem) : List UInt16 → List UInt16 → Prop where
  | whole {stem : List UInt16} (hslash : ∀ unit ∈ stem, unit ≠ backslash)
      (hdot : item.isDirectory = true ∨ ∀ unit ∈ stem, unit ≠ dot) : Stem item stem []
  | dotted {stem extension : List UInt16} (hfile : item.isDirectory = false)
      (hslash : ∀ unit ∈ stem ++ dot :: extension, unit ≠ backslash)
      (hdot : ∀ unit ∈ extension, unit ≠ dot) : Stem item stem (dot :: extension)
  | outside {extension : List UInt16} (hfile : item.isDirectory = false)
      (hdot : ∀ unit ∈ extension, unit ≠ dot) : Stem item [] (dot :: extension)

theorem stem_stemExtensionUnits (item : LegacyListItem) :
    Stem item (stemExtensionUnits item).1 (stemExtensionUnits item).2 := by
  have hslash (unit : UInt16)
      (hunit : unit ∈ item.proposedName.units.drop (nameStart item.proposedName.units)) :
      unit ≠ backslash := ne_backslash_of_mem_drop hunit
  unfold stemExtensionUnits
  dsimp only
  split
  · next hdirectory => exact .whole hslash (.inl hdirectory)
  · next hfile =>
      rw [Bool.not_eq_true] at hfile
      split
      · next hnone =>
          refine .whole hslash (.inr fun unit hunit => ?_)
          simpa using rposition_eq_none.1 hnone unit (List.mem_of_mem_drop hunit)
      · next index hindex =>
          obtain ⟨front, unit, extension, hunits, rfl, hunit, hdot⟩ :=
            exists_of_rposition_eq_some hindex
          obtain rfl : unit = dot := by simpa using hunit
          have hextension : ∀ unit ∈ extension, unit ≠ dot :=
            fun unit hunit => by simpa using hdot unit hunit
          rw [hunits] at hslash ⊢
          rw [List.drop_left]
          by_cases hstart : nameStart (front ++ dot :: extension) ≤ front.length
          · rw [Nat.max_eq_left hstart, List.take_left]
            refine .dotted hfile (fun unit hunit => hslash unit ?_) hextension
            rwa [List.drop_append_of_le_length hstart]
          · rw [Nat.max_eq_right (Nat.le_of_not_le hstart), List.drop_take, Nat.sub_self,
              List.take_zero]
            exact .outside hfile hextension

theorem Stem.stemExtensionUnits_eq {item : LegacyListItem} {stem extension : List UInt16}
    (h : Stem item stem extension) :
    stemExtensionUnits { item with proposedName := ⟨stem ++ extension⟩ } = (stem, extension) := by
  have hposition (front extension : List UInt16) (hdot : ∀ unit ∈ extension, unit ≠ dot) :
      rposition (· == dot) (front ++ dot :: extension) = some front.length :=
    rposition_append front (by simp) fun unit hunit => by simp [hdot unit hunit]
  cases h with
  | whole hslash hdot =>
      simp only [stemExtensionUnits, List.append_nil, nameStart_eq_zero hslash, List.drop_zero]
      split
      · rfl
      · next hfile =>
          have hnone : rposition (· == dot) stem = none :=
            rposition_eq_none.2 fun unit hunit => by simp [hdot.resolve_left hfile unit hunit]
          rw [hnone]
  | dotted hfile hslash hdot =>
      simp only [stemExtensionUnits, hfile, nameStart_eq_zero hslash, hposition stem _ hdot,
        Nat.max_zero, List.drop_zero, List.take_left, List.drop_left, Bool.false_eq_true, if_false]
  | @outside extension hfile hdot =>
      have hposition := hposition [] extension hdot
      rw [List.nil_append] at hposition
      simp only [stemExtensionUnits, hfile, List.nil_append, hposition, List.length_nil,
        Nat.zero_max, List.drop_zero, Bool.false_eq_true, if_false]
      rw [List.drop_take, Nat.sub_self, List.take_zero]

/-- Padding a stem leaves the cut where it was. -/
theorem Stem.padded {item : LegacyListItem} {stem extension : List UInt16}
    (h : Stem item stem extension) (which : DigitRun) (width : ℕ) :
    Stem item (which.padded width stem) extension := by
  have hkept {c : UInt16} (hc : digitZero ≠ c) (hstem : ∀ unit ∈ stem, unit ≠ c) :
      ∀ unit ∈ which.padded width stem, unit ≠ c := by
    intro unit hunit
    rcases DigitRun.mem_padded hunit with hunit | rfl
    · exact hstem unit hunit
    · exact hc
  cases h with
  | whole hslash hdot =>
      exact .whole (hkept (by decide) hslash) (hdot.imp_right (hkept (by decide)))
  | dotted hfile hslash hdot =>
      rw [List.forall_mem_append] at hslash
      exact .dotted hfile (List.forall_mem_append.2 ⟨hkept (by decide) hslash.1, hslash.2⟩) hdot
  | outside hfile hdot =>
      rw [DigitRun.padded_nil]
      exact .outside hfile hdot

/-! ### Names -/

/-- The proposed name with one run of its stem padded. -/
def paddedName (which : DigitRun) (width : ℕ) (item : LegacyListItem) : LegacyText :=
  ⟨which.padded width (stemExtensionUnits item).1 ++ (stemExtensionUnits item).2⟩

theorem paddedName_paddedName (which : DigitRun) (width width' : ℕ) (item : LegacyListItem) :
    paddedName which width' { item with proposedName := paddedName which width item } =
      paddedName which (max width width') item := by
  have hstem := ((stem_stemExtensionUnits item).padded which width).stemExtensionUnits_eq
  unfold paddedName
  rw [hstem, DigitRun.padded_padded]

theorem allocates_paddedDigitRunProposal (which : DigitRun) (width row : ℕ)
    (item : LegacyListItem) :
    AllocatesOr .allocationFailed (Builds (paddedName which width item))
      (paddedDigitRunProposal item row width which.find) := by
  unfold paddedDigitRunProposal paddedName DigitRun.padded
  dsimp only
  cases which.find (stemExtensionUnits item).1 with
  | none =>
      refine allocates_sumAndBuild row ?_
      rw [List.length_append, List.sum_cons, List.sum_cons, List.sum_nil, Nat.add_zero]
  | some range =>
      obtain ⟨start, stop⟩ := range
      refine allocates_sumAndBuild row ?_
      have hcut := congrArg List.length
        (List.take_append_drop start (stemExtensionUnits item).1)
      rw [List.length_append] at hcut
      simp only [List.length_append, List.sum_cons, List.sum_nil, List.length_replicate]
      omega

/-! ### Commands -/

/-- The command that pads the selected runs. -/
def DigitRun.pad : DigitRun → LegacyList → ℕ → LegacyList.Renaming
  | .first => LegacyList.padFirstDigitRunChanged
  | .last => LegacyList.padLastDigitRunChanged

theorem DigitRun.pad_eq (which : DigitRun) (list : LegacyList) (width : ℕ) :
    which.pad list width = list.padDigitRunChanged width which.find := by
  cases which with
  | first => rfl
  | last => rfl

theorem decides_validateWidth (width : ℕ) :
    Decides (1 ≤ width ∧ width ≤ maxProposedNameUtf16Units) (fun _ => True)
      (LegacyList.validateWidth width) := by
  unfold LegacyList.validateWidth
  split
  · next hzero => exact fun h => absurd h.1 (by omega)
  · next hpos =>
      exact (decides_validateProposalUnits 0 width).mono
        ⟨fun h => ⟨Nat.pos_of_ne_zero hpos, h⟩, fun h => h.2⟩ fun _ => id

/-- Padding is refused for its width and for the budgets alone. -/
theorem DigitRun.pad_allocates (which : DigitRun) (list : LegacyList) (width : ℕ) :
    Allocates
      (fun r => Decides ((1 ≤ width ∧ width ≤ maxProposedNameUtf16Units) ∧
            WithinBudgets (renamed (paddedName which width) list.items))
          (· = differingRows (·.proposedName) list.items
            (renamed (paddedName which width) list.items)) r.1 ∧
        r.2 = if r.1.isOk then list.withItems (renamed (paddedName which width) list.items)
          else list)
      (fun r => r = (.error .allocationFailed, list)) (which.pad list width) := by
  have hwidth := decides_validateWidth width
  rw [pad_eq, LegacyList.padDigitRunChanged]
  cases hvalid : LegacyList.validateWidth width with
  | error error =>
      rw [hvalid] at hwidth
      exact ⟨fun h => hwidth h.1, rfl⟩
  | ok _ =>
      rw [hvalid] at hwidth
      refine Allocates.mono (LegacyList.tryChangedProposals_allocates
        fun row item => allocates_paddedDigitRunProposal which width row item) fun r hr => ?_
      exact ⟨hr.1.mono ⟨fun h => ⟨hwidth.1, h⟩, fun h => h.2⟩ fun _ => id, hr.2⟩

/-- What a call that returned has done. -/
theorem DigitRun.eq_of_pad {which : DigitRun} {list list' : LegacyList} {width : ℕ}
    {trace : List (Event Reservation Granted)} {rows : List ℕ}
    (run : Runs allocator (which.pad list width) () trace (some (.ok rows, list')) ()) :
    (1 ≤ width ∧ width ≤ maxProposedNameUtf16Units) ∧
      WithinBudgets (renamed (paddedName which width) list.items) ∧
      list' = list.withItems (renamed (paddedName which width) list.items) := by
  rcases (which.pad_allocates list width).of_runs run with ⟨-, hgranted⟩ | ⟨-, hrefused⟩
  · exact ⟨hgranted.1.1.1, hgranted.1.1.2, hgranted.2⟩
  · cases hrefused

/-- A call within the budgets returns when everything is granted. -/
theorem DigitRun.pad_of_within (which : DigitRun) (list : LegacyList) {width : ℕ}
    (hwidth : 1 ≤ width ∧ width ≤ maxProposedNameUtf16Units)
    (hwithin : WithinBudgets (renamed (paddedName which width) list.items)) :
    Allocates
      (fun r => r = (.ok (differingRows (·.proposedName) list.items
          (renamed (paddedName which width) list.items)),
        list.withItems (renamed (paddedName which width) list.items)))
      (fun r => r = (.error .allocationFailed, list)) (which.pad list width) := by
  refine (which.pad_allocates list width).mono ?_
  rintro ⟨result, list'⟩ ⟨hdecides, hlist⟩
  cases result with
  | error error => exact absurd ⟨hwidth, hwithin⟩ hdecides
  | ok rows =>
      obtain ⟨-, rfl⟩ := hdecides
      exact Prod.ext rfl hlist

theorem renamed_renamed_paddedName (which : DigitRun) (width width' : ℕ)
    (items : List LegacyListItem) :
    renamed (paddedName which width') (renamed (paddedName which width) items) =
      renamed (paddedName which (max width width')) items := by
  rw [renamed, renamed, renamed, List.map_map]
  refine List.map_congr_left fun item _ => ?_
  simp only [Function.comp_apply, paddedName_paddedName]

/-- The name of a row with zeros in front of the selected run of its stem, as many as the run
lacks to the width. -/
def ZerosInserted (which : DigitRun) (width : ℕ) (item : LegacyListItem) (name : LegacyText) :
    Prop :=
  ∃ stem extension, Stem item stem extension ∧ item.proposedName.units = stem ++ extension ∧
    ((∀ front run back, stem = front ++ run ++ back → ¬which.Selects front run back) ∧
        name = item.proposedName ∨
      ∃ front run back zeros, stem = front ++ run ++ back ∧ which.Selects front run back ∧
        zeros = List.replicate (width - run.length) digitZero ∧
        name.units = front ++ (zeros ++ run) ++ back ++ extension ∧
        width ≤ (zeros ++ run).length ∧ DigitRun.value (zeros ++ run) = DigitRun.value run)

/-- Without a backslash a name is its stem and its extension. -/
theorem stem_append_extension {item : LegacyListItem}
    (h : ∀ unit ∈ item.proposedName.units, unit ≠ backslash) :
    (stemExtensionUnits item).1 ++ (stemExtensionUnits item).2 = item.proposedName.units := by
  unfold stemExtensionUnits
  dsimp only
  rw [nameStart_eq_zero h]
  split
  · simp
  · split
    · simp
    · simp

theorem zerosInserted_paddedName {item : LegacyListItem} (which : DigitRun) (width : ℕ)
    (h : ∀ unit ∈ item.proposedName.units, unit ≠ backslash) :
    ZerosInserted which width item (paddedName which width item) := by
  have hsplit := stem_append_extension h
  refine ⟨_, _, stem_stemExtensionUnits item, hsplit.symm, ?_⟩
  cases hfind : which.find (stemExtensionUnits item).1 with
  | none =>
      refine .inl ⟨fun front run back hstem hselects => ?_, ?_⟩
      · rw [hstem, hselects.find_eq] at hfind
        cases hfind
      · apply LegacyText.ext
        rw [paddedName, DigitRun.padded, hfind]
        exact hsplit
  | some r =>
      obtain ⟨front, run, back, hstem, hselects⟩ := DigitRun.exists_selects hfind
      refine .inr ⟨front, run, back, _, hstem, hselects, rfl, ?_, ?_, DigitRun.value_zeros _ run⟩
      · rw [paddedName, hstem, hselects.padded_eq]
      · rw [List.length_append, List.length_replicate]
        omega

/-- Two paddings are one to the larger width, a second padding to the same width changes
nothing, and padding a name without a backslash inserts zeros in front of the selected run and
does nothing else. -/
theorem DigitRun.pad_composes (which : DigitRun) (list : LegacyList) {width : ℕ}
    {trace : List (Event Reservation Granted)} {rows : List ℕ} {list₁ : LegacyList}
    (run : Runs allocator (which.pad list width) () trace (some (.ok rows, list₁)) ()) :
    (∀ width' trace' rows' list₂,
      Runs allocator (which.pad list₁ width') () trace' (some (.ok rows', list₂)) () →
      Allocates (fun r => ∃ rows, r = (.ok rows, list₂))
        (fun r => r = (.error .allocationFailed, list)) (which.pad list (max width width'))) ∧
    Allocates (fun r => r = (.ok [], list₁)) (fun r => r = (.error .allocationFailed, list₁))
      (which.pad list₁ width) ∧
    List.Forall₂ (fun item item' =>
        item' = { item with proposedName := item'.proposedName } ∧
          ((∀ unit ∈ item.proposedName.units, unit ≠ backslash) →
            ZerosInserted which width item item'.proposedName))
      list.items list₁.items := by
  obtain ⟨hwidth, hwithin, rfl⟩ := DigitRun.eq_of_pad run
  refine ⟨fun width' trace' rows' list₂ run' => ?_, ?_, ?_⟩
  · obtain ⟨hwidth', hwithin', rfl⟩ := DigitRun.eq_of_pad run'
    rw [LegacyList.withItems_items, renamed_renamed_paddedName] at hwithin' ⊢
    refine (DigitRun.pad_of_within which list ⟨?_, ?_⟩ hwithin').mono ?_
    · exact hwidth.1.trans (Nat.le_max_left _ _)
    · exact Nat.max_le.2 ⟨hwidth.2, hwidth'.2⟩
    · rintro _ rfl
      exact ⟨_, rfl⟩
  · have hagain := renamed_renamed_paddedName which width width list.items
    rw [Nat.max_self] at hagain
    have hpad := DigitRun.pad_of_within which
      (list.withItems (renamed (paddedName which width) list.items)) hwidth
      (by rw [LegacyList.withItems_items, hagain]; exact hwithin)
    rw [LegacyList.withItems_items, hagain, ← differFrom_zero _ rfl, differFrom_self] at hpad
    exact hpad
  · rw [LegacyList.withItems_items, renamed, List.forall₂_map_right_iff]
    exact List.forall₂_same.2 fun item _ =>
      ⟨rfl, fun hslash => zerosInserted_paddedName which width hslash⟩

/-- A list of one file whose stem ends in a digit. -/
def oneDigit : LegacyList :=
  (LegacyList.new 0).withItems [.newWithActualSize (.ofAscii "C:\\a1.txt") false 0 0 0 0]

theorem DigitRun.pad_composes_oneDigit :
    ∃ list₁ : LegacyList, list₁.items.map (·.proposedName) = [.ofAscii "a001.txt"] ∧
      Allocates (fun r => r = (.ok [], list₁)) (fun r => r = (.error .allocationFailed, list₁))
        (DigitRun.last.pad list₁ 3) := by
  have run : Runs allocator (DigitRun.last.pad oneDigit 3) ()
      ((DigitRun.last.pad oneDigit 3).trace (fun _ _ => (true, ())) ())
      (some ((DigitRun.last.pad oneDigit 3).run (fun _ _ => (true, ())) ()).1) () :=
    Runs.of_run (fun _ _ => trivial) _ _
  have hrows : ((DigitRun.last.pad oneDigit 3).run (fun _ _ => (true, ())) ()).1.1.toOption =
      some [0] := by decide +kernel
  have hnames : ((DigitRun.last.pad oneDigit 3).run
      (fun _ _ => (true, ())) ()).1.2.items.map (·.proposedName) = [.ofAscii "a001.txt"] := by
    decide +kernel
  cases hresult : ((DigitRun.last.pad oneDigit 3).run (fun _ _ => (true, ())) ()).1 with
  | mk result list₁ =>
      rw [hresult] at run hrows hnames
      cases result with
      | error error => cases hrows
      | ok rows => exact ⟨list₁, hnames, (DigitRun.pad_composes .last oneDigit run).2.1⟩

end DarkReNamer
