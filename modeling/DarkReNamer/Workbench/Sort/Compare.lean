import Mathlib.Algebra.Ring.Nat
import Mathlib.Algebra.Ring.Int.Defs
import DarkReNamer.Slices.Stable
import DarkReNamer.Workbench.Sort

/-!
# Comparisons of rows

Every comparison of rows but one is a total preorder as soon as that of texts is. The exception
is the wrapping difference of 32-bit sizes: it goes around the circle of sizes, and orders only
rows whose sizes lie on one half of it.
-/

namespace DarkReNamer

open Slices Std

/-- The rows are compared by the wrapping difference of their sizes. -/
def Wraps (mode : LegacySortMode) (semantics : SortSemantics) : Prop :=
  semantics = .legacyDarkNamer080210 ∧ (mode = .sizeAscending ∨ mode = .sizeDescending)

instance (mode : LegacySortMode) (semantics : SortSemantics) :
    Decidable (Wraps mode semantics) :=
  inferInstanceAs (Decidable (_ ∧ _))

/-- All sizes lie in the half of the circle that begins at `base`. -/
def OnHalfCircle (rows : List LegacyListItem) : Prop :=
  ∃ base : UInt32, ∀ row ∈ rows, (row.size - base).toNat < 2 ^ 31

/-! ### The wrapping difference -/

theorem toInt32_neg_iff (x : UInt32) : x.toInt32 < 0 ↔ 2 ^ 31 ≤ x.toNat := by
  have hcond : x.toInt32.toInt = if 2 * x.toNat < 2 ^ 32 then (x.toNat : ℤ)
      else (x.toNat : ℤ) - (2 ^ 32 : ℕ) := BitVec.toInt_eq_toNat_cond x.toBitVec
  have hlt : x.toNat < 2 ^ 32 := x.toNat_lt
  rw [Int32.lt_iff_toInt_lt, hcond]
  have hzero : (0 : Int32).toInt = 0 := rfl
  rw [hzero]
  split <;> omega

theorem toInt32_eq_zero_iff (x : UInt32) : x.toInt32 = 0 ↔ x.toNat = 0 := by
  have heq : x.toInt32 = 0 ↔ x = 0 := by
    constructor
    · intro h
      exact congrArg Int32.toUInt32 h
    · rintro rfl
      rfl
  rw [heq, ← UInt32.toNat_inj]
  rfl

theorem compareLegacySize_eq (left right : UInt32) : compareLegacySize left right =
    if 2 ^ 31 ≤ (left - right).toNat then .lt
    else if (left - right).toNat = 0 then .eq else .gt := by
  have hcompare : compareLegacySize left right =
      compareOfLessAndEq (left - right).toInt32 0 := rfl
  rw [hcompare, compareOfLessAndEq]
  simp only [toInt32_neg_iff, toInt32_eq_zero_iff]

/-- On half of the circle the wrapping difference compares the distances from its begin. -/
theorem compareLegacySize_eq_compare {left right base : UInt32}
    (hleft : (left - base).toNat < 2 ^ 31) (hright : (right - base).toNat < 2 ^ 31) :
    compareLegacySize left right = compare (left - base).toNat (right - base).toNat := by
  have hdiff : (left - right).toNat =
      (2 ^ 32 - (right - base).toNat + (left - base).toNat) % 2 ^ 32 := by
    have := left.toNat_lt
    have := right.toNat_lt
    have := base.toNat_lt
    simp only [UInt32.toNat_sub]
    omega
  rw [compareLegacySize_eq, hdiff]
  rcases Nat.lt_trichotomy (left - base).toNat (right - base).toNat with hlt | heq | hgt
  · rw [Nat.compare_eq_lt.2 hlt, if_pos (by omega)]
  · rw [Nat.compare_eq_eq.2 heq, if_neg (by omega), if_pos (by omega)]
  · rw [Nat.compare_eq_gt.2 hgt, if_neg (by omega), if_neg (by omega)]

/-- A row that is below another one has a size that reaches the other on half of the circle. -/
theorem toNat_sub_lt_of_isGE {left right : UInt32}
    (h : (compareLegacySize left right).isGE) : (left - right).toNat < 2 ^ 31 := by
  rw [compareLegacySize_eq] at h
  by_contra hle
  rw [if_pos (Nat.le_of_not_lt hle)] at h
  cases h

/-- Sizes compare as a sort needs it exactly on half of the circle. -/
theorem totalPreorderOn_compareLegacySize (rows : List LegacyListItem) :
    TotalPreorderOn (fun left right : LegacyListItem => compareLegacySize left.size right.size)
      (· ∈ rows) ↔ OnHalfCircle rows := by
  constructor
  · intro h
    by_cases hne : rows = []
    · exact ⟨0, by simp [hne]⟩
    · obtain ⟨least, hmem, hleast⟩ := h.exists_least hne
      refine ⟨least.size, fun row hrow => toNat_sub_lt_of_isGE ?_⟩
      rw [h.eq_swap row least hrow hmem]
      exact Ordering.isGE_swap.trans (hleast row hrow)
  · rintro ⟨base, hbase⟩
    have hcompare : ∀ left ∈ rows, ∀ right ∈ rows, compareLegacySize left.size right.size =
        compare (left.size - base).toNat (right.size - base).toNat := fun left hleft right hright =>
      compareLegacySize_eq_compare (hbase left hleft) (hbase right hright)
    refine ⟨fun a b ha hb => ?_, fun a b c ha hb hc hab hbc => ?_⟩
    · rw [hcompare a ha b hb, hcompare b hb a ha, Nat.compare_swap]
    · rw [hcompare a ha b hb] at hab
      rw [hcompare b hb c hc] at hbc
      rw [hcompare a ha c hc]
      exact TransCmp.isLE_trans hab hbc

/-! ### Rows -/

variable {compareText : LegacyText → LegacyText → Ordering} {mode : LegacySortMode}
  {semantics : SortSemantics}

theorem transCmp_compareItems [TransCmp compareText] (hwraps : ¬Wraps mode semantics) :
    TransCmp (compareItems mode semantics compareText) := by
  have hname := transCmp_on compareText LegacyListItem.currentName
  have hpath := transCmp_on compareText LegacyListItem.sourcePath
  have hsize := transCmp_on compare LegacyListItem.actualSize
  have hmodified := transCmp_on compare LegacyListItem.modified
  have hcreated := transCmp_on compare LegacyListItem.created
  cases mode with
  | nameAscending => exact hname
  | nameDescending => exact transCmp_swap _
  | fullPathAscending => exact hpath
  | fullPathDescending => exact transCmp_swap _
  | sizeAscending =>
      cases semantics with
      | safeActualSize => exact hsize
      | legacyDarkNamer080210 => exact absurd ⟨rfl, .inl rfl⟩ hwraps
  | sizeDescending =>
      cases semantics with
      | safeActualSize => exact transCmp_swap _
      | legacyDarkNamer080210 => exact absurd ⟨rfl, .inr rfl⟩ hwraps
  | modifiedAscending => exact hmodified
  | modifiedDescending => exact transCmp_swap _
  | createdAscending => exact hcreated
  | createdDescending => exact transCmp_swap _

theorem totalPreorderOn_of_wraps (hwraps : Wraps mode semantics) (rows : List LegacyListItem) :
    TotalPreorderOn (compareItems mode semantics compareText) (· ∈ rows) ↔
      OnHalfCircle rows := by
  rw [← totalPreorderOn_compareLegacySize]
  obtain ⟨rfl, rfl | rfl⟩ := hwraps
  · exact Iff.rfl
  · exact totalPreorderOn_swap_iff

/-- A comparison of rows is a total preorder, unless it is by wrapping differences; then it is
one on the rows of a list exactly when their sizes lie on one half of the circle. -/
theorem compareItems_preorder (mode : LegacySortMode) (semantics : SortSemantics)
    (compareText : LegacyText → LegacyText → Ordering) [TransCmp compareText] :
    (¬Wraps mode semantics → TransCmp (compareItems mode semantics compareText)) ∧
      (Wraps mode semantics → ∀ rows : List LegacyListItem,
        TotalPreorderOn (compareItems mode semantics compareText) (· ∈ rows) ↔
          OnHalfCircle rows) :=
  ⟨transCmp_compareItems, totalPreorderOn_of_wraps⟩

/-- By code units. -/
def compareUnits (left right : LegacyText) : Ordering :=
  List.compareLex (fun a b => compare a.toNat b.toNat) left.units right.units

instance : TransCmp compareUnits :=
  have := transCmp_on (compare : ℕ → ℕ → Ordering) UInt16.toNat
  transCmp_on (List.compareLex fun a b : UInt16 => compare a.toNat b.toNat) LegacyText.units

/-- A file of the given size. -/
def fileOfSize (size : UInt32) : LegacyListItem :=
  .newWithActualSize (.ofAscii "C:\\a.txt") false size size.toUInt64 0 0

theorem compareItems_preorder_sizes :
    TransCmp (compareItems .sizeDescending .safeActualSize compareUnits) ∧
      OnHalfCircle [fileOfSize 0, fileOfSize 7] :=
  ⟨(compareItems_preorder .sizeDescending .safeActualSize compareUnits).1 (by decide),
    0, by decide⟩

/-- Of two files half the circle apart each is before the other, and three files follow each
other around the circle. -/
theorem compareItems_wraps :
    TransCmp compareUnits ∧
      (compareItems .sizeAscending .legacyDarkNamer080210 compareUnits
          (fileOfSize 0) (fileOfSize 0x80000000) = .lt ∧
        compareItems .sizeAscending .legacyDarkNamer080210 compareUnits
          (fileOfSize 0x80000000) (fileOfSize 0) = .lt) ∧
      compareItems .sizeAscending .legacyDarkNamer080210 compareUnits
          (fileOfSize 0) (fileOfSize 0x60000000) = .lt ∧
        compareItems .sizeAscending .legacyDarkNamer080210 compareUnits
          (fileOfSize 0x60000000) (fileOfSize 0xC0000000) = .lt ∧
        compareItems .sizeAscending .legacyDarkNamer080210 compareUnits
          (fileOfSize 0) (fileOfSize 0xC0000000) = .gt := by
  refine ⟨inferInstance, ⟨?_, ?_⟩, ?_, ?_, ?_⟩ <;> decide

end DarkReNamer
