import DarkReNamer.Core.ListItem
import DarkReNamer.Core.MachineInteger

/-!
# Planned changes

What a row plans to change, as it is shown. Whether it plans anything is decided without
building its planned path, by comparing the source with the parent and the name piece by piece.
-/

namespace DarkReNamer

/-- A vector of 16-bit units has at most `isize::MAX` bytes. -/
def maxVecUnits : ℕ := 0x7FFFFFFFFFFFFFFF / 2

namespace PlannedChangeKind

def moves : PlannedChangeKind → Bool
  | .move | .moveAndRename => true
  | _ => false

end PlannedChangeKind

def plannedPathMatchesSource (item : LegacyListItem) : Bool :=
  let parent := item.destinationParent.units
  let proposedName := item.proposedName.units
  let expectedLen := (checkedAdd usizeMax parent.length (destinationSeparatorUnits parent)).bind
    fun length => checkedAdd usizeMax length proposedName.length
  match expectedLen with
  | none => false
  | some expectedLen =>
    let source := item.sourcePath.units
    if source.length ≠ expectedLen ∨ ¬parent.isPrefixOf source then false
    else
      let separatorUnits := destinationSeparatorUnits parent
      (separatorUnits == 0 || source[parent.length]? == some backslash) &&
        source.drop (parent.length + separatorUnits) == proposedName

/-- Classifies the exact source-to-destination path change. -/
def LegacyListItem.plannedChangeKind (item : LegacyListItem) : PlannedChangeKind :=
  if plannedPathMatchesSource item then .none
  else
    let renamed := item.currentName ≠ item.proposedName
    let moved := sourceParentUnits item.sourcePath.units ≠ item.destinationParent.units
    if moved ∧ renamed then .moveAndRename
    else if renamed then .rename
    else .move

theorem destinationSeparatorUnits_le (parent : List UInt16) :
    destinationSeparatorUnits parent ≤ 1 := by
  unfold destinationSeparatorUnits
  split <;> simp

/-- What stands between a parent and a name. -/
def separatorBefore (parent : List UInt16) : List UInt16 :=
  if destinationSeparatorUnits parent ≠ 0 then [backslash] else []

theorem length_separatorBefore (parent : List UInt16) :
    (separatorBefore parent).length = destinationSeparatorUnits parent := by
  have := destinationSeparatorUnits_le parent
  unfold separatorBefore
  split
  · simp only [List.length_singleton]
    omega
  · simp only [List.length_nil]
    omega

theorem LegacyListItem.plannedPath_eq (item : LegacyListItem) :
    item.plannedPath = ⟨item.destinationParent.units ++
      separatorBefore item.destinationParent.units ++ item.proposedName.units⟩ := by
  unfold LegacyListItem.plannedPath separatorBefore
  split <;> simp

/-- A path begins with a parent and its separator, and ends in a name. -/
theorem eq_append_iff {source parent name : List UInt16} :
    source = parent ++ separatorBefore parent ++ name ↔
      parent.isPrefixOf source ∧
        (destinationSeparatorUnits parent = 0 ∨ source[parent.length]? = some backslash) ∧
        source.drop (parent.length + destinationSeparatorUnits parent) = name := by
  have hlength := length_separatorBefore parent
  constructor
  · rintro rfl
    refine ⟨by simp [List.append_assoc], ?_, ?_⟩
    · unfold separatorBefore
      split
      · exact .inr (by simp)
      · exact .inl (not_not.1 ‹_›)
    · rw [← hlength, ← List.length_append, List.drop_left]
  · rintro ⟨hparent, hseparator, rfl⟩
    obtain ⟨rest, rfl⟩ := List.isPrefixOf_iff_prefix.1 hparent
    have hle := destinationSeparatorUnits_le parent
    unfold separatorBefore
    split
    · rename_i hne
      obtain ⟨unit, rest, rfl⟩ := List.exists_cons_of_ne_nil (l := rest) (by
        rintro rfl
        simp [hne] at hseparator)
      obtain rfl : unit = backslash := by simpa [hne] using hseparator
      have hone : destinationSeparatorUnits parent = 1 := by omega
      simp [hone, List.drop_append]
    · rename_i hzero
      simp [not_not.1 hzero]

/-- Where the length of the planned path is a `usize`, the comparison piece by piece is that of
the whole paths. -/
theorem plannedPathMatchesSource_iff {item : LegacyListItem}
    (hunits : item.plannedPath.len ≤ usizeMax) :
    plannedPathMatchesSource item = true ↔ item.plannedPath = item.sourcePath := by
  have hlen : item.plannedPath.len = item.destinationParent.units.length +
      destinationSeparatorUnits item.destinationParent.units +
        item.proposedName.units.length := by
    rw [item.plannedPath_eq, LegacyText.len, List.length_append, List.length_append,
      length_separatorBefore]
  have hexpected : (checkedAdd usizeMax item.destinationParent.units.length
      (destinationSeparatorUnits item.destinationParent.units)).bind
        (fun length => checkedAdd usizeMax length item.proposedName.units.length) =
      some item.plannedPath.len := by
    rw [Option.bind_eq_some_iff]
    exact ⟨_, checkedAdd_eq_some.2 ⟨by omega, rfl⟩, checkedAdd_eq_some.2 ⟨by omega, hlen⟩⟩
  have heq : item.plannedPath = item.sourcePath ↔ item.sourcePath.units =
      item.destinationParent.units ++ separatorBefore item.destinationParent.units ++
        item.proposedName.units := by
    rw [item.plannedPath_eq, LegacyText.mk.injEq, eq_comm]
  have hsame : item.plannedPath = item.sourcePath →
      item.sourcePath.units.length = item.plannedPath.len := by
    intro h
    rw [h, LegacyText.len]
  unfold plannedPathMatchesSource
  simp only [hexpected]
  split
  · rename_i hdiffers
    refine ⟨fun h => absurd h Bool.false_ne_true, fun h => ?_⟩
    rcases hdiffers with hlength | hprefix
    · exact absurd (hsame h) hlength
    · exact absurd (eq_append_iff.1 (heq.1 h)).1 hprefix
  · rename_i hsimilar
    obtain ⟨hlength, hprefix⟩ := not_or.1 hsimilar
    rw [heq, eq_append_iff]
    simp only [Bool.and_eq_true, Bool.or_eq_true, beq_iff_eq]
    exact ⟨fun h => ⟨not_not.1 hprefix, h⟩, fun h => h.2⟩

/-- A row is shown as changed exactly when its planned path is not its source. -/
theorem isChanged_plannedChangeKind {item : LegacyListItem}
    (hunits : item.plannedPath.len ≤ usizeMax) :
    item.plannedChangeKind.isChanged = true ↔ item.plannedPath ≠ item.sourcePath := by
  rw [ne_eq, ← plannedPathMatchesSource_iff hunits]
  unfold LegacyListItem.plannedChangeKind
  dsimp only
  split_ifs <;> simp_all [PlannedChangeKind.isChanged]

end DarkReNamer
