import DarkReNamer.Core.PlannedChange
import DarkReNamer.Workbench.Units
import Mathlib.Order.Nat

/-!
# Rows after a move

A successful move makes the planned path the source of a row: it is cut at its last backslash
into a parent and a name. Put together again they give the same path exactly when there is a
backslash and no other separator stands in front of it; else a separator is lost, or a backslash
put in front, and the total of the planned paths, which is not touched, is no longer exact.
-/

namespace DarkReNamer

open LegacyList

theorem isSeparator_iff {unit : UInt16} :
    isSeparator unit = true ↔ unit = backslash ∨ unit = slash := by
  simp [isSeparator]

/-- The last backslash of the planned path exists and follows no other separator. -/
def settlesOnMove (item : LegacyListItem) : Bool :=
  match rposition (· == backslash) item.plannedPath.units with
  | none => false
  | some index => (item.plannedPath.units.take index).getLast?.all fun unit => !isSeparator unit

/-- A path cut at its last backslash and put together again. -/
def rejoined (path : List UInt16) : List UInt16 :=
  sourceParentUnits path ++ separatorBefore (sourceParentUnits path) ++ (pathName ⟨path⟩).units

theorem rejoined_of_none {path : List UInt16}
    (h : rposition (· == backslash) path = none) : rejoined path = backslash :: path := by
  simp [rejoined, sourceParentUnits, pathName, h, separatorBefore, destinationSeparatorUnits]

theorem pathName_len_le (path : LegacyText) : (pathName path).len ≤ path.len := by
  unfold pathName
  split
  · exact le_rfl
  · simp [LegacyText.len]

section Cut

variable {front name : List UInt16} (hname : backslash ∉ name)

include hname

theorem rposition_cut :
    rposition (· == backslash) (front ++ backslash :: name) = some front.length :=
  rposition_append front (by simp) fun unit hunit => by
    simpa using fun heq : unit = backslash => hname (heq ▸ hunit)

theorem pathName_cut :
    pathName ⟨front ++ backslash :: name⟩ = ⟨name⟩ := by
  simp [pathName, rposition_cut hname]

theorem rejoined_cut (hfront : front.getLast?.all fun unit => !isSeparator unit) :
    rejoined (front ++ backslash :: name) = front ++ backslash :: name := by
  have hbackslash : isSeparator backslash = true := rfl
  simp only [rejoined, pathName_cut hname, sourceParentUnits, rposition_cut hname,
    List.take_left']
  split
  · have htake : (front ++ backslash :: name).take (front.length + 1) = front ++ [backslash] := by
      simp [List.take_append]
    simp [htake, separatorBefore, destinationSeparatorUnits, hbackslash]
  · simp [separatorBefore, destinationSeparatorUnits, hfront]

/-- A second separator in front of the cut is lost. -/
theorem rejoined_cut_separator (hfront : ¬front.getLast?.all fun unit => !isSeparator unit) :
    rejoined (front ++ backslash :: name) = front ++ name := by
  rcases List.eq_nil_or_concat front with rfl | ⟨front, last, rfl⟩
  · simp at hfront
  · rw [List.concat_eq_append] at hfront ⊢
    have hlast : isSeparator last = true := by simpa using hfront
    have hcolon : last ≠ 58 := by
      rintro rfl
      exact absurd hlast (by decide)
    have htake : (front ++ [last] ++ backslash :: name).take (front ++ [last]).length =
        front ++ [last] := List.take_left
    simp only [rejoined, pathName_cut hname, sourceParentUnits, rposition_cut hname, htake]
    have hroot : ((front ++ [last]).length == 0 ||
        (front ++ [last]).getLast?.any fun unit => unit == 58) = false := by simp [hcolon]
    rw [hroot, if_neg Bool.false_ne_true, Nat.add_zero, htake]
    simp [hlast, separatorBefore, destinationSeparatorUnits]

end Cut

theorem movedItem_plannedPath (item : LegacyListItem) :
    (movedItem item).plannedPath = ⟨rejoined item.plannedPath.units⟩ := by
  have hparent : (movedItem item).destinationParent.units =
      sourceParentUnits item.plannedPath.units := by
    simp only [movedItem]
    split
    · rfl
    · rename_i hsame
      exact (not_not.1 hsame).symm
  rw [LegacyListItem.plannedPath_eq, hparent]
  rfl

theorem movedItem_sourcePath (item : LegacyListItem) :
    (movedItem item).sourcePath = item.plannedPath := rfl

theorem rejoined_eq_of_settles {item : LegacyListItem} (h : settlesOnMove item = true) :
    rejoined item.plannedPath.units = item.plannedPath.units := by
  unfold settlesOnMove at h
  split at h
  · cases h
  · rename_i index hindex
    obtain ⟨front, unit, name, hpath, rfl, hunit, hname⟩ := exists_of_rposition_eq_some hindex
    obtain rfl : unit = backslash := by simpa using hunit
    rw [hpath] at h ⊢
    refine rejoined_cut (fun hmem => ?_) (by simpa using h)
    simpa using hname backslash hmem

/-- A path that does not come back comes back longer or shorter. -/
theorem length_rejoined_ne {item : LegacyListItem} (h : settlesOnMove item = false) :
    (rejoined item.plannedPath.units).length ≠ item.plannedPath.units.length := by
  unfold settlesOnMove at h
  split at h
  · rename_i hnone
    simp [rejoined_of_none hnone]
  · rename_i index hindex
    obtain ⟨front, unit, name, hpath, rfl, hunit, hname⟩ := exists_of_rposition_eq_some hindex
    obtain rfl : unit = backslash := by simpa using hunit
    rw [hpath] at h ⊢
    rw [rejoined_cut_separator (fun hmem => by simpa using hname backslash hmem)
      (by simpa using h)]
    simp

theorem settlesOnMove_iff (item : LegacyListItem) :
    settlesOnMove item = true ↔ (movedItem item).plannedPath = (movedItem item).sourcePath := by
  rw [movedItem_plannedPath, movedItem_sourcePath]
  cases h : settlesOnMove item with
  | true => exact iff_of_true rfl (LegacyText.ext (rejoined_eq_of_settles h))
  | false =>
      refine iff_of_false Bool.false_ne_true fun heq => length_rejoined_ne h ?_
      exact congrArg (fun text : LegacyText => text.units.length) heq

theorem settlesOnMove_iff_len (item : LegacyListItem) :
    settlesOnMove item = true ↔ (movedItem item).plannedPath.len = item.plannedPath.len := by
  rw [movedItem_plannedPath]
  cases h : settlesOnMove item with
  | true => exact iff_of_true rfl (congrArg List.length (rejoined_eq_of_settles h))
  | false => exact iff_of_false Bool.false_ne_true (length_rejoined_ne h)

theorem units_set {items : List LegacyListItem} {index : ℕ} {item : LegacyListItem}
    (hitem : items[index]? = some item) (item' : LegacyListItem) :
    nameUnits (items.set index item') + item.proposedName.len =
        nameUnits items + item'.proposedName.len ∧
      pathUnits (items.set index item') + item.plannedPath.len =
        pathUnits items + item'.plannedPath.len := by
  obtain ⟨front, back, hsplit, rfl⟩ := exists_split hitem
  have hset : (front ++ item :: back).set front.length item' = front ++ item' :: back := by
    rw [List.set_append_right _ _ le_rfl, Nat.sub_self, List.set_cons_zero]
  rw [hsplit, hset]
  simp only [nameUnits_append, nameUnits_cons, pathUnits_append, pathUnits_cons]
  omega

namespace LegacyList

variable {list : LegacyList} {index : ℕ} {item : LegacyListItem}

/-- The list after a recorded move: the total of the planned paths is not touched. -/
def movedAt (list : LegacyList) (index : ℕ) (item : LegacyListItem) : LegacyList :=
  { list with
    items := list.items.set index (movedItem item)
    proposedNameUtf16Units := nameUnits (list.items.set index (movedItem item)) }

theorem units_le (hitem : list.items[index]? = some item) :
    item.proposedName.len ≤ nameUnits list.items ∧ nameUnits list.items + item.plannedPath.len ≤
      pathUnits list.items + item.proposedName.len := by
  obtain ⟨front, back, hsplit, -⟩ := exists_split hitem
  have hfront : nameUnits front ≤ pathUnits front := nameUnits_le_pathUnits
  have hback : nameUnits back ≤ pathUnits back := nameUnits_le_pathUnits
  rw [hsplit]
  simp only [nameUnits_append, nameUnits_cons, pathUnits_append, pathUnits_cons]
  omega

/-- Recording a move stays inside `usize`. -/
theorem Tallied.recordMoveSuccess (h : Tallied list) (fresh : ℕ)
    (hitem : list.items[index]? = some item) :
    list.recordMoveSuccess fresh index =
      some (true, (list.movedAt index item).invalidateSourceIndex fresh) := by
  have hnames := (units_set hitem (movedItem item)).1
  obtain ⟨hname, hpath⟩ := units_le hitem
  have hshort : (movedItem item).proposedName.len ≤ item.plannedPath.len :=
    pathName_len_le item.plannedPath
  have hle := h.pathUnits_le
  have hbefore := h.names
  have hsub : checkedSub list.proposedNameUtf16Units item.proposedName.len =
      some (list.proposedNameUtf16Units - item.proposedName.len) :=
    checkedSub_eq_some.2 ⟨by omega, rfl⟩
  have hadd : checkedAdd usizeMax (list.proposedNameUtf16Units - item.proposedName.len)
      (movedItem item).proposedName.len =
        some (nameUnits (list.items.set index (movedItem item))) :=
    checkedAdd_eq_some.2 ⟨by omega, by omega⟩
  simp only [LegacyList.recordMoveSuccess, hitem, hsub, hadd, Option.bind_eq_bind,
    Option.bind_some, movedAt]

/-- The totals stay exact exactly when the row is settled. -/
theorem Tallied.movedAt_iff (h : Tallied list) (hitem : list.items[index]? = some item) :
    Tallied (list.movedAt index item) ↔ settlesOnMove item = true := by
  have hpaths := (units_set hitem (movedItem item)).2
  rw [settlesOnMove_iff_len]
  refine ⟨fun htallied => ?_, fun hlen => ⟨rfl, ?_, h.paths_le⟩⟩
  · have hafter : list.plannedPathUtf16Units = pathUnits (list.items.set index (movedItem item)) :=
      htallied.paths
    rw [h.paths] at hafter
    omega
  · have hbefore := h.paths
    simp only [movedAt]
    omega

end LegacyList

/-! ### Rows that move cleanly -/

/-- A parent that ends in two separators keeps one when it is cut off. -/
def endsInTwoSeparators (units : List UInt16) : Bool :=
  match units.reverse with
  | last :: previous :: _ => isSeparator last && isSeparator previous
  | _ => false

/-- The planned path of a row with such a parent, cut in front of its name. -/
theorem plannedPath_cut {item : LegacyListItem}
    (hslash : item.destinationParent.units.getLast? ≠ some slash)
    (htwo : endsInTwoSeparators item.destinationParent.units = false) :
    ∃ front, item.plannedPath.units = front ++ backslash :: item.proposedName.units ∧
      front.getLast?.all fun unit => !isSeparator unit := by
  unfold LegacyListItem.plannedPath destinationSeparatorUnits
  split
  · rename_i hsep
    refine ⟨item.destinationParent.units, by simp, ?_⟩
    simpa using hsep
  · rename_i hsep
    rcases List.eq_nil_or_concat item.destinationParent.units with hnil | ⟨front, last, hlast⟩
    · simp [hnil] at hsep
    · rw [hlast] at hslash htwo hsep ⊢
      have hseparator : isSeparator last = true := by simpa using hsep
      obtain rfl : last = backslash := by
        rcases isSeparator_iff.1 hseparator with h | h
        · exact h
        · simp [h] at hslash
      refine ⟨front, by simp, ?_⟩
      rcases List.eq_nil_or_concat front with rfl | ⟨front', previous, rfl⟩
      · rfl
      · simpa [endsInTwoSeparators, hseparator] using htwo

namespace LegacyList

/-- A row that can be moved without a surprise about its name or its parent. -/
structure MovesCleanly (item : LegacyListItem) : Prop where
  name : backslash ∉ item.proposedName.units
  slash : item.destinationParent.units.getLast? ≠ some slash
  separators : endsInTwoSeparators item.destinationParent.units = false

theorem MovesCleanly.proposedName {item : LegacyListItem} (h : MovesCleanly item) :
    (movedItem item).proposedName = item.proposedName := by
  obtain ⟨front, hpath, -⟩ := plannedPath_cut h.slash h.separators
  have hplanned : item.plannedPath = ⟨front ++ backslash :: item.proposedName.units⟩ :=
    LegacyText.ext hpath
  simp only [movedItem, hplanned, pathName_cut h.name]

theorem MovesCleanly.settles {item : LegacyListItem} (h : MovesCleanly item) :
    settlesOnMove item = true := by
  obtain ⟨front, hpath, hfront⟩ := plannedPath_cut h.slash h.separators
  simpa [settlesOnMove, hpath, rposition_cut h.name] using hfront

/-- Both totals stay what they were. -/
theorem MovesCleanly.units_set {items : List LegacyListItem} {index : ℕ} {item : LegacyListItem}
    (h : MovesCleanly item) (hitem : items[index]? = some item) :
    nameUnits (items.set index (movedItem item)) = nameUnits items ∧
      pathUnits (items.set index (movedItem item)) = pathUnits items := by
  obtain ⟨hnames, hpaths⟩ := DarkReNamer.units_set hitem (movedItem item)
  rw [h.proposedName] at hnames
  rw [(settlesOnMove_iff_len item).1 h.settles] at hpaths
  exact ⟨Nat.add_right_cancel hnames, Nat.add_right_cancel hpaths⟩

end LegacyList

end DarkReNamer
