import DarkReNamer.Core.LegacyText

/-!
# Rows of the list

One row of the list (`LegacyListItem`): where its entry is, what it is called now, and
which name and parent are proposed for it. Only a backslash cuts a path into a parent
and a name; a slash ends a parent, but is never looked for inside a path.
-/

namespace DarkReNamer

section Position

variable {α : Type} {p : α → Bool}

/-- The last position at which `p` holds. -/
def rposition (p : α → Bool) : List α → Option ℕ
  | [] => none
  | a :: l =>
      match rposition p l with
      | some i => some (i + 1)
      | none => if p a then some 0 else none

theorem rposition_eq_none {l : List α} : rposition p l = none ↔ ∀ a ∈ l, p a = false := by
  induction l with
  | nil => simp [rposition]
  | cons a l ih =>
      rw [rposition]
      cases hl : rposition p l with
      | some i =>
          rw [hl] at ih
          have hsome := mt ih.2 (by simp)
          simp [fun h => hsome h]
      | none =>
          have hnone := ih.1 hl
          simpa using fun _ => hnone

theorem rposition_append (front : List α) {a : α} {back : List α} (ha : p a = true)
    (hback : ∀ b ∈ back, p b = false) :
    rposition p (front ++ a :: back) = some front.length := by
  induction front with
  | nil => simp [rposition, rposition_eq_none.2 hback, ha]
  | cons b front ih => simp [rposition, ih]

/-- The last position cuts the list where nothing behind it satisfies `p`. -/
theorem exists_of_rposition_eq_some {l : List α} {i : ℕ} (h : rposition p l = some i) :
    ∃ front a back, l = front ++ a :: back ∧ front.length = i ∧ p a = true ∧
      ∀ b ∈ back, p b = false := by
  induction l generalizing i with
  | nil => simp [rposition] at h
  | cons a l ih =>
      rw [rposition] at h
      cases hl : rposition p l with
      | some j =>
          rw [hl] at h
          obtain ⟨front, b, back, hsplit, hlength, hb, hback⟩ := ih hl
          exact ⟨a :: front, b, back, by simp [hsplit], by simpa [hlength] using h, hb, hback⟩
      | none =>
          rw [hl] at h
          by_cases ha : p a
          · exact ⟨[], a, l, rfl, by simpa [ha] using h, ha, rposition_eq_none.1 hl⟩
          · simp [ha] at h

end Position

/-- The parent of a path: what stands before its last backslash, which a root keeps. -/
def sourceParentUnits (path : List UInt16) : List UInt16 :=
  match rposition (· == backslash) path with
  | none => []
  | some index =>
      let preservesRootSeparator :=
        index == 0 || (path.take index).getLast?.any (· == 58)
      path.take (index + if preservesRootSeparator then 1 else 0)

def pathRoot (path : LegacyText) : LegacyText := ⟨sourceParentUnits path.units⟩

/-- The name of a path: what follows its last backslash. -/
def pathName (path : LegacyText) : LegacyText :=
  match rposition (· == backslash) path.units with
  | none => path
  | some index => ⟨path.units.drop (index + 1)⟩

/-- The separators that have to be put between a parent and a name. -/
def destinationSeparatorUnits (parent : List UInt16) : ℕ :=
  if parent.getLast?.all fun unit => !isSeparator unit then 1 else 0

/-- One row of the list. -/
structure LegacyListItem where
  sourcePath : LegacyText
  currentName : LegacyText
  proposedName : LegacyText
  destinationParent : LegacyText
  isDirectory : Bool
  size : UInt32
  actualSize : UInt64
  created : UInt64
  modified : UInt64
  deriving DecidableEq, Repr

/-- User-visible kind of an exact planned path change. -/
inductive PlannedChangeKind where
  | none
  | rename
  | move
  | moveAndRename
  deriving DecidableEq, Repr

namespace PlannedChangeKind

def isChanged : PlannedChangeKind → Bool
  | .none => false
  | _ => true

def renames : PlannedChangeKind → Bool
  | .rename | .moveAndRename => true
  | _ => false

end PlannedChangeKind

namespace LegacyListItem

def newWithActualSize (sourcePath : LegacyText) (isDirectory : Bool) (size : UInt32)
    (actualSize created modified : UInt64) : LegacyListItem where
  sourcePath := sourcePath
  currentName := pathName sourcePath
  proposedName := pathName sourcePath
  destinationParent := pathRoot sourcePath
  isDirectory := isDirectory
  size := size
  actualSize := actualSize
  created := created
  modified := modified

/-- The exact destination of the row. -/
def plannedPath (item : LegacyListItem) : LegacyText :=
  if destinationSeparatorUnits item.destinationParent.units ≠ 0 then
    ⟨item.destinationParent.units ++ [backslash] ++ item.proposedName.units⟩
  else
    ⟨item.destinationParent.units ++ item.proposedName.units⟩

end LegacyListItem

end DarkReNamer
