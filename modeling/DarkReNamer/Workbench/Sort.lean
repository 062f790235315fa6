import DarkReNamer.Slices.Standard
import DarkReNamer.Workbench.LegacyList
import Mathlib.Data.Finset.Card

/-!
# Sorting the rows

The rows are sorted through their positions: a stable sort orders the positions, and the rows
are then moved to them cycle by cycle, in place. A position that has been filled is marked by
its own number.
-/

namespace DarkReNamer

/-- The ten sort choices. -/
inductive LegacySortMode where
  | nameAscending
  | nameDescending
  | fullPathAscending
  | fullPathDescending
  | sizeAscending
  | sizeDescending
  | modifiedAscending
  | modifiedDescending
  | createdAscending
  | createdDescending
  deriving DecidableEq

/-- File-size ordering policy layered over the legacy sort choices. -/
inductive SortSemantics where
  | safeActualSize
  | legacyDarkNamer080210
  deriving DecidableEq

/-- The sign of the wrapping 32-bit difference. -/
def compareLegacySize (left right : UInt32) : Ordering := compare (left - right).toInt32 0

def compareItems (mode : LegacySortMode) (semantics : SortSemantics)
    (compareText : LegacyText → LegacyText → Ordering) (left right : LegacyListItem) : Ordering :=
  let compareSize := match semantics with
    | .safeActualSize => compare left.actualSize right.actualSize
    | .legacyDarkNamer080210 => compareLegacySize left.size right.size
  match mode with
  | .nameAscending => compareText left.currentName right.currentName
  | .nameDescending => (compareText left.currentName right.currentName).swap
  | .fullPathAscending => compareText left.sourcePath right.sourcePath
  | .fullPathDescending => (compareText left.sourcePath right.sourcePath).swap
  | .sizeAscending => compareSize
  | .sizeDescending => compareSize.swap
  | .modifiedAscending => compare left.modified right.modified
  | .modifiedDescending => (compare left.modified right.modified).swap
  | .createdAscending => compare left.created right.created
  | .createdDescending => (compare left.created right.created).swap

section Cycles

variable {α : Type}

/-- The positions of `order` that are not marked as filled. -/
def pending (order : List ℕ) : Finset ℕ :=
  (Finset.range order.length).filter fun position => order[position]? ≠ some position

theorem pending_set_ssubset {order : List ℕ} {current next : ℕ}
    (h : order[current]? = some next) (hne : next ≠ current) :
    pending (order.set current current) ⊂ pending order := by
  have hlt : current < order.length := (List.getElem?_eq_some_iff.1 h).1
  have hpending : current ∈ pending order := by
    rw [pending, Finset.mem_filter, Finset.mem_range, h]
    exact ⟨hlt, by simpa using hne⟩
  refine Finset.ssubset_iff_of_subset ?_ |>.2 ⟨current, hpending, ?_⟩
  · intro position
    simp only [pending, Finset.mem_filter, Finset.mem_range, List.length_set]
    rintro ⟨hposition, hunfilled⟩
    refine ⟨hposition, ?_⟩
    by_cases heq : current = position
    · subst heq
      simp [hposition] at hunfilled
    · rwa [List.getElem?_set_ne heq] at hunfilled
  · simp [pending, hlt]

/-- Fills `current` and what follows it on its cycle, which started at `start`. -/
def followCycle (start : ℕ) (order : List ℕ) (items : List α) (current : ℕ) :
    Option (List ℕ × List α) :=
  match _h : order[current]? with
  | none => none
  | some next =>
    if next = current then
      some (order, items)
    else if next = start then
      some (order.set current current, items)
    else do
      let items ← swapRows items current next
      followCycle start (order.set current current) items next
termination_by (pending order).card
decreasing_by exact Finset.card_lt_card (pending_set_ssubset _h ‹_›)

theorem followCycle_eq {start : ℕ} {order : List ℕ} {items : List α} {current next : ℕ}
    (hnext : order[current]? = some next) : followCycle start order items current =
      if next = current then some (order, items)
      else if next = start then some (order.set current current, items)
      else (swapRows items current next).bind fun items =>
        followCycle start (order.set current current) items next := by
  rw [followCycle]
  split
  · simp_all
  · rename_i next' hnext'
    obtain rfl : next' = next := by simpa [hnext'] using hnext
    rfl

/-- Moves every row to its place; `order[destination]` is its original position. -/
def placeRows (order : List ℕ) (items : List α) : Option (List α) := do
  let (_, items) ← (List.range order.length).foldlM
    (fun (state : List ℕ × List α) start => followCycle start state.1 state.2 start) (order, items)
  some items

end Cycles

namespace LegacyList

variable (alg : Slices.Algorithms)

/-- Compares two positions by their rows; every position that is compared has one. -/
def comparePositions (items : List LegacyListItem)
    (compare : LegacyListItem → LegacyListItem → Ordering) (left right : ℕ) : Ordering :=
  match items[left]?, items[right]? with
  | some left, some right => compare left right
  | some _, none => .lt
  | none, some _ => .gt
  | none, none => .eq

def sortByWithSemanticsChanged (list : LegacyList) (mode : LegacySortMode)
    (semantics : SortSemantics) (compareText : LegacyText → LegacyText → Ordering) :
    Option (Bool × LegacyList) := do
  let order := alg.sortBy
    (comparePositions list.items (compareItems mode semantics compareText))
    (List.range list.items.length)
  if order = List.range order.length then
    some (false, list)
  else do
    let items ← placeRows order list.items
    some (true, { list with items := items })

end LegacyList

end DarkReNamer
