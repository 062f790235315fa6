import DarkReNamer.Core.ListItem
import DarkReNamer.Core.WindowsLeafName
import DarkReNamer.Rename.Model
import Mathlib.Data.Finset.Sort
import Std.Data.ExtTreeMap

/-!
# Preview caches

The diagnostics shown beside the rows (`preview.rs`): a full refresh computes them for
the whole list, and the refresh after an edit of one row touches only the rows that had,
or now have, the same destination as that row. Keys are shared between the rows and the
groups in the source; here they are values. The texts that the interface makes of a
cache are left out.
-/

namespace DarkReNamer

open Std

/-- Cached model-only portion of the preview counts. -/
structure PreviewCountCache where
  total : ℕ
  changed : ℕ
  deriving DecidableEq, Repr

namespace PreviewCountCache

def refresh (changes : List PlannedChangeKind) : PreviewCountCache :=
  changes.foldl (fun cache change =>
    ⟨cache.total + 1, cache.changed + if change.isChanged then 1 else 0⟩) ⟨0, 0⟩

/-- The count after one row has gone from one state to another. -/
def nextChanged (changed : ℕ) : Bool → Bool → Option ℕ
  | false, true => some (changed + 1)
  | true, false => if changed = 0 then none else some (changed - 1)
  | _, _ => some changed

/-- Updates the changed count for one row; refused where it contradicts the cache. -/
def refreshOne (cache : PreviewCountCache) (modelLen : ℕ)
    (previousChanged currentChanged : Bool) : Bool × PreviewCountCache :=
  if cache.total ≠ modelLen then (false, cache)
  else
    match (nextChanged cache.changed previousChanged currentChanged).filter
        fun changed => changed ≤ cache.total with
    | none => (false, cache)
    | some changed => (true, ⟨cache.total, changed⟩)

end PreviewCountCache

/-- Warning or blocker attached to one row. -/
inductive PreviewRowIssue where
  | none
  | emptyStem
  | invalidName (error : WindowsLeafNameError)
  | duplicateDestination
  deriving DecidableEq, Repr

structure CachedPreviewRow where
  destinationKey : PathKey
  baseIssue : PreviewRowIssue
  issue : PreviewRowIssue
  change : PlannedChangeKind
  deriving DecidableEq, Repr

structure PreviewRowInput where
  parent : LegacyText
  current : LegacyText
  proposed : LegacyText
  isDirectory : Bool
  change : PlannedChangeKind
  deriving DecidableEq, Repr

/-- What one edit has changed. -/
structure PreviewIssueUpdate where
  affectedRows : List ℕ
  previousChanged : Bool
  currentChanged : Bool
  deriving DecidableEq, Repr

/-- The groups of rows by destination. -/
abbrev DestinationRows : Type := ExtTreeMap PathKey (Finset ℕ)

/-- Cached preview-only diagnostics. -/
structure PreviewIssueCache where
  initialized : Bool
  rows : List CachedPreviewRow
  destinationRows : DestinationRows
  warningRows : ℕ
  invalidNameRows : ℕ
  duplicateDestinationRows : ℕ
  blockerRows : ℕ

def previewNameHasEmptyStem (name : LegacyText) (isDirectory : Bool) : Bool :=
  if isDirectory then name.isEmpty
  else rposition (· == dot) name.units == some 0

def previewBaseIssue (proposed : LegacyText) (isDirectory : Bool)
    (change : PlannedChangeKind) : PreviewRowIssue :=
  if !change.renames then .none
  else
    match validateWindowsLeafName proposed with
    | .error error => .invalidName error
    | .ok () => if previewNameHasEmptyStem proposed isDirectory then .emptyStem else .none

def resolvedPreviewIssue (baseIssue : PreviewRowIssue) (change : PlannedChangeKind)
    (colliding : Bool) : PreviewRowIssue :=
  match baseIssue with
  | .invalidName error => .invalidName error
  | _ => if change.isChanged && colliding then .duplicateDestination else baseIssue

namespace DestinationRows

def insertRow (groups : DestinationRows) (key : PathKey) (row : ℕ) : DestinationRows :=
  match groups[key]? with
  | some group => groups.insert key (insert row group)
  | none => groups.insert key {row}

/-- Takes a row out of its group, and the group away when that leaves it empty. -/
def removeRow (groups : DestinationRows) (key : PathKey) (row : ℕ) : DestinationRows :=
  match groups[key]? with
  | some group =>
      if group.erase row = ∅ then groups.erase key else groups.insert key (group.erase row)
  | none => groups

def isColliding (groups : DestinationRows) (key : PathKey) : Bool :=
  match groups[key]? with
  | some group => 1 < group.card
  | none => false

end DestinationRows

namespace PreviewIssueCache

def empty : PreviewIssueCache := ⟨false, [], ∅, 0, 0, 0, 0⟩

/-- The counters after one more row with the issue. -/
def addIssue (cache : PreviewIssueCache) : PreviewRowIssue → PreviewIssueCache
  | .none => cache
  | .emptyStem => { cache with warningRows := cache.warningRows + 1 }
  | .invalidName _ => { cache with invalidNameRows := cache.invalidNameRows + 1 }
  | .duplicateDestination =>
      { cache with duplicateDestinationRows := cache.duplicateDestinationRows + 1 }

/-- The counters after one row less with the issue. -/
def removeIssue (cache : PreviewIssueCache) : PreviewRowIssue → PreviewIssueCache
  | .none => cache
  | .emptyStem => { cache with warningRows := cache.warningRows - 1 }
  | .invalidName _ => { cache with invalidNameRows := cache.invalidNameRows - 1 }
  | .duplicateDestination =>
      { cache with duplicateDestinationRows := cache.duplicateDestinationRows - 1 }

def setIssue (cache : PreviewIssueCache) (row : ℕ) (issue : PreviewRowIssue) :
    PreviewIssueCache :=
  { cache with rows := cache.rows.modify row fun cached => { cached with issue := issue } }

def sumBlockers (cache : PreviewIssueCache) : PreviewIssueCache :=
  { cache with blockerRows := cache.invalidNameRows + cache.duplicateDestinationRows }

/-- Enters one row of a full refresh. -/
def pushRow (destinationKey : LegacyText → LegacyText → PathKey) (next : PreviewIssueCache)
    (input : PreviewRowInput) : PreviewIssueCache :=
  let baseIssue := previewBaseIssue input.proposed input.isDirectory input.change
  let key := destinationKey input.parent input.proposed
  { next with
    rows := next.rows ++ [⟨key, baseIssue, baseIssue, input.change⟩]
    destinationRows := next.destinationRows.insertRow key next.rows.length }

/-- Resolves one row of a full refresh and counts its issue. -/
def resolveRow (colliding : Bool) (next : PreviewIssueCache) (row : ℕ) : PreviewIssueCache :=
  match next.rows[row]? with
  | none => next
  | some cached =>
      let issue := resolvedPreviewIssue cached.baseIssue cached.change colliding
      (next.setIssue row issue).addIssue issue

def refreshBy (destinationKey : LegacyText → LegacyText → PathKey)
    (rows : List PreviewRowInput) : PreviewIssueCache :=
  let next := rows.foldl (pushRow destinationKey) { empty with initialized := true }
  let groups := next.destinationRows.toList.map Prod.snd
  let next := groups.foldl (fun next group =>
    (group.sort (· ≤ ·)).foldl (resolveRow (decide (1 < group.card))) next) next
  next.sumBlockers

def replaceIssue (cache : PreviewIssueCache) (row : ℕ) (issue : PreviewRowIssue) :
    PreviewIssueCache :=
  match cache.rows[row]? with
  | none => cache
  | some cached =>
      if cached.issue = issue then cache
      else ((cache.removeIssue cached.issue).addIssue issue).setIssue row issue

/-- Resolves one affected row after an edit. -/
def settleRow (cache : PreviewIssueCache) (row : ℕ) : PreviewIssueCache :=
  match cache.rows[row]? with
  | none => cache
  | some cached =>
      cache.replaceIssue row (resolvedPreviewIssue cached.baseIssue cached.change
        (cache.destinationRows.isColliding cached.destinationKey))

/-- The rows whose issue an edit can change: those that had the destination of the row
and, where it has a new one, those that have it now. -/
def affectedRows (oldGroup : Finset ℕ) (groups : DestinationRows) (oldKey newKey : PathKey) :
    Finset ℕ :=
  if oldKey = newKey then oldGroup
  else
    match groups[newKey]? with
    | some newGroup => oldGroup ∪ newGroup
    | none => oldGroup

/-- The cache after an edit has moved the row to its group, before issues are settled. -/
def editRow (cache : PreviewIssueCache) (row : ℕ) (oldKey newKey : PathKey)
    (values : PreviewRowInput) : PreviewIssueCache :=
  { cache with
    destinationRows :=
      if oldKey = newKey then cache.destinationRows
      else (cache.destinationRows.removeRow oldKey row).insertRow newKey row
    rows := cache.rows.modify row fun cached =>
      { cached with
        destinationKey := newKey
        baseIssue := previewBaseIssue values.proposed values.isDirectory values.change
        change := values.change } }

/-- Refreshes one row after an edit; `none` asks for a full refresh and changes nothing.
The source looks the old group up a second time before it takes the row out, which
cannot fail any more. -/
def refreshOneBy (cache : PreviewIssueCache) (modelLen row : ℕ) (values : PreviewRowInput)
    (destinationKey : LegacyText → LegacyText → PathKey) :
    Option PreviewIssueUpdate × PreviewIssueCache :=
  if !cache.initialized || cache.rows.length ≠ modelLen || row ≥ modelLen then (none, cache)
  else
    match cache.rows[row]? with
    | none => (none, cache)
    | some cached =>
        match cache.destinationRows[cached.destinationKey]?.filter fun group => row ∈ group with
        | none => (none, cache)
        | some oldGroup =>
            let newKey := destinationKey values.parent values.proposed
            let edited := cache.editRow row cached.destinationKey newKey values
            let affected := (affectedRows oldGroup edited.destinationRows cached.destinationKey
              newKey).sort (· ≤ ·)
            (some ⟨affected, cached.change.isChanged, values.change.isChanged⟩,
              (affected.foldl settleRow edited).sumBlockers)

end PreviewIssueCache

end DarkReNamer
