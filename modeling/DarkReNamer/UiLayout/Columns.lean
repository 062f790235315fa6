import DarkReNamer.UiLayout
import Mathlib.Logic.Function.Basic

/-!
# Widths of the primary columns

The allocation of the list's width to the columns for the current name, the proposed name and the
location. Plain additions of the source, which stop the program when they overflow, fail here.
-/

namespace DarkReNamer

namespace UiLayout

structure ColumnState where
  visible : Bool
  widthDip : I32
  userResized : Bool

def ColumnState.widthPx (column : ColumnState) (dpi : ℕ) : ℤ :=
  scaleDip clampI32 column.widthDip dpi

/-- The columns for the current name, the proposed name and the location. -/
inductive PrimaryColumn where
  | current
  | proposed
  | location
  deriving DecidableEq

/-- The seven columns: `columns[..3]` and `columns[3..]`. -/
structure ColumnStates where
  primary : PrimaryColumn → ColumnState
  optional : Fin 4 → ColumnState

abbrev PrimaryWidths : Type := PrimaryColumn → ℤ

def primaryColumns : List PrimaryColumn := [.current, .proposed, .location]

/-- A plain operation on `i32`. -/
def plain (n : ℤ) : Option ℤ := checked clampI32 n

/-- The sum of an iterator over `i32`. -/
def plainSum (terms : List ℤ) : Option ℤ :=
  terms.foldlM (fun total term => plain (total + term)) 0

/-- `NAME_COLUMN_MINIMUM` and `LOCATION_COLUMN_MINIMUM`. -/
def columnMinimum : PrimaryColumn → ℤ
  | .current | .proposed => 120
  | .location => 80

/-- `LIST_COLUMN_FIT_GUTTER_DIP`. -/
def listColumnFitGutterDip : ℤ := 1

/-- The `default_width` of the first three `COLUMNS`. -/
def columnDefaultWidth : PrimaryColumn → ℤ
  | .current | .proposed => 150
  | .location => 100

def minimumWidths (dpi : ℕ) : PrimaryWidths :=
  fun index => scaleDip clampI32 (columnMinimum index) dpi

def preferredWidths (dpi : ℕ) : PrimaryWidths :=
  fun index => scaleDip clampI32 (columnDefaultWidth index) dpi

def widthsOf (current proposed location : ℤ) : PrimaryWidths
  | .current => current
  | .proposed => proposed
  | .location => location

/-- Two shares of the surplus for each name and one for the location; the rest one by one. -/
def adaptivePrimaryColumnWidths (available : ℤ) (dpi : ℕ) : Option PrimaryWidths := do
  let available := max available 0
  let minimum := minimumWidths dpi
  let minimumTotal := minimum .current + minimum .proposed + minimum .location
  if available < minimumTotal then
    let location := min (minimum .location) available
    let namesAvailable ← plain (available - location)
    let current := (← plain (namesAvailable + 1)).tdiv 2
    return widthsOf current (← plain (namesAvailable - current)) location
  else
    let remaining := (checked clampI32 (available - minimumTotal)).getD 0
    let eachShare := remaining.tdiv 5
    let twoShares ← plain (eachShare * 2)
    let widths := widthsOf (← plain (minimum .current + twoShares))
      (← plain (minimum .proposed + twoShares)) (← plain (minimum .location + eachShare))
    (([PrimaryColumn.current, .proposed, .location, .current, .proposed]).take
      (remaining.tmod 5).toNat).foldlM
      (fun widths index => do
        return Function.update widths index (← plain (widths index + 1))) widths

section Allocate

variable (clientWidth statusWidth : I32) (dpi : ℕ) (columns : ColumnStates)

/-- The visible ones of `columns[3..]`. -/
def optionalColumns : List ColumnState :=
  (List.ofFn columns.optional).filter (·.visible)

/-- No primary column was resized and no optional one is visible. -/
def automaticDefaultLayout : Bool :=
  primaryColumns.all (fun index => !(columns.primary index).userResized) &&
    (optionalColumns columns).isEmpty

/-- The gutter that the default layout keeps free. -/
def gutter : ℤ :=
  if automaticDefaultLayout columns then max (scaleDip clampI32 listColumnFitGutterDip dpi) 1
  else 0

/-- What the status column, the optional columns and the gutter leave. -/
def primaryBudget : ℤ :=
  let optionalWidth := ((optionalColumns columns).map (·.widthPx dpi)).foldl
    (saturatingAdd clampI32) 0
  saturatingSub clampI32 (saturatingSub clampI32 (saturatingSub clampI32
    (max (clientWidth : ℤ) 0) (max (statusWidth : ℤ) 0)) optionalWidth) (gutter dpi columns)

/-- The stored width of a resized column, the minimum of another. -/
def startingWidths : PrimaryWidths := fun index =>
  if (columns.primary index).userResized then (columns.primary index).widthPx dpi
  else minimumWidths dpi index

end Allocate

section Distribute

variable (automatic : PrimaryColumn → Bool) (preferred : PrimaryWidths)

/-- The loop over the automatic names, with the remainder of the division. -/
def giveEach (each : ℤ) : List PrimaryColumn → PrimaryWidths → ℤ → Option PrimaryWidths
  | [], widths, _ => some widths
  | index :: names, widths, remainder => do
    let extra ← plain (each + if remainder > 0 then 1 else 0)
    giveEach each names
      (Function.update widths index (saturatingAdd clampI32 (widths index) extra))
      (saturatingSub clampI32 remainder 1)

/-- The names share what they lack up to their preferred widths. -/
def distributeNames (widths : PrimaryWidths) (remaining : ℤ) :
    Option (PrimaryWidths × ℤ) := do
  let names := [PrimaryColumn.current, .proposed].filter automatic
  if names.isEmpty || remaining ≤ 0 then some (widths, remaining)
  else
    let nameDeficit ← plainSum (names.map fun index =>
      saturatingSub clampI32 (preferred index) (widths index))
    let distributed := min remaining nameDeficit
    let widths ← giveEach (distributed.tdiv names.length) names widths
      (distributed.tmod names.length)
    return (widths, ← plain (remaining - distributed))

/-- The location takes what it lacks up to its preferred width. -/
def distributeLocation (widths : PrimaryWidths) (remaining : ℤ) :
    Option (PrimaryWidths × ℤ) := do
  if !automatic .location || remaining ≤ 0 then some (widths, remaining)
  else
    let distributed := min remaining
      (saturatingSub clampI32 (preferred .location) (widths .location))
    return (Function.update widths .location
        (saturatingAdd clampI32 (widths .location) distributed),
      ← plain (remaining - distributed))

/-- The last automatic column takes the rest. -/
def distributeRest (widths : PrimaryWidths) (remaining : ℤ) : PrimaryWidths :=
  if remaining ≤ 0 then widths
  else
    match primaryColumns.reverse.find? automatic with
    | none => widths
    | some index =>
      Function.update widths index (saturatingAdd clampI32 (widths index) remaining)

end Distribute

def allocatePrimaryColumnWidths (clientWidth statusWidth : I32) (dpi : ℕ)
    (columns : ColumnStates) : Option PrimaryWidths := do
  let budget := primaryBudget clientWidth statusWidth dpi columns
  let automatic := fun index => !(columns.primary index).userResized
  if primaryColumns.all automatic then
    if budget ≥ (← plainSum (primaryColumns.map (minimumWidths dpi))) then
      return ← adaptivePrimaryColumnWidths budget dpi
  let widths := startingWidths dpi columns
  let required := (primaryColumns.map widths).foldl (saturatingAdd clampI32) 0
  let remaining := saturatingSub clampI32 budget required
  let (widths, remaining) ← distributeNames automatic (preferredWidths dpi) widths remaining
  let (widths, remaining) ← distributeLocation automatic (preferredWidths dpi) widths remaining
  return distributeRest automatic widths remaining

end UiLayout

end DarkReNamer
