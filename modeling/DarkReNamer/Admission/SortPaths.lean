import DarkReNamer.Admission
import DarkReNamer.Slices.BottomUp

/-!
# Sorting paths on an index array

The sort of the source works on two arrays of indices, one read and one written in each pass,
and moves the paths only at the end, through slots that are emptied one by one. An index outside
its array stops the program. Nothing that happens between two probes depends on what they
answer, so the sort is a number of probes followed by a sort without any; the arrays stay within
their bounds, and the vector keeps the original paths until the last probe.
-/

namespace DarkReNamer

open Interaction

namespace Admission

/-- How sorting stops before its end. -/
inductive SortStop where
  | cancelled
  | outOfBounds
  deriving DecidableEq

abbrev Sorting (P α : Type) : Type :=
  ExceptT SortStop (Program (AdmissionCall P) AdmissionAnswer) α

namespace IndexSort

variable {P : Type}

def poll : Sorting P Unit := do
  let requested : Bool ←
    liftM (Program.ask (A := AdmissionAnswer) (AdmissionCall.cancellationRequested (P := P)))
  if requested then throw .cancelled else pure ()

/-- `array[i]`. -/
def load {α : Type} (array : List α) (i : ℕ) : Sorting P α :=
  match array[i]? with
  | none => throw .outOfBounds
  | some a => pure a

/-- `array[i] = a`. -/
def store {α : Type} (array : List α) (i : ℕ) (a : α) : Sorting P (List α) :=
  if i < array.length then pure (array.set i a) else throw .outOfBounds

/-- The variables of the merging loops. -/
structure Positions where
  left : ℕ
  right : ℕ
  output : ℕ

section Merge

variable (comparePaths : P → P → Ordering) (paths : List P) (order : List ℕ)

/-- The loop over both runs. -/
def mergeBoth (middle stop : ℕ) (positions : Positions) (merged : List ℕ) :
    Sorting P (Positions × List ℕ) :=
  if _h : positions.left < middle ∧ positions.right < stop then do
    poll
    let leftPath ← load paths (← load order positions.left)
    let rightPath ← load paths (← load order positions.right)
    if comparePaths leftPath rightPath ≠ .gt then
      let merged ← store merged positions.output (← load order positions.left)
      mergeBoth middle stop
        ⟨positions.left + 1, positions.right, positions.output + 1⟩ merged
    else
      let merged ← store merged positions.output (← load order positions.right)
      mergeBoth middle stop
        ⟨positions.left, positions.right + 1, positions.output + 1⟩ merged
  else
    pure (positions, merged)
termination_by (middle - positions.left) + (stop - positions.right)

/-- The loop over what is left of one run, which ends at `limit`. -/
def copyRest (limit source output : ℕ) (merged : List ℕ) : Sorting P (ℕ × List ℕ) :=
  if _h : source < limit then do
    poll
    let merged ← store merged output (← load order source)
    copyRest limit (source + 1) (output + 1) merged
  else
    pure (output, merged)
termination_by limit - source

/-- The loops over two neighbouring runs. -/
def mergeRuns (middle stop : ℕ) (positions : Positions) (merged : List ℕ) :
    Sorting P (List ℕ) := do
  let (positions, merged) ← mergeBoth comparePaths paths order middle stop positions merged
  let (output, merged) ← copyRest order middle positions.left positions.output merged
  let (_, merged) ← copyRest order stop positions.right output merged
  pure merged

/-- One pass over all runs from `start` on. A vector is never longer than `usize` counts. -/
def mergePass (hlen : paths.length ≤ usizeMax) (width : ℕ) (hwidth : 0 < width) (start : ℕ)
    (merged : List ℕ) : Sorting P (List ℕ) :=
  if _h : start < paths.length then do
    let middle := min (saturatingAdd usizeMax start width) paths.length
    let stop := min (saturatingAdd usizeMax middle width) paths.length
    let merged ← mergeRuns comparePaths paths order middle stop ⟨start, middle, start⟩ merged
    mergePass hlen width hwidth stop merged
  else
    pure merged
termination_by paths.length - start
decreasing_by
  unfold saturatingAdd
  omega

end Merge

theorem lt_saturatingMul_two {len width : ℕ} (hlen : len ≤ usizeMax) (hwidth : 0 < width)
    (h : width < len) : width < saturatingMul usizeMax width 2 := by
  unfold saturatingMul
  omega

/-- Passes of doubling width; the arrays change their parts after each. -/
def mergePasses (comparePaths : P → P → Ordering) (paths : List P)
    (hlen : paths.length ≤ usizeMax) (width : ℕ) (hwidth : 0 < width) (order merged : List ℕ) :
    Sorting P (List ℕ) :=
  if h : width < paths.length then do
    let merged ← mergePass comparePaths paths order hlen width hwidth 0 merged
    mergePasses comparePaths paths hlen (saturatingMul usizeMax width 2)
      (hwidth.trans (lt_saturatingMul_two hlen hwidth h)) merged order
  else
    pure order
termination_by paths.length - width
decreasing_by
  have hlt := lt_saturatingMul_two hlen hwidth h
  omega

/-- The paths at the indices, each taken out of its slot. -/
def takeSlots : List ℕ → List (Option P) → List P
  | [], _ => []
  | index :: order, slots =>
    match slots[index]? with
    | some (some path) => path :: takeSlots order (slots.set index none)
    | _ => takeSlots order slots

/-- What `sort_paths_cancellable` returns, and the vector it leaves. -/
def sortPathsCancellable (comparePaths : P → P → Ordering) (paths : List P)
    (hlen : paths.length ≤ usizeMax) :
    Program (AdmissionCall P) AdmissionAnswer (Except SortStop Unit × List P) :=
  if paths.length < 2 then do
    let result ← (poll (P := P)).run
    return (result, paths)
  else do
    let result ← (do
      let order ← mergePasses comparePaths paths hlen 1 Nat.one_pos
        (List.range paths.length) (List.replicate paths.length 0)
      poll
      pure order : Sorting P (List ℕ)).run
    match result with
    | .error stop => return (.error stop, paths)
    | .ok order => return (.ok (), takeSlots order (paths.map some))

end IndexSort

end Admission

end DarkReNamer
