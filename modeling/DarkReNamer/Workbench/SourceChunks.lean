import DarkReNamer.Slices.Standard
import DarkReNamer.Workbench.Staging

/-!
# Chunks of sorted sources

The sources an append index remembers, sorted and cut into chunks of bounded length. A source
is looked for in the first chunk whose last element is not below it; a full chunk is split in
two before an insertion.
-/

namespace DarkReNamer

open Interaction

def appendIndexChunkCapacity : ℕ := 128

section Search

variable (alg : Slices.Algorithms) (compareText : LegacyText → LegacyText → Ordering)

/-- The first chunk whose last element is not below `source`. -/
def chunkIndexFor (chunks : List (List LegacyText)) (source : LegacyText) : ℕ :=
  alg.partitionPoint
    (fun chunk => chunk.getLast?.all fun last => compareText last source == .lt) chunks

def sourceChunksContain (chunks : List (List LegacyText)) (source : LegacyText) : Bool :=
  (chunks[chunkIndexFor alg compareText chunks source]?).any fun chunk =>
    (alg.binarySearchBy (fun existing => compareText existing source) chunk).isOk

/-- Where `source` goes: a chunk and a position in it, or a new chunk behind the others. -/
def insertionLocation (chunks : List (List LegacyText)) (source : LegacyText) : ℕ × ℕ :=
  let chunkIndex := chunkIndexFor alg compareText chunks source
  match chunks[chunkIndex]? with
  | none =>
    match chunks.getLast? with
    | none => (0, 0)
    | some last =>
      if last.length < appendIndexChunkCapacity then (chunks.length - 1, last.length)
      else (chunks.length, 0)
  | some chunk =>
    match alg.binarySearchBy (fun existing => compareText existing source) chunk with
    | .ok position => (chunkIndex, position)
    | .error position => (chunkIndex, position)

/-- The two halves a full chunk is split into, with `source` inserted at `position`. -/
def splitInsert (chunk : List LegacyText) (position : ℕ) (source : LegacyText) :
    List (List LegacyText) :=
  let splitAt := appendIndexChunkCapacity / 2
  if position < splitAt then
    [(chunk.take splitAt).insertIdx position source, chunk.drop splitAt]
  else
    [chunk.take splitAt, (chunk.drop splitAt).insertIdx (position - splitAt) source]

def tryInsertSource (chunks : List (List LegacyText)) (source : LegacyText) :
    Staging ProposalMutationError (List (List LegacyText)) := do
  let (chunkIndex, position) := insertionLocation alg compareText chunks source
  match chunks[chunkIndex]? with
  | none =>
    reserving .allocationFailed (.tryReserveExact appendIndexChunkCapacity)
    reserving .allocationFailed (.tryReserve 1)
    return chunks ++ [[source]]
  | some chunk =>
    if chunk.length < appendIndexChunkCapacity then
      return chunks.set chunkIndex (chunk.insertIdx position source)
    else
      reserving .allocationFailed (.tryReserveExact appendIndexChunkCapacity)
      reserving .allocationFailed (.tryReserve 1)
      return chunks.take chunkIndex ++ splitInsert chunk position source ++
        chunks.drop (chunkIndex + 1)

def insertSources (chunks : List (List LegacyText)) :
    List LegacyText → Staging ProposalMutationError (List (List LegacyText))
  | [] => return chunks
  | source :: sources => do
    let chunks ← tryInsertSource alg compareText chunks source
    insertSources chunks sources

end Search

/-- Cuts sorted sources into full chunks and a last one of what remains. -/
def chunkSources (sources : List LegacyText) :
    Staging ProposalMutationError (List (List LegacyText)) :=
  match sources with
  | [] => return []
  | first :: rest => do
    reserving .allocationFailed (.tryReserveExact appendIndexChunkCapacity)
    let chunks ← chunkSources (rest.drop (appendIndexChunkCapacity - 1))
    return (first :: rest.take (appendIndexChunkCapacity - 1)) :: chunks
termination_by sources.length
decreasing_by
  simp only [List.length_drop, List.length_cons]
  omega

def tryChunkSortedSources (sources : List LegacyText) :
    Staging ProposalMutationError (List (List LegacyText)) := do
  -- One reservation for the outer vector, of as many chunks as will be needed.
  reserving .allocationFailed
    (.tryReserveExact
      ((sources.length + appendIndexChunkCapacity - 1) / appendIndexChunkCapacity))
  chunkSources sources

end DarkReNamer
