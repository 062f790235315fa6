import DarkReNamer.Slices.Numbered
import DarkReNamer.Workbench.Append
import DarkReNamer.Workbench.SourceChunks.Sorted

/-!
# Appending without an index

What an append is for: the incoming rows whose source no row of the list has are added behind
the others, by source, the later of two equal ones first. `appendBatchLinear` finds them by
looking through the whole list. An indexed append agrees with it as long as the allocator grants
what it is asked for, and otherwise changes nothing.
-/

namespace DarkReNamer

open Interaction Slices Std

variable (compareText : LegacyText → LegacyText → Ordering)

def compareSources (left right : LegacyListItem) : Ordering :=
  compareText left.sourcePath right.sourcePath

/-- The incoming rows that no row of the list duplicates; among themselves they may be equal. -/
def linearAccepted (items : List LegacyListItem) (list : LegacyList) : List LegacyListItem :=
  items.filter fun item =>
    !list.items.any fun existing => compareSources compareText existing item == .eq

/-- By source, and equal sources in the reverse of the order they came in. -/
def linearOrder (rows : List LegacyListItem) : List LegacyListItem :=
  rows.reverse.mergeSort (atMost (compareSources compareText))

/-- The list after an append that looks for duplicates row by row. -/
def appendBatchLinear (fresh : ℕ) (items : List LegacyListItem) (list : LegacyList) :
    Except ProposalMutationError ℕ × LegacyList :=
  let rows := linearOrder compareText (linearAccepted compareText items list)
  if rows.isEmpty then
    (.ok 0, list)
  else
    match validateAppend list rows with
    | .error error => (.error error, list)
    | .ok units =>
      (.ok rows.length,
        { list.invalidateSourceIndex fresh with
          items := list.items ++ rows
          proposedNameUtf16Units := units.names
          plannedPathUtf16Units := units.paths })

/-- Chunks that hold exactly the sources of a list. -/
structure Indexes (chunks : List (List LegacyText)) (list : LegacyList) : Prop where
  chunked : Chunked compareText chunks
  perm : chunks.flatten.Perm (list.items.map (·.sourcePath))

/-- An index that is current for a list, and rightly so. -/
structure BoundTo (index : LegacyAppendIndex) (list : LegacyList) : Prop where
  identity : index.modelIdentity = some list.identity
  revision : index.sourceRevision = list.sourceRevision
  indexes : Indexes compareText index.chunks list

instance [TransCmp compareText] : TransCmp (compareSources compareText) :=
  transCmp_on compareText LegacyListItem.sourcePath

variable {compareText}

theorem linearOrder_perm (rows : List LegacyListItem) :
    (linearOrder compareText rows).Perm rows :=
  (List.mergeSort_perm _ _).trans (List.reverse_perm rows)

theorem linearOrder_eq_nil {rows : List LegacyListItem} :
    linearOrder compareText rows = [] ↔ rows = [] := by
  rw [← List.length_eq_zero_iff, (linearOrder_perm rows).length_eq, List.length_eq_zero_iff]

section Linear

variable (alg : Slices.Algorithms) [TransCmp compareText] {list : LegacyList}

theorem linearOrder_ascending (rows : List LegacyListItem) :
    Ascending (compareSources compareText) (linearOrder compareText rows) :=
  ascending_mergeSort _

theorem filter_linearOrder (rows : List LegacyListItem) (key : LegacyListItem) :
    (linearOrder compareText rows).filter (fun row => compareSources compareText row key == .eq) =
      (rows.filter fun row => compareSources compareText row key == .eq).reverse := by
  rw [linearOrder, filter_mergeSort, List.filter_reverse]

theorem sortUnstableBy_accepted (rows : List LegacyListItem) :
    (alg.sortUnstableBy (compareAccepted compareText) (numbered 0 rows)).map (·.2) =
      linearOrder compareText rows := by
  have hsorted : (alg.sortUnstableBy (compareLaterFirst (compareSources compareText))
      (numbered 0 rows)).map (·.2) = linearOrder compareText rows :=
    alg.sortUnstableBy_numbered 0 rows
  exact hsorted

/-! ### Staging -/

/-- Looking into the chunks is looking through the list. -/
theorem Indexes.contains_eq {chunks : List (List LegacyText)}
    (h : Indexes compareText chunks list) (item : LegacyListItem) :
    sourceChunksContain alg compareText chunks item.sourcePath =
      list.items.any fun existing => compareSources compareText existing item == .eq := by
  rw [Bool.eq_iff_iff, h.chunked.contains_iff, List.any_eq_true]
  constructor
  · rintro ⟨source, hsource, heq⟩
    obtain ⟨existing, hexisting, rfl⟩ := List.mem_map.1 (h.perm.mem_iff.1 hsource)
    exact ⟨existing, hexisting, by simpa [compareSources] using heq⟩
  · rintro ⟨existing, hexisting, heq⟩
    exact ⟨existing.sourcePath, h.perm.mem_iff.2 (List.mem_map_of_mem hexisting),
      by simpa [compareSources] using heq⟩

theorem allocates_acceptRows {chunks : List (List LegacyText)}
    (h : Indexes compareText chunks list) (position : ℕ) (items : List LegacyListItem) :
    AllocatesOr .allocationFailed
      (fun r => r = .ok (numbered position (linearAccepted compareText items list)))
      (acceptRows alg compareText chunks position items) := by
  induction items generalizing position with
  | nil => exact .pure rfl
  | cons item items ih =>
      rw [acceptRows, h.contains_eq alg item]
      cases hany : list.items.any fun existing =>
          compareSources compareText existing item == .eq with
      | true =>
          rw [if_pos rfl, linearAccepted, List.filter_cons_of_neg (by simp [hany])]
          exact ih position
      | false =>
          rw [if_neg (by simp), linearAccepted, List.filter_cons_of_pos (by simp [hany])]
          refine .reserving_bind (.bind (ih (position + 1)) ?_ (by rintro e ⟨⟩))
          rintro accepted ⟨⟩
          exact .pure rfl

omit [TransCmp compareText] in
theorem allocates_cloneSources (items : List LegacyListItem) :
    AllocatesOr .allocationFailed (fun r => r = .ok (items.map (·.sourcePath)))
      (cloneSources items) := by
  induction items with
  | nil => exact .pure rfl
  | cons item items ih =>
      refine .bind (g := fun r => r = .ok item.sourcePath)
        (.reserving_bind (.pure rfl)) ?_ (by rintro e ⟨⟩)
      rintro source ⟨⟩
      refine .bind ih ?_ (by rintro e ⟨⟩)
      rintro sources ⟨⟩
      exact .pure rfl

theorem allocates_rebuildChunks (list : LegacyList) :
    AllocatesOr .allocationFailed (fun r => ∃ chunks, r = .ok chunks ∧
      Indexes compareText chunks list) (rebuildChunks alg compareText list.items) := by
  refine .reserving_bind (.bind (allocates_cloneSources list.items) ?_ (by rintro e ⟨⟩))
  rintro sources ⟨⟩
  refine Allocates.mono
    (allocates_tryChunkSortedSources (alg.sortUnstableBy_ascending compareText _)) ?_
  rintro r ⟨chunks, rfl, hchunked, hflatten⟩
  exact ⟨chunks, rfl, hchunked, hflatten ▸ alg.sortUnstableBy_perm compareText _⟩

/-- The chunks an append looks in hold the sources of the list. -/
theorem allocates_currentChunks {index : LegacyAppendIndex}
    (h : index.isCurrentFor list = true → Indexes compareText index.chunks list) :
    AllocatesOr .allocationFailed (fun r => ∃ rebuilt, r = .ok rebuilt ∧
      Indexes compareText (rebuilt.getD index.chunks) list)
      (currentChunks alg compareText index list) := by
  unfold currentChunks
  split
  · rename_i hcurrent
    exact .pure ⟨none, rfl, h hcurrent⟩
  · refine .bind_ok (allocates_rebuildChunks alg list) fun chunks hchunks => ?_
    exact .pure ⟨some chunks, rfl, hchunks⟩

/-- A staged append holds the rows that a linear append would add. -/
structure StagedAppend.Linear (staged : StagedAppend)
    (compareText : LegacyText → LegacyText → Ordering) (index : LegacyAppendIndex)
    (rows : List LegacyListItem) (list : LegacyList) : Prop where
  indexes : Indexes compareText (staged.rebuilt.getD index.chunks) list
  rows_eq : staged.accepted.map (·.2) = rows
  units_eq : validateAppend list rows = .ok staged.units
  sources_eq : staged.sources = rows.map (·.sourcePath)

/-- What staging ends with, if everything is granted. -/
def StagesLinear (compareText : LegacyText → LegacyText → Ordering) (index : LegacyAppendIndex)
    (rows : List LegacyListItem) (list : LegacyList) :
    Except ProposalMutationError (Option (List (List LegacyText)) × Option StagedAppend) → Prop
  | .error error => rows ≠ [] ∧ validateAppend list rows = .error error
  | .ok (rebuilt, none) => rows = [] ∧ Indexes compareText (rebuilt.getD index.chunks) list
  | .ok (_, some staged) =>
      rows ≠ [] ∧ staged.Linear compareText index rows list

theorem allocates_stageAppend {index : LegacyAppendIndex}
    (h : index.isCurrentFor list = true → Indexes compareText index.chunks list)
    (items : List LegacyListItem) :
    AllocatesOr .allocationFailed (StagesLinear compareText index
      (linearOrder compareText (linearAccepted compareText items list)) list)
      (stageAppend alg compareText index items list) := by
  refine .bind_ok (allocates_currentChunks alg h) fun rebuilt hindexes => ?_
  refine .bind (allocates_acceptRows alg hindexes 0 items) ?_ (by rintro e ⟨⟩)
  rintro accepted ⟨⟩
  have hrows : (alg.sortUnstableBy (compareAccepted compareText)
      (numbered 0 (linearAccepted compareText items list))).map (·.2) = _ :=
    sortUnstableBy_accepted alg _
  generalize linearAccepted compareText items list = rows at hrows ⊢
  cases rows with
  | nil =>
      exact .pure ⟨linearOrder_eq_nil.2 rfl, hindexes⟩
  | cons row rows =>
      have hne : linearOrder compareText (row :: rows) ≠ [] :=
        linearOrder_eq_nil.not.2 (List.cons_ne_nil row rows)
      rw [if_neg (by simp [numbered])]
      dsimp only
      rw [hrows]
      refine .bind (g := fun r => r = validateAppend list _) (.ofExcept rfl) ?_ ?_
      · intro units hunits
        refine .reserving_bind (.bind (allocates_cloneSources _) ?_ (by rintro e ⟨⟩))
        rintro sources ⟨⟩
        exact .reserving_bind (.pure ⟨hne, hindexes, hrows, hunits.symm, rfl⟩)
      · intro error herror
        exact ⟨hne, herror.symm⟩

/-! ### Writing -/

omit [TransCmp compareText] in
theorem Indexes.extended {chunks chunks' : List (List LegacyText)} {rows : List LegacyListItem}
    (h : Indexes compareText chunks list) (hchunked : Chunked compareText chunks')
    (hperm : chunks'.flatten.Perm (rows.map (·.sourcePath) ++ chunks.flatten))
    {list' : LegacyList} (hitems : list'.items = list.items ++ rows) :
    Indexes compareText chunks' list' where
  chunked := hchunked
  perm := by
    rw [hitems, List.map_append]
    exact hperm.trans ((h.perm.append_left _).trans List.perm_append_comm)

/-- What an append leaves of the index it was given: the index itself, beside the list as it
was, an index without a binding, or one that is bound to the list it leaves. -/
def LeavesIndex (compareText : LegacyText → LegacyText → Ordering) (index : LegacyAppendIndex)
    (list : LegacyList) (appended : Appended) : Prop :=
  appended.index = index ∧ appended.list = list ∨
    appended.index.modelIdentity = none ∨ BoundTo compareText appended.index appended.list

/-- The append as it is with everything granted. -/
structure AppendsLinear (compareText : LegacyText → LegacyText → Ordering) (fresh : ℕ)
    (index : LegacyAppendIndex) (items : List LegacyListItem) (list : LegacyList)
    (appended : Appended) : Prop where
  linear : (appended.result, appended.list) = appendBatchLinear compareText fresh items list
  leavesIndex : LeavesIndex compareText index list appended

/-- The append when something is refused. -/
structure AppendsNothing (compareText : LegacyText → LegacyText → Ordering)
    (index : LegacyAppendIndex) (list : LegacyList) (appended : Appended) : Prop where
  refused : appended.result = .error .allocationFailed
  unchanged : appended.list = list
  leavesIndex : LeavesIndex compareText index list appended

theorem allocates_commitAppend (fresh : ℕ) {index : LegacyAppendIndex} {staged : StagedAppend}
    {rows : List LegacyListItem}
    (h : staged.Linear compareText index rows list) :
    Allocates (fun appended => appended.result = .ok rows.length ∧
        appended.list = { list.invalidateSourceIndex fresh with
          items := list.items ++ rows
          proposedNameUtf16Units := staged.units.names
          plannedPathUtf16Units := staged.units.paths } ∧
        BoundTo compareText appended.index appended.list)
      (AppendsNothing compareText index list)
      (commitAppend alg compareText fresh index staged list) := by
  unfold commitAppend
  refine Allocates.bind (h.indexes.chunked.insertSources alg staged.sources) ?_ ?_
  · rintro r ⟨chunks, rfl, hchunked, hperm⟩
    rw [h.sources_eq] at hperm
    rw [h.rows_eq]
    refine ⟨by rw [← h.rows_eq, List.length_map], rfl, rfl, rfl, ?_⟩
    exact h.indexes.extended hchunked hperm rfl
  · rintro r rfl
    exact ⟨rfl, rfl, .inr (.inl rfl)⟩

theorem allocates_appendBatchIndexed (fresh : ℕ) {index : LegacyAppendIndex}
    (h : index.isCurrentFor list = true → Indexes compareText index.chunks list)
    (items : List LegacyListItem) :
    Allocates (AppendsLinear compareText fresh index items list)
      (AppendsNothing compareText index list)
      (appendBatchIndexed alg compareText fresh index items list) := by
  unfold appendBatchIndexed
  refine Allocates.bind (allocates_stageAppend alg h items) ?_ ?_
  · rintro (error | ⟨rebuilt, _ | staged⟩) hr
    · obtain ⟨hne, herror⟩ := hr
      exact ⟨by simp [appendBatchLinear, hne, herror], .inl ⟨rfl, rfl⟩⟩
    · obtain ⟨hnil, hindexes⟩ := hr
      have hlinear : (.ok 0, list) = appendBatchLinear compareText fresh items list := by
        simp [appendBatchLinear, hnil]
      cases rebuilt with
      | none => exact ⟨hlinear, .inl ⟨rfl, rfl⟩⟩
      | some rebuilt => exact ⟨hlinear, .inr (.inr ⟨rfl, rfl, hindexes⟩)⟩
    · obtain ⟨hne, hstaged⟩ := hr
      have hcommit : Allocates (AppendsLinear compareText fresh index items list)
          (AppendsNothing compareText index list)
          (commitAppend alg compareText fresh index staged list) := by
        refine Allocates.mono (allocates_commitAppend alg fresh hstaged) ?_
        rintro ⟨result, index', list'⟩ ⟨rfl, rfl, hbound⟩
        exact ⟨by simp [appendBatchLinear, hne, hstaged.units_eq], .inr (.inr hbound)⟩
      cases rebuilt with
      | none => exact hcommit
      | some rebuilt => exact hcommit
  · rintro r rfl
    exact ⟨rfl, rfl, .inl ⟨rfl, rfl⟩⟩

end Linear

end DarkReNamer
