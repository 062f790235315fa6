import DarkReNamer.Workbench.Append.Linear
import DarkReNamer.Workbench.Sources
import DarkReNamer.Workbench.Totals
import Mathlib.Logic.Relation

/-!
# Indices that follow their lists

Any number of lists and append indices, all with one comparator, in any order of list
operations, clones and appends. An index remembers the identity of a list and the revision it
has last seen. Revisions only grow under one identity, and no identity is given twice, so that
an index which agrees with a list in both has missed no change of its sources.
-/

namespace DarkReNamer

open Interaction LegacyList Slices Std

/-- The lists and the indices there are, and the identity that is given next. -/
structure Workspace where
  lists : List LegacyList
  indices : List LegacyAppendIndex
  nextIdentity : ℕ

namespace Workspace

def empty : Workspace := ⟨[], [], 0⟩

inductive Step (alg : Slices.Algorithms) (compareText : LegacyText → LegacyText → Ordering) :
    Workspace → Workspace → Prop
  | newList (ws : Workspace) : Step alg compareText ws
      { ws with
        lists := ws.lists ++ [.new ws.nextIdentity]
        nextIdentity := ws.nextIdentity + 1 }
  | cloneList {ws : Workspace} {list : LegacyList} (hlist : list ∈ ws.lists) :
      Step alg compareText ws
        { ws with
          lists := ws.lists ++ [list.clone ws.nextIdentity]
          nextIdentity := ws.nextIdentity + 1 }
  | newIndex (ws : Workspace) :
      Step alg compareText ws { ws with indices := ws.indices ++ [.new] }
  -- Totals that leave `usize` wrap around where arithmetic is not checked.
  | wrapTotals {ws : Workspace} {i : ℕ} {list : LegacyList} (hlist : ws.lists[i]? = some list)
      (names paths : ℕ) : Step alg compareText ws
        { ws with
          lists := ws.lists.set i
            { list with proposedNameUtf16Units := names, plannedPathUtf16Units := paths }
          nextIdentity := ws.nextIdentity + 1 }
  | perform {ws : Workspace} {i : ℕ} {list list' : LegacyList} {command : Command}
      {outcome : Outcome} {trace : List (Event Reservation Granted)}
      (hlist : ws.lists[i]? = some list)
      (run : Runs allocator (command.perform alg ws.nextIdentity list) () trace
        (some (some (outcome, list'))) ()) : Step alg compareText ws
        { ws with lists := ws.lists.set i list', nextIdentity := ws.nextIdentity + 1 }
  | append {ws : Workspace} {i k : ℕ} {list : LegacyList} {index : LegacyAppendIndex}
      {items : List LegacyListItem} {appended : Appended}
      {trace : List (Event Reservation Granted)}
      (hlist : ws.lists[i]? = some list) (hindex : ws.indices[k]? = some index)
      (run : Runs allocator
        (appendBatchIndexed alg compareText ws.nextIdentity index items list) () trace
        (some appended) ()) : Step alg compareText ws
        { lists := ws.lists.set i appended.list
          indices := ws.indices.set k appended.index
          nextIdentity := ws.nextIdentity + 1 }

/-- The workspaces that come of any interleaving. -/
def Reachable (alg : Slices.Algorithms) (compareText : LegacyText → LegacyText → Ordering)
    (ws : Workspace) : Prop :=
  Relation.ReflTransGen (Step alg compareText) empty ws

end Workspace

variable {compareText : LegacyText → LegacyText → Ordering}

/-- What an index knows of a list under the identity it is bound to. -/
structure Knows (compareText : LegacyText → LegacyText → Ordering) (index : LegacyAppendIndex)
    (list : LegacyList) : Prop where
  revision_le : index.modelIdentity = some list.identity →
    index.sourceRevision ≤ list.sourceRevision
  indexes : index.isCurrentFor list = true → Indexes compareText index.chunks list

section Knows

variable {index : LegacyAppendIndex} {list list' : LegacyList} {fresh : ℕ}

theorem isCurrentFor_iff : index.isCurrentFor list = true ↔
    index.sourceRevision = list.sourceRevision ∧ index.modelIdentity = some list.identity := by
  simp [LegacyAppendIndex.isCurrentFor]

/-- An index that is bound to no list or to another one. -/
theorem Knows.of_ne (h : index.modelIdentity ≠ some list.identity) :
    Knows compareText index list :=
  ⟨fun hsame => absurd hsame h, fun hcurrent => absurd (isCurrentFor_iff.1 hcurrent).2 h⟩

theorem BoundTo.knows (h : BoundTo compareText index list) : Knows compareText index list :=
  ⟨fun _ => h.revision.le, fun _ => h.indexes⟩

/-- No effect on the sources escapes an index. -/
theorem Knows.sourceEffect (h : Knows compareText index list)
    (hfresh : index.modelIdentity ≠ some fresh) (heffect : SourceEffect fresh list list') :
    Knows compareText index list' := by
  cases heffect with
  | kept identity revision perm =>
      refine ⟨fun hsame => ?_, fun hcurrent => ?_⟩
      · rw [revision]
        exact h.revision_le (identity ▸ hsame)
      · rw [isCurrentFor_iff, identity, revision, ← isCurrentFor_iff] at hcurrent
        have hindexes := h.indexes hcurrent
        exact ⟨hindexes.chunked, hindexes.perm.trans perm.symm⟩
  | renewed identity revision =>
      unfold invalidateSourceIndex at identity revision
      split at identity
      · rename_i next hnext
        simp only [hnext] at identity revision
        have hlt : list.sourceRevision < list'.sourceRevision := by
          rw [revision, (checkedAdd_eq_some.1 hnext).2]
          exact Nat.lt_succ_self _
        refine ⟨fun hsame => ?_, fun hcurrent => ?_⟩
        · exact (h.revision_le (identity ▸ hsame)).trans hlt.le
        · obtain ⟨hrevision, hsame⟩ := isCurrentFor_iff.1 hcurrent
          have hle := h.revision_le (identity ▸ hsame)
          omega
      · exact .of_ne (identity ▸ hfresh)

theorem SourceEffect.identity_eq (heffect : SourceEffect fresh list list') :
    list'.identity = list.identity ∨ list'.identity = fresh := by
  cases heffect with
  | kept identity => exact .inl identity
  | renewed identity =>
      unfold invalidateSourceIndex at identity
      split at identity
      · exact .inl identity
      · exact .inr identity

end Knows

namespace Workspace

structure Consistent (compareText : LegacyText → LegacyText → Ordering) (ws : Workspace) :
    Prop where
  identity_lt : ∀ list ∈ ws.lists, list.identity < ws.nextIdentity
  distinct : (ws.lists.map (·.identity)).Nodup
  bound_lt : ∀ index ∈ ws.indices, ∀ identity, index.modelIdentity = some identity →
    identity < ws.nextIdentity
  knows : ∀ index ∈ ws.indices, ∀ list ∈ ws.lists, Knows compareText index list

namespace Consistent

variable {ws : Workspace} {list list' : LegacyList} {index : LegacyAppendIndex}

theorem ne_nextIdentity (h : Consistent compareText ws) (hindex : index ∈ ws.indices) :
    index.modelIdentity ≠ some ws.nextIdentity :=
  fun hbound => Nat.lt_irrefl _ (h.bound_lt index hindex _ hbound)

theorem nextIdentity_notMem (h : Consistent compareText ws) :
    ws.nextIdentity ∉ ws.lists.map (·.identity) := by
  intro hmem
  obtain ⟨list, hlist, heq⟩ := List.mem_map.1 hmem
  exact Nat.ne_of_lt (h.identity_lt list hlist) heq

theorem bound_lt_succ (h : Consistent compareText ws) (hindex : index ∈ ws.indices)
    (identity : ℕ) (hbound : index.modelIdentity = some identity) :
    identity < ws.nextIdentity + 1 :=
  Nat.lt_succ_of_lt (h.bound_lt index hindex identity hbound)

/-- A list with the next identity joins the others. -/
theorem push (h : Consistent compareText ws) (hidentity : list.identity = ws.nextIdentity) :
    Consistent compareText
      { ws with lists := ws.lists ++ [list], nextIdentity := ws.nextIdentity + 1 } where
  identity_lt := by
    intro list' hlist'
    rcases List.mem_append.1 hlist' with hlist' | hlist'
    · exact Nat.lt_succ_of_lt (h.identity_lt list' hlist')
    · rw [List.mem_singleton.1 hlist', hidentity]
      exact Nat.lt_succ_self _
  distinct := by
    rw [List.map_append, List.nodup_append]
    refine ⟨h.distinct, List.nodup_singleton _, fun a ha b hb => ?_⟩
    obtain rfl : b = ws.nextIdentity := by simpa [hidentity] using hb
    exact fun heq => h.nextIdentity_notMem (heq ▸ ha)
  bound_lt := fun _ hindex => h.bound_lt_succ hindex
  knows := by
    intro index hindex list' hlist'
    rcases List.mem_append.1 hlist' with hlist' | hlist'
    · exact h.knows index hindex list' hlist'
    · rw [List.mem_singleton.1 hlist']
      exact .of_ne (hidentity ▸ h.ne_nextIdentity hindex)

/-- A list is changed under its indices. -/
theorem setList (h : Consistent compareText ws) {i : ℕ} (hlist : ws.lists[i]? = some list)
    (heffect : SourceEffect ws.nextIdentity list list') :
    Consistent compareText
      { ws with lists := ws.lists.set i list', nextIdentity := ws.nextIdentity + 1 } where
  identity_lt := by
    intro list'' hlist''
    rcases List.mem_or_eq_of_mem_set hlist'' with hlist'' | rfl
    · exact Nat.lt_succ_of_lt (h.identity_lt list'' hlist'')
    · rcases heffect.identity_eq with heq | heq
      · rw [heq]
        exact Nat.lt_succ_of_lt (h.identity_lt list (List.mem_of_getElem? hlist))
      · rw [heq]
        exact Nat.lt_succ_self _
  distinct := by
    rw [List.map_set]
    rcases heffect.identity_eq with heq | heq
    · obtain ⟨hlt, hget⟩ := List.getElem?_eq_some_iff.1 hlist
      have hmap : i < (ws.lists.map LegacyList.identity).length := by simpa using hlt
      have hsame := List.set_getElem_self hmap
      rw [List.getElem_map, hget, ← heq] at hsame
      rw [hsame]
      exact h.distinct
    · exact h.distinct.set (heq ▸ h.nextIdentity_notMem)
  bound_lt := fun _ hindex => h.bound_lt_succ hindex
  knows := by
    intro index hindex list'' hlist''
    rcases List.mem_or_eq_of_mem_set hlist'' with hlist'' | rfl
    · exact h.knows index hindex list'' hlist''
    · exact (h.knows index hindex list (List.mem_of_getElem? hlist)).sourceEffect
        (h.ne_nextIdentity hindex) heffect

/-- An index that knows every list there is takes the place of another. -/
theorem setIndex (h : Consistent compareText ws) (k : ℕ)
    (hbound : ∀ identity, index.modelIdentity = some identity → identity < ws.nextIdentity)
    (hknows : ∀ list ∈ ws.lists, Knows compareText index list) :
    Consistent compareText { ws with indices := ws.indices.set k index } where
  identity_lt := h.identity_lt
  distinct := h.distinct
  bound_lt := by
    intro index' hindex'
    rcases List.mem_or_eq_of_mem_set hindex' with hindex' | rfl
    · exact h.bound_lt index' hindex'
    · exact hbound
  knows := by
    intro index' hindex'
    rcases List.mem_or_eq_of_mem_set hindex' with hindex' | rfl
    · exact h.knows index' hindex'
    · exact hknows

/-- An index that is bound to one of the lists takes the place of another. -/
theorem bindIndex (h : Consistent compareText ws) (k : ℕ) (hlist : list ∈ ws.lists)
    (hbound : BoundTo compareText index list) :
    Consistent compareText { ws with indices := ws.indices.set k index } := by
  refine h.setIndex k (fun identity hidentity => ?_) fun list' hlist' => ?_
  · rw [hbound.identity] at hidentity
    cases hidentity
    exact h.identity_lt list hlist
  · by_cases hsame : list'.identity = list.identity
    · obtain rfl := List.inj_on_of_nodup_map h.distinct hlist' hlist hsame
      exact hbound.knows
    · exact .of_ne (by simpa [hbound.identity] using fun heq => hsame heq.symm)

end Consistent

end Workspace

theorem appendBatchLinear_sources (compareText : LegacyText → LegacyText → Ordering) (fresh : ℕ)
    (items : List LegacyListItem) (list : LegacyList) :
    SourceEffect fresh list (appendBatchLinear compareText fresh items list).2 := by
  unfold appendBatchLinear
  dsimp only
  split
  · exact .refl fresh list
  · split
    · exact .refl fresh list
    · exact .renewed rfl rfl

/-- A linear append that succeeds leaves its rows behind the others. -/
theorem appendBatchLinear_ok {fresh : ℕ} {items : List LegacyListItem} {list list' : LegacyList}
    {count : ℕ} (h : appendBatchLinear compareText fresh items list = (.ok count, list')) :
    list'.items = list.items ++ linearOrder compareText (linearAccepted compareText items list) ∧
      (linearOrder compareText (linearAccepted compareText items list)).length = count := by
  unfold appendBatchLinear at h
  dsimp only at h
  split at h
  · rename_i hempty
    cases h
    simp [List.isEmpty_iff.1 hempty]
  · split at h
    · cases h
    · cases h
      exact ⟨rfl, rfl⟩

namespace Workspace

variable (alg : Slices.Algorithms) [TransCmp compareText] {ws ws' : Workspace}

theorem Consistent.append (h : Consistent compareText ws) {i k : ℕ} {list : LegacyList}
    {index : LegacyAppendIndex} {items : List LegacyListItem} {appended : Appended}
    {trace : List (Event Reservation Granted)} (hlist : ws.lists[i]? = some list)
    (hindex : ws.indices[k]? = some index)
    (run : Runs allocator
      (appendBatchIndexed alg compareText ws.nextIdentity index items list) () trace
      (some appended) ()) :
    Consistent compareText
      { lists := ws.lists.set i appended.list
        indices := ws.indices.set k appended.index
        nextIdentity := ws.nextIdentity + 1 } := by
  have hknows := h.knows index (List.mem_of_getElem? hindex) list (List.mem_of_getElem? hlist)
  have hspec := Confined.of_runs
    (allocates_appendBatchIndexed alg ws.nextIdentity hknows.indexes items).confined run
  obtain ⟨heffect, hleaves⟩ : SourceEffect ws.nextIdentity list appended.list ∧
      LeavesIndex compareText index list appended := by
    rcases hspec with hlinear | hnothing
    · have hsources := appendBatchLinear_sources compareText ws.nextIdentity items list
      rw [← hlinear.linear] at hsources
      exact ⟨hsources, hlinear.leavesIndex⟩
    · exact ⟨hnothing.unchanged ▸ .refl _ _, hnothing.leavesIndex⟩
  have hset := h.setList hlist heffect
  have hlt : i < ws.lists.length := (List.getElem?_eq_some_iff.1 hlist).1
  rcases hleaves with ⟨hsame, -⟩ | hnone | hbound
  · obtain ⟨hk, hget⟩ := List.getElem?_eq_some_iff.1 hindex
    rw [hsame, ← hget, List.set_getElem_self]
    exact hset
  · exact hset.setIndex k (fun identity hidentity => by rw [hnone] at hidentity; cases hidentity)
      fun list' _ => .of_ne (by simp [hnone])
  · exact hset.bindIndex k (List.mem_set hlt _) hbound

theorem Step.consistent (h : Consistent compareText ws) (step : Step alg compareText ws ws') :
    Consistent compareText ws' := by
  cases step with
  | newList => exact h.push rfl
  | cloneList hlist => exact h.push rfl
  | newIndex =>
      exact
        { identity_lt := h.identity_lt
          distinct := h.distinct
          bound_lt := by
            intro index hindex identity hidentity
            rcases List.mem_append.1 hindex with hindex | hindex
            · exact h.bound_lt index hindex identity hidentity
            · rw [List.mem_singleton.1 hindex] at hidentity
              cases hidentity
          knows := by
            intro index hindex list hlist
            rcases List.mem_append.1 hindex with hindex | hindex
            · exact h.knows index hindex list hlist
            · rw [List.mem_singleton.1 hindex]
              exact .of_ne (by simp [LegacyAppendIndex.new]) }
  | wrapTotals hlist names paths => exact h.setList hlist (.of_eq rfl rfl rfl)
  | perform hlist run =>
      exact h.setList hlist
        (Confined.of_runs (perform_affectsSources alg ws.nextIdentity _ _) run _ _ rfl)
  | append hlist hindex run => exact h.append alg hlist hindex run

theorem Reachable.consistent (h : Reachable alg compareText ws) : Consistent compareText ws := by
  induction h with
  | refl =>
      exact
        { identity_lt := by simp [empty]
          distinct := by simp [empty]
          bound_lt := by simp [empty]
          knows := by simp [empty] }
  | tail _ step ih => exact step.consistent alg ih

end Workspace

/-- Lists and indices that were built in any interleaving: an index that is current for a list
holds its sources, in order, in chunks that are neither empty nor too long. With it, with a new
index and without one an append does the same, unless the allocator refuses something; then it
changes nothing. The accepted rows go behind the others, by source, and those with equal
sources, none of which is dropped, in the reverse of the order they came in. -/
theorem append_agrees_with_scan (alg : Slices.Algorithms) [TransCmp compareText] {ws : Workspace}
    (h : ws.Reachable alg compareText) {index : LegacyAppendIndex} (hindex : index ∈ ws.indices)
    {list : LegacyList} (hlist : list ∈ ws.lists) :
    (index.isCurrentFor list = true →
      Ascending compareText index.chunks.flatten ∧ index.chunks.flatten.Perm list.sources ∧
        ∀ chunk ∈ index.chunks, chunk ≠ [] ∧ chunk.length ≤ 128) ∧
    ∀ (fresh : ℕ) (items : List LegacyListItem),
      (∀ used ∈ [index, .new], Allocates
        (fun appended => (appended.result, appended.list) =
          appendBatchLinear compareText fresh items list)
        (fun appended => appended.result = .error .allocationFailed ∧ appended.list = list)
        (appendBatchIndexed alg compareText fresh used items list)) ∧
      ∀ count list', appendBatchLinear compareText fresh items list = (.ok count, list') →
        ∃ rows, list'.items = list.items ++ rows ∧ rows.length = count ∧
          rows.Perm (linearAccepted compareText items list) ∧
          Ascending (compareSources compareText) rows ∧
          ∀ key, rows.filter (fun row => compareSources compareText row key == .eq) =
            ((linearAccepted compareText items list).filter fun row =>
              compareSources compareText row key == .eq).reverse := by
  have hknows := h.consistent.knows index hindex list hlist
  refine ⟨fun hcurrent => ?_, fun fresh items => ⟨?_, ?_⟩⟩
  · obtain ⟨hchunked, hperm⟩ := hknows.indexes hcurrent
    exact ⟨hchunked.ascending, hperm,
      fun chunk hchunk => ⟨hchunked.nonempty chunk hchunk, hchunked.le_capacity chunk hchunk⟩⟩
  · intro used hused
    have hindexes : used.isCurrentFor list = true → Indexes compareText used.chunks list := by
      rcases List.mem_pair.1 hused with rfl | rfl
      · exact hknows.indexes
      · intro hcurrent
        cases (isCurrentFor_iff.1 hcurrent).2
    exact ((allocates_appendBatchIndexed alg fresh hindexes items).mono
      fun appended happended => happended.linear).mono_refused
        fun appended happended => ⟨happended.refused, happended.unchanged⟩
  · intro count list' hlinear
    refine ⟨linearOrder compareText (linearAccepted compareText items list), ?_, ?_,
      linearOrder_perm _, linearOrder_ascending _, filter_linearOrder _⟩
    · exact (appendBatchLinear_ok hlinear).1
    · exact (appendBatchLinear_ok hlinear).2

/-- One file appended to an empty list, with every reservation granted. -/
def oneFile : Appended :=
  ((appendBatchIndexed .reference compareUnits 1 .new
    [.newWithActualSize (.ofAscii "C:\\a.txt") false 0 0 0 0] (.new 0)).run
      (fun _ _ => (true, ())) ()).1

/-- The workspace in which it was appended. -/
def tracked : Workspace := ⟨[oneFile.list], [oneFile.index], 2⟩

theorem reachable_tracked :
    tracked.Reachable .reference compareUnits := by
  refine .tail (.tail (.tail .refl (.newList .empty)) (.newIndex _)) ?_
  exact .append (i := 0) (k := 0) rfl rfl (Runs.of_run (fun _ _ => trivial) _ _)

/-- The file again, and another one. -/
def incoming : List LegacyListItem :=
  [.newWithActualSize (.ofAscii "C:\\a.txt") false 0 0 0 0,
    .newWithActualSize (.ofAscii "C:\\b.txt") false 0 0 0 0]

theorem append_agrees_with_scan_tracked :
    oneFile.index.chunks.flatten.Perm oneFile.list.sources ∧ oneFile.list.sources.length = 1 ∧
      ∃ rows : List LegacyListItem, rows.length = 1 ∧ rows.Perm
        (linearAccepted compareUnits incoming oneFile.list) := by
  have hindex : oneFile.index ∈ tracked.indices := List.mem_singleton.2 rfl
  have hlist : oneFile.list ∈ tracked.lists := List.mem_singleton.2 rfl
  obtain ⟨hcurrent, happend⟩ :=
    append_agrees_with_scan .reference reachable_tracked hindex hlist
  have hlinear : (appendBatchLinear compareUnits 2 incoming
      oneFile.list).1.toOption = some 1 := by decide +kernel
  cases hresult : appendBatchLinear compareUnits 2 incoming
      oneFile.list with
  | mk result list' =>
      cases result with
      | error error => simp [hresult, Except.toOption] at hlinear
      | ok count =>
          obtain rfl : count = 1 := by simpa [hresult, Except.toOption] using hlinear
          obtain ⟨rows, -, hlength, hperm, -⟩ := (happend 2 incoming).2 1 list' hresult
          exact ⟨(hcurrent (by decide +kernel)).2.1, by decide +kernel, rows, hlength, hperm⟩

end DarkReNamer
