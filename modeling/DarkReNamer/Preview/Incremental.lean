import DarkReNamer.Preview
import Mathlib.Data.List.Induction

/-!
# The incremental preview

A cache represents a list of rows when each of its rows is what the full refresh makes
of it, its groups are the sets of rows with one destination, and each counter is the
number of rows whose issue it counts. The list determines such a cache. The full
refresh makes it, and the refresh after an edit of one row keeps it for the edited list,
so the two never differ.
-/

namespace DarkReNamer

open Std

variable {destinationKey : LegacyText → LegacyText → PathKey}

section Groups

variable {inputs : List PreviewRowInput} {groups : DestinationRows}

def PreviewRowInput.key (destinationKey : LegacyText → LegacyText → PathKey)
    (input : PreviewRowInput) : PathKey :=
  destinationKey input.parent input.proposed

/-- The rows with a destination. -/
def members (destinationKey : LegacyText → LegacyText → PathKey)
    (inputs : List PreviewRowInput) (key : PathKey) : Finset ℕ :=
  (Finset.range inputs.length).filter fun row =>
    inputs[row]?.map (PreviewRowInput.key destinationKey) = some key

theorem mem_members {key : PathKey} {row : ℕ} : row ∈ members destinationKey inputs key ↔
    ∃ input, inputs[row]? = some input ∧ input.key destinationKey = key := by
  rw [members, Finset.mem_filter, Finset.mem_range, Option.map_eq_some_iff]
  constructor
  · exact And.right
  · intro h
    obtain ⟨input, hinput, hkey⟩ := h
    exact ⟨(List.getElem?_eq_some_iff.1 hinput).1, input, hinput, hkey⟩

theorem members_append_singleton (input : PreviewRowInput) (key : PathKey) :
    members destinationKey (inputs ++ [input]) key =
      if input.key destinationKey = key then
        insert inputs.length (members destinationKey inputs key)
      else members destinationKey inputs key := by
  ext row
  have hmem : row ∈ members destinationKey (inputs ++ [input]) key ↔
      row ∈ members destinationKey inputs key ∨
        row = inputs.length ∧ input.key destinationKey = key := by
    rw [mem_members, mem_members]
    rcases Nat.lt_trichotomy row inputs.length with h | h | h
    · simp [List.getElem?_append_left h, h.ne]
    · simp [h]
    · have hshort : (inputs ++ [input]).length ≤ row := by
        rw [List.length_append]
        exact h
      simp [List.getElem?_eq_none hshort, List.getElem?_eq_none h.le, h.ne']
  rw [hmem]
  split
  · next hkey => simp [hkey, or_comm]
  · next hkey => simp [hkey]

theorem members_set {row : ℕ} (hrow : row < inputs.length) (values : PreviewRowInput)
    (key : PathKey) : members destinationKey (inputs.set row values) key =
      if values.key destinationKey = key then
        insert row (members destinationKey inputs key)
      else (members destinationKey inputs key).erase row := by
  ext other
  have hmem : other ∈ members destinationKey (inputs.set row values) key ↔
      other ≠ row ∧ other ∈ members destinationKey inputs key ∨
        other = row ∧ values.key destinationKey = key := by
    rw [mem_members, mem_members]
    by_cases h : other = row
    · simp [h, hrow]
    · simp [h, List.getElem?_set_ne (Ne.symm h)]
  rw [hmem]
  split
  · next hkey => by_cases h : other = row <;> simp [hkey, h]
  · next hkey => simp [hkey]

/-- A group as the map holds it: an empty one has no entry. -/
def groupOf (rows : Finset ℕ) : Option (Finset ℕ) := if rows = ∅ then none else some rows

theorem getD_groupOf (rows : Finset ℕ) : (groupOf rows).getD ∅ = rows := by
  by_cases h : rows = ∅ <;> simp [groupOf, h]

theorem groupOf_insert (row : ℕ) (rows : Finset ℕ) :
    groupOf (insert row rows) = some (insert row rows) :=
  if_neg (Finset.insert_ne_empty row rows)

namespace DestinationRows

theorem getElem?_insertRow (groups : DestinationRows) (key other : PathKey) (row : ℕ) :
    (groups.insertRow key row)[other]? =
      if key = other then some (insert row (groups[other]?.getD ∅)) else groups[other]? := by
  have hkey : compare key other = .eq ↔ key = other := LawfulEqCmp.compare_eq_iff_eq
  rw [insertRow]
  cases hgroup : groups[key]? with
  | none =>
      rw [ExtTreeMap.getElem?_insert]
      simp only [hkey]
      by_cases h : key = other
      · subst h
        simp [hgroup]
      · simp [h]
  | some group =>
      rw [ExtTreeMap.getElem?_insert]
      simp only [hkey]
      by_cases h : key = other
      · subst h
        simp [hgroup]
      · simp [h]

theorem getElem?_removeRow (groups : DestinationRows) (key other : PathKey) (row : ℕ) :
    (groups.removeRow key row)[other]? =
      if key = other then groupOf ((groups[other]?.getD ∅).erase row) else groups[other]? := by
  have hkey : compare key other = .eq ↔ key = other := LawfulEqCmp.compare_eq_iff_eq
  rw [removeRow]
  cases hgroup : groups[key]? with
  | none =>
      by_cases h : key = other
      · subst h
        simp [hgroup, groupOf]
      · simp [h]
  | some group =>
      dsimp only
      split
      · next hempty =>
          rw [ExtTreeMap.getElem?_erase]
          simp only [hkey]
          by_cases h : key = other
          · subst h
            simp [hgroup, hempty, groupOf]
          · simp [h]
      · next hne =>
          rw [ExtTreeMap.getElem?_insert]
          simp only [hkey]
          by_cases h : key = other
          · subst h
            simp [hgroup, hne, groupOf]
          · simp [h]

end DestinationRows

/-- The groups of a list of rows. -/
def Groups (destinationKey : LegacyText → LegacyText → PathKey) (inputs : List PreviewRowInput)
    (groups : DestinationRows) : Prop :=
  ∀ key : PathKey, groups[key]? = groupOf (members destinationKey inputs key)

namespace Groups

theorem push (h : Groups destinationKey inputs groups) (input : PreviewRowInput) :
    Groups destinationKey (inputs ++ [input])
      (groups.insertRow (input.key destinationKey) inputs.length) := by
  intro key
  rw [DestinationRows.getElem?_insertRow, members_append_singleton]
  split
  · rw [h key, getD_groupOf, groupOf_insert]
  · exact h key

theorem isColliding (h : Groups destinationKey inputs groups) (key : PathKey) :
    groups.isColliding key = decide (1 < (members destinationKey inputs key).card) := by
  rw [DestinationRows.isColliding, h key]
  by_cases hempty : members destinationKey inputs key = ∅ <;> simp [groupOf, hempty]

variable {row : ℕ} {input values : PreviewRowInput}

/-- The groups after an edit of one row. -/
theorem edit (h : Groups destinationKey inputs groups) (hrow : inputs[row]? = some input)
    (values : PreviewRowInput) : Groups destinationKey (inputs.set row values)
      (if input.key destinationKey = values.key destinationKey then groups
        else (groups.removeRow (input.key destinationKey) row).insertRow
          (values.key destinationKey) row) := by
  have hlt : row < inputs.length := (List.getElem?_eq_some_iff.1 hrow).1
  have hmem : ∀ key, row ∈ members destinationKey inputs key ↔
      input.key destinationKey = key := by
    intro key
    simp [mem_members, hrow]
  intro key
  rw [members_set hlt]
  split
  · next hsame =>
      rw [h key]
      split
      · next hkey => rw [Finset.insert_eq_self.2 ((hmem key).2 (hsame.trans hkey))]
      · next hkey =>
          rw [Finset.erase_eq_self.2 fun hrow => hkey (hsame.symm.trans ((hmem key).1 hrow))]
  · next hne =>
      rw [DestinationRows.getElem?_insertRow]
      split
      · next hkey =>
          rw [DestinationRows.getElem?_removeRow, if_neg (hkey ▸ hne), h key, getD_groupOf,
            groupOf_insert]
      · next hkey =>
          rw [DestinationRows.getElem?_removeRow, h key]
          split
          · rw [getD_groupOf]
          · next hold => rw [Finset.erase_eq_self.2 fun hrow => hold ((hmem key).1 hrow)]

end Groups

end Groups

section Counters

namespace PreviewIssueCache

variable {get : PreviewIssueCache → ℕ} {counted : PreviewRowIssue → Bool}
  {cache : PreviewIssueCache} {row : ℕ}

def issues (cache : PreviewIssueCache) : List PreviewRowIssue :=
  cache.rows.map CachedPreviewRow.issue

/-- A counter of the cache and the issues it counts. -/
structure IsCounter (get : PreviewIssueCache → ℕ) (counted : PreviewRowIssue → Bool) :
    Prop where
  zero : get empty = 0
  congr : ∀ cache cache' : PreviewIssueCache, cache.warningRows = cache'.warningRows →
    cache.invalidNameRows = cache'.invalidNameRows →
    cache.duplicateDestinationRows = cache'.duplicateDestinationRows → get cache = get cache'
  add : ∀ (cache : PreviewIssueCache) issue,
    get (cache.addIssue issue) = get cache + if counted issue then 1 else 0
  remove : ∀ (cache : PreviewIssueCache) issue,
    get (cache.removeIssue issue) = get cache - if counted issue then 1 else 0

theorem isCounter_warningRows : IsCounter warningRows fun issue => issue = .emptyStem where
  zero := rfl
  congr := fun _ _ h _ _ => h
  add := fun _ issue => by cases issue <;> simp [addIssue]
  remove := fun _ issue => by cases issue <;> simp [removeIssue]

theorem isCounter_invalidNameRows :
    IsCounter invalidNameRows fun issue => issue matches .invalidName _ where
  zero := rfl
  congr := fun _ _ _ h _ => h
  add := fun _ issue => by cases issue <;> simp [addIssue]
  remove := fun _ issue => by cases issue <;> simp [removeIssue]

theorem isCounter_duplicateDestinationRows :
    IsCounter duplicateDestinationRows fun issue => issue = .duplicateDestination where
  zero := rfl
  congr := fun _ _ _ _ h => h
  add := fun _ issue => by cases issue <;> simp [addIssue]
  remove := fun _ issue => by cases issue <;> simp [removeIssue]

/-- The rows of a set whose issue is counted. -/
def tally (counted : PreviewRowIssue → Bool) (issues : List PreviewRowIssue)
    (rows : Finset ℕ) : ℕ :=
  (rows.filter fun row => issues[row]?.any counted).card

theorem tally_insert {issues : List PreviewRowIssue} {rows : Finset ℕ} (hrow : row ∉ rows) :
    tally counted issues (insert row rows) =
      tally counted issues rows + if issues[row]?.any counted then 1 else 0 := by
  rw [tally, Finset.filter_insert]
  split
  · rw [Finset.card_insert_of_notMem fun h => hrow (Finset.mem_filter.1 h).1]
    rfl
  · rfl

theorem tally_set {issues : List PreviewRowIssue} {rows : Finset ℕ} (hrow : row ∉ rows)
    (issue : PreviewRowIssue) :
    tally counted (issues.set row issue) rows = tally counted issues rows := by
  unfold tally
  congr 1
  refine Finset.filter_congr fun other hother => ?_
  have hne : row ≠ other := fun h => hrow (h ▸ hother)
  rw [List.getElem?_set_ne hne]

/-- The counters count the issues of the rows in the set. -/
def Tallies (cache : PreviewIssueCache) (rows : Finset ℕ) : Prop :=
  ∀ get counted, IsCounter get counted → get cache = tally counted cache.issues rows

@[simp] theorem issues_setIssue (issue : PreviewRowIssue) :
    (cache.setIssue row issue).issues = cache.issues.set row issue := by
  refine List.ext_getElem? fun other => ?_
  simp only [issues, setIssue, List.getElem?_map, List.getElem?_modify, List.getElem?_set,
    List.length_map]
  by_cases h : row = other
  · subst h
    by_cases hrow : row < cache.rows.length <;> simp [hrow]
  · simp [h]

@[simp] theorem issues_addIssue (issue : PreviewRowIssue) :
    (cache.addIssue issue).issues = cache.issues := by
  cases issue <;> rfl

@[simp] theorem issues_removeIssue (issue : PreviewRowIssue) :
    (cache.removeIssue issue).issues = cache.issues := by
  cases issue <;> rfl

theorem getElem?_issues {cached : CachedPreviewRow} (hcached : cache.rows[row]? = some cached) :
    cache.issues[row]? = some cached.issue := by
  simp [issues, hcached]

theorem getElem?_issues_set {cached : CachedPreviewRow}
    (hcached : cache.rows[row]? = some cached) (issue : PreviewRowIssue) :
    (cache.issues.set row issue)[row]? = some issue := by
  rw [List.getElem?_set_self]
  simpa [issues] using (List.getElem?_eq_some_iff.1 hcached).1

namespace Tallies

variable {rows : Finset ℕ} {cached : CachedPreviewRow}

/-- One more row is resolved and counted. -/
theorem resolveRow (h : cache.Tallies rows) (hrow : row ∉ rows)
    (hcached : cache.rows[row]? = some cached) (colliding : Bool) :
    (PreviewIssueCache.resolveRow colliding cache row).Tallies (insert row rows) := by
  intro get counted hcounter
  have hset : ∀ issue, get (cache.setIssue row issue) = get cache :=
    fun issue => hcounter.congr _ _ rfl rfl rfl
  rw [PreviewIssueCache.resolveRow, hcached]
  dsimp only
  rw [hcounter.add, hset, h get counted hcounter, issues_addIssue, issues_setIssue,
    tally_insert hrow, tally_set hrow, getElem?_issues_set hcached]
  rfl

theorem tally_erase (hrow : row ∈ rows) (hcached : cache.rows[row]? = some cached) :
    tally counted cache.issues rows = tally counted cache.issues (rows.erase row) +
      if counted cached.issue then 1 else 0 := by
  conv_lhs => rw [← Finset.insert_erase hrow]
  rw [tally_insert (Finset.notMem_erase row rows), getElem?_issues hcached]
  rfl

/-- The counter of a counted row is positive. -/
theorem pos (h : cache.Tallies rows) (hrow : row ∈ rows)
    (hcached : cache.rows[row]? = some cached) (hcounter : IsCounter get counted)
    (hcounted : counted cached.issue = true) : 0 < get cache := by
  rw [h get counted hcounter, tally_erase hrow hcached, hcounted]
  exact Nat.succ_pos _

/-- One row changes its issue, and with it its counter. -/
theorem replaceIssue (h : cache.Tallies rows) (hrow : row ∈ rows)
    (hcached : cache.rows[row]? = some cached) (issue : PreviewRowIssue) :
    (cache.replaceIssue row issue).Tallies rows := by
  rw [PreviewIssueCache.replaceIssue, hcached]
  dsimp only
  split
  · exact h
  · intro get counted hcounter
    have hset : get (((cache.removeIssue cached.issue).addIssue issue).setIssue row issue) =
        get ((cache.removeIssue cached.issue).addIssue issue) := hcounter.congr _ _ rfl rfl rfl
    have hnew : tally counted (cache.issues.set row issue) rows =
        tally counted cache.issues (rows.erase row) + if counted issue then 1 else 0 := by
      conv_lhs => rw [← Finset.insert_erase hrow]
      rw [tally_insert (Finset.notMem_erase row rows), tally_set (Finset.notMem_erase row rows),
        getElem?_issues_set hcached]
      rfl
    rw [hset, hcounter.add, hcounter.remove, h get counted hcounter,
      tally_erase hrow hcached, issues_setIssue, issues_addIssue, issues_removeIssue, hnew,
      Nat.add_sub_cancel]

theorem sumBlockers (h : cache.Tallies rows) : cache.sumBlockers.Tallies rows := by
  intro get counted hcounter
  have hsame : get cache.sumBlockers = get cache := hcounter.congr _ _ rfl rfl rfl
  rw [hsame]
  exact h get counted hcounter

end Tallies

/-- The counter that a row with the issue is counted in. -/
def counterOf (cache : PreviewIssueCache) : PreviewRowIssue → Option ℕ
  | .none => none
  | .emptyStem => some cache.warningRows
  | .invalidName _ => some cache.invalidNameRows
  | .duplicateDestination => some cache.duplicateDestinationRows

/-- No counted row can be taken out of a counter that is zero. -/
theorem Tallies.counterOf_ne_zero {rows : Finset ℕ} {cached : CachedPreviewRow}
    (h : cache.Tallies rows) (hrow : row ∈ rows) (hcached : cache.rows[row]? = some cached) :
    cache.counterOf cached.issue ≠ some 0 := by
  cases hissue : cached.issue with
  | none => simp [counterOf]
  | emptyStem =>
      have hpos := h.pos hrow hcached isCounter_warningRows (by simp [hissue])
      simpa [counterOf] using hpos.ne'
  | invalidName error =>
      have hpos := h.pos hrow hcached isCounter_invalidNameRows (by simp [hissue])
      simpa [counterOf] using hpos.ne'
  | duplicateDestination =>
      have hpos := h.pos hrow hcached isCounter_duplicateDestinationRows (by simp [hissue])
      simpa [counterOf] using hpos.ne'

end PreviewIssueCache

end Counters

section Refresh

variable {inputs : List PreviewRowInput} {cache : PreviewIssueCache} {row : ℕ}
  {input : PreviewRowInput} {done : Finset ℕ}

def PreviewRowInput.baseIssue (input : PreviewRowInput) : PreviewRowIssue :=
  previewBaseIssue input.proposed input.isDirectory input.change

/-- A row before its group is known. -/
def pushedRow (destinationKey : LegacyText → LegacyText → PathKey) (input : PreviewRowInput) :
    CachedPreviewRow :=
  ⟨input.key destinationKey, input.baseIssue, input.baseIssue, input.change⟩

/-- The issue of a row among the others. -/
def resolvedIssue (destinationKey : LegacyText → LegacyText → PathKey)
    (inputs : List PreviewRowInput) (input : PreviewRowInput) : PreviewRowIssue :=
  resolvedPreviewIssue input.baseIssue input.change
    (decide (1 < (members destinationKey inputs (input.key destinationKey)).card))

def cachedRow (destinationKey : LegacyText → LegacyText → PathKey)
    (inputs : List PreviewRowInput) (input : PreviewRowInput) : CachedPreviewRow :=
  ⟨input.key destinationKey, input.baseIssue, resolvedIssue destinationKey inputs input,
    input.change⟩

namespace PreviewIssueCache

/-- The cache is what the list of rows makes of it. -/
structure Represents (destinationKey : LegacyText → LegacyText → PathKey)
    (inputs : List PreviewRowInput) (cache : PreviewIssueCache) : Prop where
  initialized : cache.initialized = true
  rows : cache.rows = inputs.map (cachedRow destinationKey inputs)
  groups : Groups destinationKey inputs cache.destinationRows
  tallies : cache.Tallies (Finset.range inputs.length)
  blockers : cache.blockerRows = cache.invalidNameRows + cache.duplicateDestinationRows

/-- A list of rows has one cache. -/
theorem Represents.unique {cache' : PreviewIssueCache}
    (h : cache.Represents destinationKey inputs) (h' : cache'.Represents destinationKey inputs) :
    cache = cache' := by
  have hissues : cache.issues = cache'.issues := by rw [issues, issues, h.rows, h'.rows]
  have hcounter : ∀ {get counted}, IsCounter get counted → get cache = get cache' := by
    intro get counted hcounter
    rw [h.tallies get counted hcounter, h'.tallies get counted hcounter, hissues]
  have hgroups : cache.destinationRows = cache'.destinationRows :=
    ExtTreeMap.ext_getElem? fun key => (h.groups key).trans (h'.groups key).symm
  have hwarning := hcounter isCounter_warningRows
  have hinvalid := hcounter isCounter_invalidNameRows
  have hduplicate := hcounter isCounter_duplicateDestinationRows
  have hblockers : cache.blockerRows = cache'.blockerRows := by
    rw [h.blockers, h'.blockers, hinvalid, hduplicate]
  have hinitialized := h.initialized.trans h'.initialized.symm
  have hrows := h.rows.trans h'.rows.symm
  cases cache
  cases cache'
  simp_all

/-- The cache of a full refresh in which the rows of a set are resolved. -/
structure Resolved (destinationKey : LegacyText → LegacyText → PathKey)
    (inputs : List PreviewRowInput) (done : Finset ℕ) (cache : PreviewIssueCache) : Prop where
  initialized : cache.initialized = true
  rows : ∀ row, cache.rows[row]? = inputs[row]?.map fun input =>
    if row ∈ done then cachedRow destinationKey inputs input else pushedRow destinationKey input
  groups : Groups destinationKey inputs cache.destinationRows
  tallies : cache.Tallies done

/-- Entering the rows of a list fills the rows and the groups, and counts nothing. -/
theorem foldl_pushRow (destinationKey : LegacyText → LegacyText → PathKey)
    (inputs : List PreviewRowInput) : ∃ groups,
    inputs.foldl (pushRow destinationKey) { empty with initialized := true } =
      { empty with
        initialized := true
        rows := inputs.map (pushedRow destinationKey)
        destinationRows := groups } ∧ Groups destinationKey inputs groups := by
  induction inputs using List.reverseRecOn with
  | nil =>
      refine ⟨∅, rfl, fun key => ?_⟩
      simp [groupOf, members]
  | append_singleton inputs input ih =>
      obtain ⟨groups, hcache, hgroups⟩ := ih
      refine ⟨_, ?_, hgroups.push input⟩
      rw [List.foldl_append, hcache]
      simp [pushRow, pushedRow, PreviewRowInput.key, PreviewRowInput.baseIssue]

theorem resolved_pushRows (destinationKey : LegacyText → LegacyText → PathKey)
    (inputs : List PreviewRowInput) :
    Resolved destinationKey inputs ∅
      (inputs.foldl (pushRow destinationKey) { empty with initialized := true }) := by
  obtain ⟨groups, hcache, hgroups⟩ := foldl_pushRow destinationKey inputs
  rw [hcache]
  refine ⟨rfl, fun row => ?_, hgroups, fun get counted hcounter => ?_⟩
  · simp
  · refine Eq.trans (hcounter.congr _ empty ?_ ?_ ?_) hcounter.zero
    all_goals rfl

namespace Resolved

/-- One row of a group is resolved. -/
theorem resolveRow (h : cache.Resolved destinationKey inputs done)
    (hrow : row ∉ done) (hinput : inputs[row]? = some input) :
    (PreviewIssueCache.resolveRow
      (decide (1 < (members destinationKey inputs (input.key destinationKey)).card)) cache
        row).Resolved destinationKey inputs (insert row done) := by
  have hcached : cache.rows[row]? = some (pushedRow destinationKey input) := by
    rw [h.rows row, hinput]
    simp [hrow]
  have hresolve : ∃ issue, PreviewIssueCache.resolveRow
      (decide (1 < (members destinationKey inputs (input.key destinationKey)).card)) cache row =
        (cache.setIssue row issue).addIssue issue ∧
      issue = resolvedIssue destinationKey inputs input := by
    rw [PreviewIssueCache.resolveRow, hcached]
    exact ⟨_, rfl, rfl⟩
  obtain ⟨issue, hissue, hvalue⟩ := hresolve
  have hsame : ∀ issue, ((cache.setIssue row issue).addIssue issue).initialized =
      cache.initialized ∧ ((cache.setIssue row issue).addIssue issue).destinationRows =
        cache.destinationRows ∧ ((cache.setIssue row issue).addIssue issue).rows =
          (cache.setIssue row issue).rows := by
    intro issue
    cases issue <;> exact ⟨rfl, rfl, rfl⟩
  have htallies := h.tallies.resolveRow hrow hcached
    (decide (1 < (members destinationKey inputs (input.key destinationKey)).card))
  rw [hissue] at htallies ⊢
  obtain ⟨hinit, hgroups, hrows⟩ := hsame issue
  refine ⟨hinit.trans h.initialized, fun other => ?_, hgroups ▸ h.groups, htallies⟩
  rw [hrows, setIssue, List.getElem?_modify, h.rows other]
  by_cases hother : row = other
  · subst hother
    simp [hinput, hrow, hvalue, cachedRow, pushedRow]
  · have hiff : other ∈ insert row done ↔ other ∈ done := by simp [Ne.symm hother]
    simp [hother, hiff]

/-- All rows of a group are resolved. -/
theorem resolveGroup {rows : List ℕ} {key : PathKey}
    (h : cache.Resolved destinationKey inputs done) (hnodup : rows.Nodup)
    (hrows : ∀ row ∈ rows, row ∉ done ∧ row ∈ members destinationKey inputs key) :
    (rows.foldl (PreviewIssueCache.resolveRow
      (decide (1 < (members destinationKey inputs key).card))) cache).Resolved destinationKey
        inputs (done ∪ rows.toFinset) := by
  induction rows generalizing cache done with
  | nil => simpa using h
  | cons row rows ih =>
      obtain ⟨hfirst, hrest⟩ := List.nodup_cons.1 hnodup
      obtain ⟨hdone, hmember⟩ := hrows row (by simp)
      obtain ⟨input, hinput, rfl⟩ := mem_members.1 hmember
      have hlater := ih (h.resolveRow hdone hinput) hrest fun other hother => by
        refine ⟨fun hmem => ?_, (hrows other (by simp [hother])).2⟩
        rcases Finset.mem_insert.1 hmem with rfl | hmem
        · exact hfirst hother
        · exact (hrows other (by simp [hother])).1 hmem
      rw [List.toFinset_cons, ← Finset.insert_union_comm]
      exact hlater

/-- All groups are resolved. -/
theorem resolveGroups {groups : List (PathKey × Finset ℕ)}
    (h : cache.Resolved destinationKey inputs done)
    (hdistinct : groups.Pairwise fun a b => a.1 ≠ b.1)
    (hgroups : ∀ group ∈ groups, group.2 = members destinationKey inputs group.1 ∧
      ∀ row ∈ group.2, row ∉ done) :
    ∃ done', (groups.foldl (fun next group => (group.2.sort (· ≤ ·)).foldl
      (PreviewIssueCache.resolveRow (decide (1 < group.2.card))) next) cache).Resolved
        destinationKey inputs done' ∧
      ∀ row, row ∈ done' ↔ row ∈ done ∨ ∃ group ∈ groups, row ∈ group.2 := by
  induction groups generalizing cache done with
  | nil => exact ⟨done, h, by simp⟩
  | cons group groups ih =>
      obtain ⟨hfirst, hrest⟩ := List.pairwise_cons.1 hdistinct
      obtain ⟨hmembers, hnew⟩ := hgroups group (by simp)
      have hrows : ∀ row ∈ group.2.sort (· ≤ ·),
          row ∉ done ∧ row ∈ members destinationKey inputs group.1 := by
        intro row hrow
        rw [Finset.mem_sort] at hrow
        exact ⟨hnew row hrow, hmembers ▸ hrow⟩
      have hnext := h.resolveGroup (group.2.sort_nodup (· ≤ ·)) hrows
      rw [← hmembers, Finset.sort_toFinset] at hnext
      obtain ⟨done', hresolved, hdone⟩ := ih hnext hrest fun other hother => by
        obtain ⟨hothers, hfresh⟩ := hgroups other (by simp [hother])
        refine ⟨hothers, fun row hrow hmem => ?_⟩
        rcases Finset.mem_union.1 hmem with hmem | hmem
        · exact hfresh row hrow hmem
        · rw [hothers, mem_members] at hrow
          rw [hmembers, mem_members] at hmem
          obtain ⟨input, hinput, hkey⟩ := hrow
          obtain ⟨input', hinput', hkey'⟩ := hmem
          rw [hinput] at hinput'
          obtain rfl := Option.some.inj hinput'
          exact hfirst other hother (hkey'.symm.trans hkey)
      refine ⟨done', hresolved, fun row => ?_⟩
      rw [hdone row, Finset.mem_union]
      simp [or_assoc]

end Resolved

/-- The full refresh makes the cache of the list. -/
theorem refreshBy_represents (destinationKey : LegacyText → LegacyText → PathKey)
    (inputs : List PreviewRowInput) :
    (refreshBy destinationKey inputs).Represents destinationKey inputs := by
  have hpushed := resolved_pushRows destinationKey inputs
  obtain ⟨next, hnext⟩ : ∃ next, next =
    inputs.foldl (pushRow destinationKey) { empty with initialized := true } := ⟨_, rfl⟩
  rw [← hnext] at hpushed
  have hdistinct : next.destinationRows.toList.Pairwise fun a b => a.1 ≠ b.1 :=
    ExtTreeMap.distinct_keys_toList.imp fun hne hsame => hne (by simp [hsame])
  have hmembers : ∀ group ∈ next.destinationRows.toList,
      group.2 = members destinationKey inputs group.1 := by
    intro group hgroup
    have hlookup := ExtTreeMap.mem_toList_iff_getElem?_eq_some.1 hgroup
    rw [hpushed.groups, groupOf] at hlookup
    split at hlookup
    · cases hlookup
    · exact (Option.some.inj hlookup).symm
  obtain ⟨done, hresolved, hdone⟩ := hpushed.resolveGroups hdistinct fun group hgroup =>
    ⟨hmembers group hgroup, by simp⟩
  have hall : ∀ row, row ∈ done ↔ row < inputs.length := by
    intro row
    rw [hdone row]
    constructor
    · intro h
      obtain ⟨group, hgroup, hrow⟩ := h.resolve_left (Finset.notMem_empty row)
      rw [hmembers group hgroup, mem_members] at hrow
      obtain ⟨input, hinput, -⟩ := hrow
      exact (List.getElem?_eq_some_iff.1 hinput).1
    · intro hrow
      have hmem : row ∈ members destinationKey inputs (inputs[row].key destinationKey) :=
        mem_members.2 ⟨_, List.getElem?_eq_getElem hrow, rfl⟩
      have hgroup : next.destinationRows[inputs[row].key destinationKey]? =
          some (members destinationKey inputs (inputs[row].key destinationKey)) := by
        rw [hpushed.groups, groupOf, if_neg (Finset.ne_empty_of_mem hmem)]
      exact .inr ⟨_, ExtTreeMap.mem_toList_iff_getElem?_eq_some.2 hgroup, hmem⟩
  have hrefresh : refreshBy destinationKey inputs = sumBlockers
      (next.destinationRows.toList.foldl (fun next group => (group.2.sort (· ≤ ·)).foldl
        (resolveRow (decide (1 < group.2.card))) next) next) := by
    rw [refreshBy, ← hnext, List.foldl_map]
  obtain rfl : done = Finset.range inputs.length := by
    ext row
    rw [hall, Finset.mem_range]
  rw [hrefresh]
  refine ⟨hresolved.initialized, List.ext_getElem? fun row => ?_, hresolved.groups,
    hresolved.tallies.sumBlockers, rfl⟩
  refine (hresolved.rows row).trans ?_
  rw [List.getElem?_map]
  cases hinput : inputs[row]? with
  | none => rfl
  | some input =>
      have hrow := (List.getElem?_eq_some_iff.1 hinput).1
      simp [hrow]

end PreviewIssueCache

end Refresh

section Edit

variable {inputs : List PreviewRowInput} {cache : PreviewIssueCache} {row : ℕ}
  {input values : PreviewRowInput}

namespace PreviewIssueCache

/-- The cache of an edited list in which the issues of some rows may be outdated. -/
structure Settling (destinationKey : LegacyText → LegacyText → PathKey)
    (inputs : List PreviewRowInput) (pending : List ℕ) (cache : PreviewIssueCache) : Prop where
  initialized : cache.initialized = true
  length_rows : cache.rows.length = inputs.length
  rows : ∀ row input, inputs[row]? = some input → ∃ issue, cache.rows[row]? =
    some ⟨input.key destinationKey, input.baseIssue, issue, input.change⟩ ∧
      (row ∉ pending → issue = resolvedIssue destinationKey inputs input)
  groups : Groups destinationKey inputs cache.destinationRows
  tallies : cache.Tallies (Finset.range inputs.length)

namespace Settling

variable {pending : List ℕ}

theorem settleRow (h : cache.Settling destinationKey inputs (row :: pending))
    (hrow : row < inputs.length) :
    (PreviewIssueCache.settleRow cache row).Settling destinationKey inputs pending := by
  obtain ⟨input, hinput⟩ : ∃ input, inputs[row]? = some input :=
    ⟨_, List.getElem?_eq_getElem hrow⟩
  obtain ⟨issue, hcached, -⟩ := h.rows row input hinput
  have hsettle : PreviewIssueCache.settleRow cache row =
      cache.replaceIssue row (resolvedIssue destinationKey inputs input) := by
    rw [PreviewIssueCache.settleRow, hcached, resolvedIssue, ← h.groups.isColliding]
  have htallies := h.tallies.replaceIssue (Finset.mem_range.2 hrow) hcached
    (resolvedIssue destinationKey inputs input)
  rw [hsettle]
  have hreplace : ∃ next : PreviewIssueCache,
      cache.replaceIssue row (resolvedIssue destinationKey inputs input) = next ∧
      next.initialized = cache.initialized ∧ next.destinationRows = cache.destinationRows ∧
      next.rows = cache.rows.modify row fun cached =>
        { cached with issue := resolvedIssue destinationKey inputs input } := by
    refine ⟨_, rfl, ?_⟩
    rw [replaceIssue, hcached]
    dsimp only
    split
    · next hsame =>
        refine ⟨rfl, rfl, List.ext_getElem? fun other => ?_⟩
        rw [List.getElem?_modify]
        by_cases hother : row = other
        · subst hother
          simp [hcached, hsame]
        · simp [hother]
    · cases issue <;> cases resolvedIssue destinationKey inputs input <;> exact ⟨rfl, rfl, rfl⟩
  obtain ⟨next, hnext, hinit, hgroups, hrows⟩ := hreplace
  rw [hnext] at htallies ⊢
  refine ⟨hinit.trans h.initialized, ?_, fun other otherInput hother => ?_, ?_, htallies⟩
  · rw [hrows, List.length_modify, h.length_rows]
  · obtain ⟨otherIssue, hissue, hsettled⟩ := h.rows other otherInput hother
    rw [hrows, List.getElem?_modify, hissue]
    by_cases hsame : row = other
    · subst hsame
      rw [hinput] at hother
      obtain rfl := Option.some.inj hother
      exact ⟨_, by simp, fun _ => rfl⟩
    · exact ⟨otherIssue, by simp [hsame],
        fun hpending => hsettled (by simp [Ne.symm hsame, hpending])⟩
  · rw [hgroups]
    exact h.groups

theorem foldl_settleRow {done : List ℕ} (h : cache.Settling destinationKey inputs (done ++ pending))
    (hrows : ∀ row ∈ done, row < inputs.length) :
    (done.foldl PreviewIssueCache.settleRow cache).Settling destinationKey inputs pending := by
  induction done generalizing cache with
  | nil => exact h
  | cons row done ih =>
      exact ih (h.settleRow (hrows row (by simp))) fun other hother =>
        hrows other (by simp [hother])

theorem settleAll (h : cache.Settling destinationKey inputs pending)
    (hrows : ∀ row ∈ pending, row < inputs.length) :
    (pending.foldl PreviewIssueCache.settleRow cache).Settling destinationKey inputs [] := by
  rw [← List.append_nil pending] at h
  exact h.foldl_settleRow hrows

theorem represents (h : cache.Settling destinationKey inputs []) :
    cache.sumBlockers.Represents destinationKey inputs := by
  refine ⟨h.initialized, List.ext_getElem? fun row => ?_, h.groups, h.tallies.sumBlockers, rfl⟩
  rw [List.getElem?_map]
  cases hinput : inputs[row]? with
  | none =>
      have hlong := List.getElem?_eq_none_iff.1 hinput
      rw [← h.length_rows] at hlong
      exact List.getElem?_eq_none_iff.2 hlong
  | some input =>
      obtain ⟨issue, hcached, hissue⟩ := h.rows row input hinput
      refine hcached.trans ?_
      rw [hissue List.not_mem_nil]
      rfl

end Settling

/-- A row outside the old and the new group of the edited row keeps what is cached. -/
theorem cachedRow_set {otherInput : PreviewRowInput} (hrow : inputs[row]? = some input)
    (hold : otherInput.key destinationKey ≠ input.key destinationKey)
    (hnew : otherInput.key destinationKey ≠ values.key destinationKey) :
    cachedRow destinationKey (inputs.set row values) otherInput =
      cachedRow destinationKey inputs otherInput := by
  have hlt : row < inputs.length := (List.getElem?_eq_some_iff.1 hrow).1
  have hmembers : members destinationKey (inputs.set row values) (otherInput.key destinationKey) =
      members destinationKey inputs (otherInput.key destinationKey) := by
    rw [members_set hlt, if_neg hnew.symm, Finset.erase_eq_self]
    intro hmem
    obtain ⟨found, hfound, hkey⟩ := mem_members.1 hmem
    rw [hrow] at hfound
    obtain rfl := Option.some.inj hfound
    exact hold hkey.symm
  rw [cachedRow, cachedRow, resolvedIssue, resolvedIssue, hmembers]

/-- The rows that an edit of one row can change. -/
def affected (destinationKey : LegacyText → LegacyText → PathKey) (inputs : List PreviewRowInput)
    (row : ℕ) (input values : PreviewRowInput) : Finset ℕ :=
  if input.key destinationKey = values.key destinationKey then
    members destinationKey inputs (input.key destinationKey)
  else
    members destinationKey inputs (input.key destinationKey) ∪
      members destinationKey (inputs.set row values) (values.key destinationKey)

theorem mem_affected_row (hrow : inputs[row]? = some input) :
    row ∈ affected destinationKey inputs row input values := by
  have hmem : row ∈ members destinationKey inputs (input.key destinationKey) :=
    mem_members.2 ⟨input, hrow, rfl⟩
  rw [affected]
  split
  · exact hmem
  · exact Finset.mem_union_left _ hmem

theorem ne_of_notMem_affected {other : ℕ} {otherInput : PreviewRowInput}
    (hrow : inputs[row]? = some input) (hother : inputs[other]? = some otherInput)
    (hmem : other ∉ affected destinationKey inputs row input values) : row ≠ other ∧
      otherInput.key destinationKey ≠ input.key destinationKey ∧
      otherInput.key destinationKey ≠ values.key destinationKey := by
  have hne : row ≠ other := by
    intro hsame
    subst hsame
    exact hmem (mem_affected_row hrow)
  have hold : otherInput.key destinationKey ≠ input.key destinationKey := by
    intro hkey
    have hgroup := mem_members.2 ⟨otherInput, hother, hkey⟩
    rw [affected] at hmem
    split at hmem
    · exact hmem hgroup
    · exact hmem (Finset.mem_union_left _ hgroup)
  refine ⟨hne, hold, fun hkey => ?_⟩
  have hset : (inputs.set row values)[other]? = some otherInput := by
    rw [List.getElem?_set_ne hne, hother]
  have hgroup := mem_members.2 ⟨otherInput, hset, hkey⟩
  rw [affected] at hmem
  split at hmem
  · next hsame => exact hold (hkey.trans hsame.symm)
  · exact hmem (Finset.mem_union_right _ hgroup)

theorem affected_lt {other : ℕ}
    (hmem : other ∈ affected destinationKey inputs row input values) : other < inputs.length := by
  have hlt : ∀ rows : List PreviewRowInput, rows.length = inputs.length → ∀ key,
      other ∈ members destinationKey rows key → other < inputs.length := by
    intro rows hlength key hother
    obtain ⟨found, hfound, -⟩ := mem_members.1 hother
    rw [← hlength]
    exact (List.getElem?_eq_some_iff.1 hfound).1
  rw [affected] at hmem
  split at hmem
  · exact hlt _ rfl _ hmem
  · rcases Finset.mem_union.1 hmem with hmem | hmem
    · exact hlt _ rfl _ hmem
    · exact hlt _ (List.length_set ..) _ hmem

/-- After the edited row has changed groups only the affected rows are outdated. -/
theorem Represents.settling (h : cache.Represents destinationKey inputs)
    (hrow : inputs[row]? = some input) (values : PreviewRowInput) :
    (cache.editRow row (input.key destinationKey) (values.key destinationKey) values).Settling
      destinationKey (inputs.set row values)
        ((affected destinationKey inputs row input values).sort (· ≤ ·)) := by
  have hlt : row < inputs.length := (List.getElem?_eq_some_iff.1 hrow).1
  refine ⟨h.initialized, ?_, fun other otherInput hother => ?_, h.groups.edit hrow values, ?_⟩
  · simp [editRow, h.rows]
  · rw [editRow]
    dsimp only
    rw [List.getElem?_modify, h.rows, List.getElem?_map]
    by_cases hsame : row = other
    · subst hsame
      rw [List.getElem?_set_self hlt] at hother
      obtain rfl := Option.some.inj hother
      refine ⟨resolvedIssue destinationKey inputs input, ?_, fun hpending => ?_⟩
      · simp [hrow, cachedRow, PreviewRowInput.baseIssue]
      · exact absurd ((Finset.mem_sort _).2 (mem_affected_row hrow)) hpending
    · rw [List.getElem?_set_ne hsame] at hother
      refine ⟨resolvedIssue destinationKey inputs otherInput, ?_, fun hpending => ?_⟩
      · simp [hother, hsame, cachedRow]
      · rw [Finset.mem_sort] at hpending
        obtain ⟨-, hold, hnew⟩ := ne_of_notMem_affected hrow hother hpending
        exact congrArg CachedPreviewRow.issue (cachedRow_set hrow hold hnew).symm
  · intro get counted hcounter
    have hissues : (cache.editRow row (input.key destinationKey) (values.key destinationKey)
        values).issues = cache.issues := by
      refine List.ext_getElem? fun other => ?_
      simp only [issues, editRow, List.getElem?_map, List.getElem?_modify]
      by_cases hsame : row = other
      · simp only [hsame, if_true]
        cases cache.rows[other]? <;> rfl
      · simp [hsame]
    have hsame : get (cache.editRow row (input.key destinationKey) (values.key destinationKey)
        values) = get cache := hcounter.congr _ _ rfl rfl rfl
    rw [hissues, hsame, List.length_set]
    exact h.tallies get counted hcounter

/-- The refresh of one row, on a cache that represents the list. -/
theorem Represents.refreshOneBy_eq (h : cache.Represents destinationKey inputs)
    (hrow : inputs[row]? = some input) (values : PreviewRowInput) :
    cache.refreshOneBy inputs.length row values destinationKey =
      (some ⟨(affected destinationKey inputs row input values).sort (· ≤ ·),
          input.change.isChanged, values.change.isChanged⟩,
        (((affected destinationKey inputs row input values).sort (· ≤ ·)).foldl settleRow
          (cache.editRow row (input.key destinationKey) (values.key destinationKey)
            values)).sumBlockers) := by
  have hlt : row < inputs.length := (List.getElem?_eq_some_iff.1 hrow).1
  have hlength : cache.rows.length = inputs.length := by rw [h.rows, List.length_map]
  have hcached : cache.rows[row]? = some (cachedRow destinationKey inputs input) := by
    rw [h.rows, List.getElem?_map, hrow]
    rfl
  have hmem : row ∈ members destinationKey inputs (input.key destinationKey) :=
    mem_members.2 ⟨input, hrow, rfl⟩
  have hgroup : cache.destinationRows[input.key destinationKey]? =
      some (members destinationKey inputs (input.key destinationKey)) := by
    rw [h.groups, groupOf, if_neg (Finset.ne_empty_of_mem hmem)]
  have haffected : affectedRows (members destinationKey inputs (input.key destinationKey))
      (cache.editRow row (input.key destinationKey) (values.key destinationKey)
        values).destinationRows (input.key destinationKey) (values.key destinationKey) =
      affected destinationKey inputs row input values := by
    rw [affectedRows, affected]
    split
    · rfl
    · have hnew : row ∈ members destinationKey (inputs.set row values)
          (values.key destinationKey) :=
        mem_members.2 ⟨values, List.getElem?_set_self hlt, rfl⟩
      rw [(h.settling hrow values).groups, groupOf, if_neg (Finset.ne_empty_of_mem hnew)]
  have hfilter : (cache.destinationRows[input.key destinationKey]?.filter
      fun group => row ∈ group) =
        some (members destinationKey inputs (input.key destinationKey)) := by
    rw [hgroup]
    simp [hmem]
  rw [refreshOneBy, if_neg (by simp [h.initialized, hlength, hlt]), hcached]
  dsimp only [cachedRow]
  rw [hfilter]
  dsimp only
  rw [show destinationKey values.parent values.proposed = values.key destinationKey from rfl,
    haffected]

end PreviewIssueCache

end Edit

section Counts

variable {changes : List PlannedChangeKind} {row : ℕ} {old new : PlannedChangeKind}

namespace PreviewCountCache

theorem refresh_eq (changes : List PlannedChangeKind) :
    refresh changes = ⟨changes.length, changes.countP PlannedChangeKind.isChanged⟩ := by
  unfold refresh
  induction changes using List.reverseRecOn with
  | nil => rfl
  | append_singleton changes change ih =>
      rw [List.foldl_append, ih]
      simp [List.countP_append, List.countP_singleton]

theorem refreshOne_eq {total changed next : ℕ} {previous current : Bool}
    (hnext : nextChanged changed previous current = some next) (hle : next ≤ total) :
    (⟨total, changed⟩ : PreviewCountCache).refreshOne total previous current =
      (true, ⟨total, next⟩) := by
  have hfilter : (some next).filter (fun changed => changed ≤ total) = some next := by
    rw [Option.filter_some, if_pos (by simpa using hle)]
  rw [refreshOne, if_neg (not_not.2 rfl), hnext, hfilter]

/-- The count of the edited list, from the two flags of the edit. -/
theorem refreshOne_refresh (hrow : changes[row]? = some old) (new : PlannedChangeKind) :
    (refresh changes).refreshOne changes.length old.isChanged new.isChanged =
      (true, refresh (changes.set row new)) := by
  obtain ⟨hlt, hold⟩ := List.getElem?_eq_some_iff.1 hrow
  have hle : (changes.set row new).countP PlannedChangeKind.isChanged ≤ changes.length := by
    have hcount := List.countP_le_length (p := PlannedChangeKind.isChanged)
      (l := changes.set row new)
    rwa [List.length_set] at hcount
  rw [refresh_eq, refresh_eq, List.length_set]
  refine refreshOne_eq ?_ hle
  rw [List.countP_set hlt, hold]
  cases hprevious : old.isChanged with
  | false => cases new.isChanged <;> simp [nextChanged]
  | true =>
      have hpos : 0 < changes.countP PlannedChangeKind.isChanged :=
        List.countP_pos_iff.2 ⟨old, List.mem_of_getElem? hrow, hprevious⟩
      cases new.isChanged with
      | false => simp [nextChanged, hpos.ne']
      | true => simp [nextChanged, Nat.sub_add_cancel hpos]

end PreviewCountCache

end Counts

section Sequence

variable {inputs : List PreviewRowInput} {cache : PreviewIssueCache} {row : ℕ}

/-- A refused refresh of one row changes nothing. -/
theorem PreviewIssueCache.refreshOneBy_none {modelLen : ℕ} {values : PreviewRowInput}
    (h : (cache.refreshOneBy modelLen row values destinationKey).1 = none) :
    (cache.refreshOneBy modelLen row values destinationKey).2 = cache := by
  unfold refreshOneBy at *
  split
  · rfl
  · next hvalid =>
      rw [if_neg hvalid] at h
      split
      · rfl
      · next cached hcached =>
          rw [hcached] at h
          dsimp only at h
          split
          · rfl
          · next oldGroup hgroup =>
              rw [hgroup] at h
              cases h

/-- The rows of the list with their two caches. -/
structure PreviewState where
  rows : List PreviewRowInput
  issues : PreviewIssueCache
  counts : PreviewCountCache

namespace PreviewState

def refresh (destinationKey : LegacyText → LegacyText → PathKey) (rows : List PreviewRowInput) :
    PreviewState :=
  ⟨rows, .refreshBy destinationKey rows, .refresh (rows.map PreviewRowInput.change)⟩

/-- One row is edited, and the caches are refreshed for this row. -/
def edit (destinationKey : LegacyText → LegacyText → PathKey) (state : PreviewState)
    (edit : ℕ × PreviewRowInput) : PreviewState :=
  match state.issues.refreshOneBy state.rows.length edit.1 edit.2 destinationKey with
  | (none, issues) => ⟨state.rows.set edit.1 edit.2, issues, state.counts⟩
  | (some update, issues) =>
      ⟨state.rows.set edit.1 edit.2, issues, (state.counts.refreshOne state.rows.length
        update.previousChanged update.currentChanged).2⟩

/-- What the refresh of one row tells of its edit, and that no row that it settles is
taken out of a counter that is zero. -/
structure Refreshes (destinationKey : LegacyText → LegacyText → PathKey) (state : PreviewState)
    (row : ℕ) (input values : PreviewRowInput) (update : PreviewIssueUpdate)
    (issues : PreviewIssueCache) : Prop where
  previousChanged : update.previousChanged = input.change.isChanged
  currentChanged : update.currentChanged = values.change.isChanged
  counted : (state.counts.refreshOne state.rows.length update.previousChanged
    update.currentChanged).1 = true
  affected : ∀ other, (issues.rows[other]?.map fun cached => (cached.issue, cached.change)) ≠
    (state.issues.rows[other]?.map fun cached => (cached.issue, cached.change)) →
      other ∈ update.affectedRows
  settled : ∀ edited, edited = state.issues.editRow row (input.key destinationKey)
      (values.key destinationKey) values →
    issues = (update.affectedRows.foldl PreviewIssueCache.settleRow edited).sumBlockers ∧
    ∀ done other rest cached, update.affectedRows = done ++ other :: rest →
      (done.foldl PreviewIssueCache.settleRow edited).rows[other]? = some cached →
      (done.foldl PreviewIssueCache.settleRow edited).counterOf cached.issue ≠ some 0

variable {input values : PreviewRowInput}

/-- Up to date caches are refreshed for the edited list. -/
theorem refreshOneBy_refresh (destinationKey : LegacyText → LegacyText → PathKey)
    (hrow : inputs[row]? = some input) (values : PreviewRowInput) : ∃ update,
      (PreviewIssueCache.refreshBy destinationKey inputs).refreshOneBy inputs.length row
        values destinationKey =
      (some update, PreviewIssueCache.refreshBy destinationKey (inputs.set row values)) ∧
      (refresh destinationKey inputs).Refreshes destinationKey row input values update
        (PreviewIssueCache.refreshBy destinationKey (inputs.set row values)) := by
  have hbefore := PreviewIssueCache.refreshBy_represents destinationKey inputs
  have hafter := PreviewIssueCache.refreshBy_represents destinationKey (inputs.set row values)
  have hsettling := hbefore.settling hrow values
  have hlt : ∀ other ∈ (PreviewIssueCache.affected destinationKey inputs row input values).sort
      (· ≤ ·), other < (inputs.set row values).length := by
    intro other hother
    rw [List.length_set]
    exact PreviewIssueCache.affected_lt ((Finset.mem_sort _).1 hother)
  have hresult := hbefore.refreshOneBy_eq hrow values
  have hsame := (hsettling.settleAll hlt).represents.unique hafter
  rw [hsame] at hresult
  refine ⟨_, hresult, rfl, rfl, ?_, fun other hne => ?_, ?_⟩
  · have hchange : (inputs.map PreviewRowInput.change)[row]? = some input.change := by
      rw [List.getElem?_map, hrow]
      rfl
    have hcount := PreviewCountCache.refreshOne_refresh hchange values.change
    rw [List.length_map] at hcount
    exact congrArg Prod.fst hcount
  · by_contra hmem
    rw [Finset.mem_sort] at hmem
    refine hne ?_
    change
      ((PreviewIssueCache.refreshBy destinationKey (inputs.set row values)).rows[other]?.map _) =
      (PreviewIssueCache.refreshBy destinationKey inputs).rows[other]?.map _
    rw [hafter.rows, hbefore.rows, List.getElem?_map, List.getElem?_map]
    have hnot : row ≠ other := by
      intro hsame
      subst hsame
      exact hmem (PreviewIssueCache.mem_affected_row hrow)
    rw [List.getElem?_set_ne hnot]
    cases hother : inputs[other]? with
    | none => rfl
    | some otherInput =>
        obtain ⟨-, hold, hnew⟩ := PreviewIssueCache.ne_of_notMem_affected hrow hother hmem
        simp only [Option.map_some, PreviewIssueCache.cachedRow_set hrow hold hnew]
  · intro edited hedited
    subst hedited
    refine ⟨hsame.symm, fun done other rest cached hsplit hcached => ?_⟩
    dsimp only at hsplit
    rw [hsplit] at hsettling hlt
    have hprefix := hsettling.foldl_settleRow fun other hother => hlt other (by simp [hother])
    have hother : other ∈ Finset.range (inputs.set row values).length :=
      Finset.mem_range.2 (hlt other (by simp))
    exact hprefix.tallies.counterOf_ne_zero hother hcached

/-- One edit keeps the caches up to date. -/
theorem edit_refresh (inputs : List PreviewRowInput) (change : ℕ × PreviewRowInput) :
    (refresh destinationKey inputs).edit destinationKey change =
      refresh destinationKey (inputs.set change.1 change.2) := by
  obtain ⟨row, values⟩ := change
  cases hrow : inputs[row]? with
  | none =>
      have hlong := List.getElem?_eq_none_iff.1 hrow
      have hrefused : (PreviewIssueCache.refreshBy destinationKey inputs).refreshOneBy
          inputs.length row values destinationKey =
            (none, PreviewIssueCache.refreshBy destinationKey inputs) := by
        rw [PreviewIssueCache.refreshOneBy, if_pos (by simp [hlong])]
      rw [edit, refresh]
      dsimp only
      rw [hrefused, List.set_eq_of_length_le hlong]
      rfl
  | some input =>
      obtain ⟨update, hresult, hrefreshes⟩ := refreshOneBy_refresh destinationKey hrow values
      have hchange : (inputs.map PreviewRowInput.change)[row]? = some input.change := by
        rw [List.getElem?_map, hrow]
        rfl
      have hcount := PreviewCountCache.refreshOne_refresh hchange values.change
      rw [List.length_map, ← hrefreshes.previousChanged, ← hrefreshes.currentChanged,
        ← List.map_set] at hcount
      rw [edit, refresh]
      dsimp only
      rw [hresult]
      dsimp only
      rw [hcount]
      rfl

/-- The list and its caches after a sequence of edits. -/
def after (destinationKey : LegacyText → LegacyText → PathKey) (rows : List PreviewRowInput)
    (edits : List (ℕ × PreviewRowInput)) : PreviewState :=
  edits.foldl (edit destinationKey) (refresh destinationKey rows)

theorem after_eq (rows : List PreviewRowInput) (edits : List (ℕ × PreviewRowInput)) :
    after destinationKey rows edits =
      refresh destinationKey (edits.foldl (fun rows edit => rows.set edit.1 edit.2) rows) := by
  unfold after
  induction edits generalizing rows with
  | nil => rfl
  | cons edit edits ih => rw [List.foldl_cons, edit_refresh, ih, List.foldl_cons]

end PreviewState

/-- After any edits the caches are those of a full refresh of the edited rows, and the
refresh of one more row is not refused and tells every row that it changes. A refused
refresh changes no cache. -/
theorem preview_incremental (destinationKey : LegacyText → LegacyText → PathKey)
    (rows : List PreviewRowInput) (edits : List (ℕ × PreviewRowInput)) :
    PreviewState.after destinationKey rows edits = PreviewState.refresh destinationKey
      (edits.foldl (fun rows edit => rows.set edit.1 edit.2) rows) ∧
    (∀ row input values, (PreviewState.after destinationKey rows edits).rows[row]? = some input →
      ∃ update issues, (PreviewState.after destinationKey rows edits).issues.refreshOneBy
        (PreviewState.after destinationKey rows edits).rows.length row values destinationKey =
          (some update, issues) ∧
        (PreviewState.after destinationKey rows edits).Refreshes destinationKey row input values
          update issues) ∧
    ∀ (cache : PreviewIssueCache) modelLen row values,
      (cache.refreshOneBy modelLen row values destinationKey).1 = none →
        (cache.refreshOneBy modelLen row values destinationKey).2 = cache := by
  refine ⟨PreviewState.after_eq rows edits, fun row input values hrow => ?_,
    fun _ _ _ _ => PreviewIssueCache.refreshOneBy_none⟩
  rw [PreviewState.after_eq] at hrow ⊢
  obtain ⟨update, hresult, hrefreshes⟩ :=
    PreviewState.refreshOneBy_refresh destinationKey hrow values
  exact ⟨update, _, hresult, hrefreshes⟩

end Sequence

end DarkReNamer
