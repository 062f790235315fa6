import DarkReNamer.Workbench.Append
import DarkReNamer.Workbench.Sort.Compare
import DarkReNamer.Workbench.Sort.Cycles

/-!
# Sorting is a stable sort

The positions are sorted and the rows are moved to them. As the comparison of two positions is
that of their rows, the rows end up in the order a stable sort of the rows themselves gives.
The comparison need only be a total preorder on the rows that are sorted.
-/

namespace DarkReNamer

open Slices Std

namespace LegacyList

theorem sortByWithSemanticsChanged_spec (alg : Slices.Algorithms) (list : LegacyList)
    (mode : LegacySortMode) (semantics : SortSemantics)
    (compareText : LegacyText → LegacyText → Ordering) :
    ∃ outcome items, items.Perm list.items ∧
      list.sortByWithSemanticsChanged alg mode semantics compareText =
        some (outcome, { list with items := items }) := by
  unfold sortByWithSemanticsChanged
  dsimp only
  split
  · exact ⟨false, list.items, .refl _, rfl⟩
  · obtain ⟨items, hitems, hperm, -⟩ := placeRows_spec (alg.sortBy_perm
      (comparePositions list.items (compareItems mode semantics compareText))
      (List.range list.items.length))
    exact ⟨true, items, hperm, by
      simp only [hitems, Option.bind_eq_bind, Option.bind_some]⟩

/-! ### Positions and rows -/

/-- Compares rows that may be missing; the missing ones go last. -/
def comparePresent (compare : LegacyListItem → LegacyListItem → Ordering) :
    Option LegacyListItem → Option LegacyListItem → Ordering
  | some left, some right => compare left right
  | some _, none => .lt
  | none, some _ => .gt
  | none, none => .eq

theorem comparePositions_eq (items : List LegacyListItem)
    (compare : LegacyListItem → LegacyListItem → Ordering) (left right : ℕ) :
    comparePositions items compare left right =
      comparePresent compare items[left]? items[right]? := by
  rw [comparePositions]
  cases items[left]? <;> cases items[right]? <;> rfl

theorem comparePresent_preorder {compare : LegacyListItem → LegacyListItem → Ordering}
    {p : LegacyListItem → Prop} (h : TotalPreorderOn compare p) :
    TotalPreorderOn (comparePresent compare) fun item => ∀ a, item = some a → p a where
  eq_swap a b ha hb := by
    cases a with
    | none => cases b <;> rfl
    | some a =>
        cases b with
        | none => rfl
        | some b => exact h.eq_swap a b (ha a rfl) (hb b rfl)
  isLE_trans a b c ha hb hc hab hbc := by
    cases c with
    | none => cases a <;> rfl
    | some c =>
        cases b with
        | none => cases hbc
        | some b =>
            cases a with
            | none => cases hab
            | some a => exact h.isLE_trans a b c (ha a rfl) (hb b rfl) (hc c rfl) hab hbc

variable {items items' : List LegacyListItem} {order : List ℕ}
  {compare : LegacyListItem → LegacyListItem → Ordering}

/-- The positions are compared as a sort needs it once the rows are. -/
theorem transCmp_comparePositions (h : TotalPreorderOn compare (· ∈ items)) :
    TransCmp (comparePositions items compare) := by
  have hpresent (i : ℕ) : ∀ a, items[i]? = some a → a ∈ items := fun _ => List.mem_of_getElem?
  have hrows := comparePresent_preorder h
  refine TotalPreorderOn.transCmp ⟨fun a b _ _ => ?_, fun a b c _ _ _ hab hbc => ?_⟩
  · rw [comparePositions_eq, comparePositions_eq]
    exact hrows.eq_swap _ _ (hpresent a) (hpresent b)
  · rw [comparePositions_eq] at hab hbc ⊢
    exact hrows.isLE_trans _ _ _ (hpresent a) (hpresent b) (hpresent c) hab hbc

theorem ascending_of_positions (hplaced : items'.map some = order.map (items[·]?)) :
    Ascending (comparePositions items compare) order ↔ Ascending compare items' := by
  have hrows : Ascending (comparePresent compare) (items'.map some) ↔
      Ascending compare items' := List.pairwise_map
  have hpositions : Ascending (comparePresent compare) (order.map (items[·]?)) ↔
      Ascending (comparePositions items compare) order := by
    simp only [Ascending, List.pairwise_map, comparePositions_eq]
  rw [← hpositions, ← hrows, hplaced]

theorem filter_of_positions (hplaced : items'.map some = order.map (items[·]?)) {key : ℕ}
    {item : LegacyListItem} (hkey : items[key]? = some item) :
    (items'.filter fun a => compare a item == .eq).map some =
      (order.filter fun i => comparePositions items compare i key == .eq).map (items[·]?) := by
  have hrows : (items'.map some).filter (fun a => comparePresent compare a (some item) == .eq) =
      (items'.filter fun a => compare a item == .eq).map some := by
    rw [List.filter_map]
    rfl
  have hpositions : (order.map (items[·]?)).filter
      (fun a => comparePresent compare a (some item) == .eq) =
      (order.filter fun i => comparePositions items compare i key == .eq).map (items[·]?) := by
    rw [List.filter_map]
    simp only [Function.comp_def, comparePositions_eq, hkey]
  rw [← hrows, ← hpositions, hplaced]

theorem map_some_eq_range (items : List LegacyListItem) :
    items.map some = (List.range items.length).map (items[·]?) := by
  refine List.ext_getElem? fun i => ?_
  by_cases hi : i < items.length
  · simp [hi]
  · simp [hi]

/-- Rows that are moved to the sorted positions are sorted stably. -/
theorem isStableSort_of_positions (alg : Slices.Algorithms)
    (h : TotalPreorderOn compare (· ∈ items)) (hperm : items'.Perm items)
    (hplaced : items'.map some =
      (alg.sortBy (comparePositions items compare) (List.range items.length)).map (items[·]?)) :
    IsStableSort compare items items' := by
  have := transCmp_comparePositions h
  refine ⟨hperm, ?_, fun item hitem => ?_⟩
  · exact (ascending_of_positions hplaced).1 (alg.sortBy_ascending _ _)
  · obtain ⟨key, hkey⟩ := List.mem_iff_getElem?.1 hitem
    refine List.map_injective_iff.2 (Option.some_injective _) ?_
    rw [filter_of_positions hplaced hkey, alg.sortBy_stable,
      filter_of_positions (map_some_eq_range items) hkey]

/-- The sorted positions are the old ones exactly when the rows stay as they are. -/
theorem sortBy_positions_eq_range_iff (alg : Slices.Algorithms)
    (h : TotalPreorderOn compare (· ∈ items))
    (hplaced : items'.map some =
      (alg.sortBy (comparePositions items compare) (List.range items.length)).map (items[·]?)) :
    alg.sortBy (comparePositions items compare) (List.range items.length) =
      List.range items.length ↔ items' = items := by
  have := transCmp_comparePositions h
  constructor
  · intro heq
    rw [heq, ← map_some_eq_range] at hplaced
    exact List.map_injective_iff.2 (Option.some_injective _) hplaced
  · rintro rfl
    refine alg.sortBy_eq_self ((ascending_of_positions (map_some_eq_range items')).2 ?_)
    exact (ascending_of_positions hplaced).1 (alg.sortBy_ascending _ _)

/-- Where the comparison is a total preorder on the rows, sorting ends with the rows sorted
stably, reports exactly whether their order changed, and leaves totals, identity and revision,
and with them every index, as they were. -/
theorem sort_stable (alg : Slices.Algorithms) (list : LegacyList) (mode : LegacySortMode)
    (semantics : SortSemantics) (compareText : LegacyText → LegacyText → Ordering)
    (h : TotalPreorderOn (compareItems mode semantics compareText) (· ∈ list.items)) :
    ∃ changed list', list.sortByWithSemanticsChanged alg mode semantics compareText =
        some (changed, list') ∧
      IsStableSort (compareItems mode semantics compareText) list.items list'.items ∧
      (changed = true ↔ list'.items ≠ list.items) ∧
      list' = { list with items := list'.items } ∧
      ∀ index : LegacyAppendIndex, index.isCurrentFor list' = index.isCurrentFor list := by
  obtain ⟨items, hitems, hperm, hplaced⟩ := placeRows_spec (alg.sortBy_perm
    (comparePositions list.items (compareItems mode semantics compareText))
    (List.range list.items.length))
  have hsort := isStableSort_of_positions alg h hperm hplaced
  have hrange := sortBy_positions_eq_range_iff alg h hplaced
  have hlength := (alg.sortBy_perm
    (comparePositions list.items (compareItems mode semantics compareText))
    (List.range list.items.length)).length_eq
  rw [List.length_range] at hlength
  unfold sortByWithSemanticsChanged
  simp only [hlength]
  by_cases hsame : items = list.items
  · subst hsame
    rw [if_pos (hrange.2 rfl)]
    exact ⟨false, list, rfl, hsort, by simp, rfl, fun _ => rfl⟩
  · rw [if_neg (mt hrange.1 hsame)]
    refine ⟨true, { list with items := items }, ?_, hsort, by simpa using hsame, rfl,
      fun _ => rfl⟩
    simp only [hitems, Option.bind_eq_bind, Option.bind_some]

/-- A larger file in front of a smaller one. -/
def twoSizes : LegacyList := ⟨[fileOfSize 7, fileOfSize 0], 10, 16, 0, 0⟩

theorem sort_stable_twoSizes :
    ∃ list', twoSizes.sortByWithSemanticsChanged .reference .sizeAscending .safeActualSize
        compareUnits = some (true, list') ∧ list'.items.Perm twoSizes.items ∧
      list'.items ≠ twoSizes.items := by
  obtain ⟨changed, list', hsort, hstable, hchanged, -⟩ := sort_stable .reference twoSizes
    .sizeAscending .safeActualSize compareUnits
    (@TotalPreorderOn.of_transCmp _ _ _ (transCmp_compareItems (by decide)))
  have hne : list'.items ≠ twoSizes.items := by
    intro heq
    have hascending := hstable.ascending
    rw [heq] at hascending
    exact absurd ((List.pairwise_cons.1 hascending).1 (fileOfSize 0) (by decide)) (by decide)
  obtain rfl := hchanged.2 hne
  exact ⟨list', hsort, hstable.perm, hne⟩

end LegacyList

end DarkReNamer
