import Mathlib.Data.List.Induction
import Mathlib.Data.List.Nodup
import Mathlib.Tactic.Common
import Std.Data.ExtTreeMap

/-!
# Grouping by a key

A map from keys to lists, filled by appending one value at a time
(`entry(key).or_default().push(value)`). After a whole list is entered each key has the
values of that key, in list order, so a key with more than one value exists exactly
when the keys of the list repeat.
-/

namespace DarkReNamer

open Std

variable {K V A : Type} [Ord K] [TransOrd K] [LawfulEqOrd K]

/-- Appends a value to the list of its key. -/
def pushOwner (owners : ExtTreeMap K (List V)) (key : K) (value : V) : ExtTreeMap K (List V) :=
  owners.insert key (owners.getD key [] ++ [value])

/-- The lists of a map, in key order. -/
def ownerSets (owners : ExtTreeMap K (List V)) : List (List V) := owners.toList.map Prod.snd

/-- The owners of a whole list. -/
def ownersBy (key : A → K) (value : A → V) (l : List A) : ExtTreeMap K (List V) :=
  l.foldl (fun owners a => pushOwner owners (key a) (value a)) ∅

variable [DecidableEq K] {key : A → K} {value : A → V}

theorem getElem?_pushOwner (owners : ExtTreeMap K (List V)) (k k' : K) (v : V) :
    (pushOwner owners k v)[k']? =
      if k = k' then some (owners.getD k [] ++ [v]) else owners[k']? := by
  rw [pushOwner, ExtTreeMap.getElem?_insert]
  simp only [LawfulEqCmp.compare_eq_iff_eq]

theorem getElem?_ownersBy (l : List A) (k : K) :
    (ownersBy key value l)[k]? =
      match (l.filter fun a => key a = k).map value with
      | [] => none
      | values => some values := by
  unfold ownersBy
  induction l using List.reverseRecOn with
  | nil => simp
  | append_singleton l a ih =>
      rw [List.foldl_append, List.foldl_cons, List.foldl_nil, getElem?_pushOwner,
        List.filter_append, List.map_append]
      by_cases hk : key a = k
      · subst hk
        rw [if_pos rfl, ExtTreeMap.getD_eq_getD_getElem?, ih]
        cases hvalues : (l.filter fun b => key b = key a).map value <;> simp
      · rw [if_neg hk, ih]
        simp [hk]

/-- The lists of the groups are those of the keys that occur. -/
theorem mem_ownerSets_ownersBy {l : List A} {values : List V} :
    values ∈ ownerSets (ownersBy key value l) ↔
      ∃ a ∈ l, values = (l.filter fun b => key b = key a).map value := by
  unfold ownerSets
  simp only [List.mem_map, Prod.exists, exists_eq_right, ExtTreeMap.mem_toList_iff_getElem?_eq_some,
    getElem?_ownersBy]
  constructor
  · rintro ⟨k, hk⟩
    cases hvalues : (l.filter fun b => key b = k).map value with
    | nil => simp [hvalues] at hk
    | cons v vs =>
        rw [hvalues] at hk
        have hmem : v ∈ (l.filter fun b => key b = k).map value := by simp [hvalues]
        obtain ⟨a, ha, -⟩ := List.mem_map.1 hmem
        obtain ⟨hal, hak⟩ := List.mem_filter.1 ha
        obtain rfl := of_decide_eq_true hak
        exact ⟨a, hal, by rw [hvalues]; exact (Option.some.inj hk).symm⟩
  · rintro ⟨a, ha, rfl⟩
    refine ⟨key a, ?_⟩
    cases hvalues : (l.filter fun b => key b = key a).map value with
    | nil =>
        have : value a ∈ (l.filter fun b => key b = key a).map value :=
          List.mem_map_of_mem (List.mem_filter.2 ⟨ha, by simp⟩)
        simp [hvalues] at this
    | cons v vs => rfl

/-- No group has two members exactly when no key repeats. -/
theorem forall_ownerSets_length_le_one_iff {l : List A} :
    (∀ values ∈ ownerSets (ownersBy key value l), values.length ≤ 1) ↔
      (l.map key).Nodup := by
  have hcount : ∀ a, (l.map key).count (key a) =
      ((l.filter fun b => key b = key a).map value).length := by
    intro a
    rw [List.length_map, ← List.countP_eq_length_filter, List.count, List.countP_map]
    congr 1
  rw [List.nodup_iff_count_le_one]
  constructor
  · intro h k
    by_cases hk : k ∈ l.map key
    · obtain ⟨a, ha, rfl⟩ := List.mem_map.1 hk
      rw [hcount]
      exact h _ (mem_ownerSets_ownersBy.2 ⟨a, ha, rfl⟩)
    · rw [List.count_eq_zero_of_not_mem hk]
      exact Nat.zero_le 1
  · intro h values hvalues
    obtain ⟨a, ha, rfl⟩ := mem_ownerSets_ownersBy.1 hvalues
    rw [← hcount]
    exact h _

end DarkReNamer
