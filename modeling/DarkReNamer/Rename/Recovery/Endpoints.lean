import DarkReNamer.Rename.Recovery
import DarkReNamer.Rename.Volume

/-!
# The endpoints of the steps

Recovery builds its first map step by step: both endpoints of a step are added as free, and the
first step of each entry puts what it expects at its source. A round of this loop is followed here
on the map alone, for any entry keys.
-/

namespace DarkReNamer

open Std Occupancy

namespace Recovery

variable {key : EntryIdentity → LegacyText → PathKey} {steps done : List JournalStep}
  {step : JournalStep} {m : EndpointMap} {seen : ExtTreeSet EntryId}

/-- The move of a step between entry keys. -/
def plannedMove (key : EntryIdentity → LegacyText → PathKey) (step : JournalStep) : KeyMove :=
  ⟨key step.expectedSourceParent (pathLeaf step.source),
    key step.expectedDestinationParent (pathLeaf step.destination), step.expectedSource⟩

/-- The keys that the steps move between. -/
def endpointKeys (key : EntryIdentity → LegacyText → PathKey) (steps : List JournalStep) :
    List PathKey :=
  steps.flatMap fun step => [(plannedMove key step).source, (plannedMove key step).destination]

/-- The first step of some entry starts at `k` with the occupant `id`. -/
def StartsAt (key : EntryIdentity → LegacyText → PathKey) (steps : List JournalStep)
    (k : PathKey) (id : EntryIdentity) : Prop :=
  ∃ front step back, steps = front ++ step :: back ∧
    (∀ earlier ∈ front, earlier.entry ≠ step.entry) ∧ (plannedMove key step).source = k ∧
    step.expectedSource = id

theorem endpointKeys_append (done : List JournalStep) (step : JournalStep) :
    endpointKeys key (done ++ [step]) =
      endpointKeys key done ++
        [(plannedMove key step).source, (plannedMove key step).destination] := by
  simp [endpointKeys]

theorem source_mem_endpointKeys {step : JournalStep} (h : step ∈ steps) :
    (plannedMove key step).source ∈ endpointKeys key steps :=
  List.mem_flatMap.2 ⟨step, h, by simp⟩

theorem destination_mem_endpointKeys {step : JournalStep} (h : step ∈ steps) :
    (plannedMove key step).destination ∈ endpointKeys key steps :=
  List.mem_flatMap.2 ⟨step, h, by simp⟩

theorem startsAt_append_singleton {done : List JournalStep} {step : JournalStep} {k : PathKey}
    {id : EntryIdentity} :
    StartsAt key (done ++ [step]) k id ↔ StartsAt key done k id ∨
      (∀ earlier ∈ done, earlier.entry ≠ step.entry) ∧ (plannedMove key step).source = k ∧
        step.expectedSource = id := by
  constructor
  · rintro ⟨front, first, back, hsplit, hnew, hkey, hid⟩
    cases back using List.reverseRecOn with
    | nil =>
        obtain ⟨rfl, hlast⟩ := List.append_inj' hsplit rfl
        obtain rfl := List.singleton_inj.1 hlast
        exact .inr ⟨hnew, hkey, hid⟩
    | append_singleton back last =>
        have hends : done ++ [step] = (front ++ first :: back) ++ [last] := by
          rw [hsplit]
          simp
        exact .inl ⟨front, first, back, (List.append_inj' hends rfl).1, hnew, hkey, hid⟩
  · rintro (⟨front, first, back, rfl, hnew, hkey, hid⟩ | ⟨hnew, hkey, hid⟩)
    · exact ⟨front, first, back ++ [step], by simp, hnew, hkey, hid⟩
    · exact ⟨done, step, [], rfl, hnew, hkey, hid⟩

theorem getElem?_insertIfNew_none (m : EndpointMap) (key key' : PathKey) :
    (m.insertIfNew key none)[key']? =
      m[key']?.or (if key = key' then some none else none) := by
  rw [ExtTreeMap.getElem?_insertIfNew]
  simp only [LawfulEqCmp.compare_eq_iff_eq]
  by_cases hkey : key = key'
  · subst hkey
    by_cases hmem : key ∈ m
    · simp [hmem]
    · simp [hmem]
  · simp [hkey]

/-- Adding the endpoints of a step. -/
theorem getElem?_insertIfNew_endpoints (m : EndpointMap) (source destination k : PathKey) :
    ((m.insertIfNew source none).insertIfNew destination none)[k]? = m[k]?.or
      (if source = k ∨ destination = k then some none else none) := by
  rw [getElem?_insertIfNew_none, getElem?_insertIfNew_none]
  cases m[k]? with
  | some value => rfl
  | none =>
      by_cases hs : source = k <;> by_cases hd : destination = k <;> simp [hs, hd]

/-- The map with the endpoints of a step added. -/
def widened (key : EntryIdentity → LegacyText → PathKey) (m : EndpointMap) (step : JournalStep) :
    EndpointMap :=
  (m.insertIfNew (plannedMove key step).source none).insertIfNew (plannedMove key step).destination
    none

/-- The initial map of the steps seen so far. -/
structure Places (key : EntryIdentity → LegacyText → PathKey) (done : List JournalStep)
    (m : EndpointMap) (seen : ExtTreeSet EntryId) : Prop where
  seen : ∀ id, id ∈ seen ↔ ∃ step ∈ done, step.entry = id
  present : ∀ k, m[k]? ≠ none ↔ k ∈ endpointKeys key done
  occupied : ∀ k id, m[k]? = some (some id) ↔ StartsAt key done k id

namespace Places

theorem start : Places key [] ∅ ∅ := by
  refine ⟨by simp, by simp [endpointKeys], fun k identity => ?_⟩
  rw [ExtTreeMap.getElem?_empty]
  simp only [reduceCtorEq, false_iff]
  rintro ⟨front, step, back, hsplit, -⟩
  simp at hsplit

theorem contains_iff (h : Places key done m seen) :
    seen.contains step.entry = true ↔ ∃ earlier ∈ done, earlier.entry = step.entry := by
  rw [ExtTreeSet.contains_iff_mem, h.seen]

theorem widened_present (h : Places key done m seen) (k : PathKey) :
    (widened key m step)[k]? ≠ none ↔ k ∈ endpointKeys key (done ++ [step]) := by
  rw [widened, getElem?_insertIfNew_endpoints, endpointKeys_append, List.mem_append, ← h.present k]
  cases m[k]? with
  | some value => simp
  | none =>
      by_cases hs : (plannedMove key step).source = k <;>
        by_cases hd : (plannedMove key step).destination = k <;>
          simp [hs, hd, Ne.symm, eq_comm]

theorem widened_occupied (h : Places key done m seen) (k : PathKey) (id : EntryIdentity) :
    (widened key m step)[k]? = some (some id) ↔ StartsAt key done k id := by
  rw [widened, getElem?_insertIfNew_endpoints, ← h.occupied k id]
  cases m[k]? with
  | some value => simp
  | none => simp

/-- A later step of an entry adds its endpoints and nothing else. -/
theorem later (h : Places key done m seen) (hseen : seen.contains step.entry = true) :
    Places key (done ++ [step]) (widened key m step) seen := by
  obtain ⟨earlier, hearlier, hentry⟩ := h.contains_iff.1 hseen
  refine ⟨fun entry => ?_, h.widened_present, fun k id => ?_⟩
  · rw [h.seen]
    constructor
    · rintro ⟨other, hother, rfl⟩
      exact ⟨other, List.mem_append_left _ hother, rfl⟩
    · rintro ⟨other, hother, rfl⟩
      rcases List.mem_append.1 hother with hother | hother
      · exact ⟨other, hother, rfl⟩
      · obtain rfl := List.mem_singleton.1 hother
        exact ⟨earlier, hearlier, hentry⟩
  · rw [h.widened_occupied, startsAt_append_singleton]
    exact ⟨.inl, fun h => h.elim (fun h => h) fun h => absurd hentry (h.1 earlier hearlier)⟩

/-- The first step of an entry puts what it expects at its source, where nothing else is. -/
theorem first (h : Places key done m seen) (hseen : ¬seen.contains step.entry = true)
    (hfree : ((widened key m step)[(plannedMove key step).source]?.any fun entry =>
      entry.any fun entry => entry != step.expectedSource) = false) :
    Places key (done ++ [step])
      ((widened key m step).insert (plannedMove key step).source (some step.expectedSource))
      (seen.insert step.entry) := by
  have hnew : ∀ earlier ∈ done, earlier.entry ≠ step.entry := fun earlier hearlier heq =>
    hseen (h.contains_iff.2 ⟨earlier, hearlier, heq⟩)
  refine ⟨fun entry => ?_, fun k => ?_, fun k id => ?_⟩
  · rw [ExtTreeSet.mem_insert, h.seen]
    simp only [LawfulEqCmp.compare_eq_iff_eq, List.mem_append, List.mem_singleton]
    constructor
    · rintro (rfl | ⟨other, hother, rfl⟩)
      · exact ⟨step, .inr rfl, rfl⟩
      · exact ⟨other, .inl hother, rfl⟩
    · rintro ⟨other, hother | rfl, rfl⟩
      · exact .inr ⟨other, hother, rfl⟩
      · exact .inl rfl
  · rw [ExtTreeMap.getElem?_insert]
    simp only [LawfulEqCmp.compare_eq_iff_eq]
    split
    · next hk =>
        subst hk
        exact ⟨fun _ => source_mem_endpointKeys (by simp), fun _ => by simp⟩
    · exact h.widened_present k
  · rw [ExtTreeMap.getElem?_insert, startsAt_append_singleton]
    simp only [LawfulEqCmp.compare_eq_iff_eq]
    split
    · next hk =>
        subst hk
        constructor
        · intro hsome
          exact .inr ⟨hnew, rfl, Option.some.inj (Option.some.inj hsome)⟩
        · rintro (hstarts | ⟨-, -, rfl⟩)
          · rw [(h.widened_occupied _ _).2 hstarts] at hfree
            simp only [Option.any_some, bne_eq_false_iff_eq] at hfree
            rw [hfree]
          · rfl
    · next hk =>
        rw [h.widened_occupied]
        exact ⟨.inl, fun h => h.elim (fun h => h) fun h => absurd h.2.1 hk⟩

end Places

end Recovery

end DarkReNamer
