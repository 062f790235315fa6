import DarkReNamer.Interaction.Confined
import DarkReNamer.Rename.Schedule.Rounds

/-!
# What the preparation accepts

The loops before the main one refuse a plan in which two rows have one source key, or two rows
want the place of one row. Of any other plan, whatever else is wrong with it, they find out which
row waits for which.
-/

namespace DarkReNamer

open Std Interaction

namespace Schedule

/-- Which row waits for which. -/
abbrev WaitsFor (plan : RenamePlan) : ℕ → ℕ → Prop :=
  Waits (plan.entries.map PlanRow.sourceEntryKey) (plan.entries.map PlanRow.destinationEntryKey)

/-- No two rows have one source, nor the source of one row as their destination. -/
structure Orderly (plan : RenamePlan) : Prop where
  sources_nodup : (plan.entries.map PlanRow.sourceEntryKey).Nodup
  unique_left : Relator.LeftUnique (WaitsFor plan)

theorem Orderly.unique_right {plan : RenamePlan} (h : Orderly plan) :
    Relator.RightUnique (WaitsFor plan) :=
  fun _ _ _ hij hik => hij.unique_right h.sources_nodup hik

theorem waitsFor_lt {plan : RenamePlan} {i j : ℕ} (h : WaitsFor plan i j) :
    i < plan.entries.length ∧ j < plan.entries.length := by
  obtain ⟨key, hi, hj⟩ := h
  have h₁ := (List.getElem?_eq_some_iff.1 hi).1
  have h₂ := (List.getElem?_eq_some_iff.1 hj).1
  exact ⟨by simpa using h₁, by simpa using h₂⟩

theorem tries_checkCancelled : Tries Call.Observes (fun _ => True) checkCancelled := by
  refine Tries.bind (Tries.ask trivial) fun requested _ => ?_
  cases requested with
  | true => exact Tries.throw _
  | false => exact Tries.pure trivial

theorem tries_checkEach {α : Type} (l : List α) :
    Tries Call.Observes (fun _ => True) (checkEach l) := by
  induction l with
  | nil => exact Tries.pure trivial
  | cons a l ih => exact Tries.bind tries_checkCancelled fun _ _ => ih

theorem tries_reserveKeys (keys : List PathKey) (reserved : ExtTreeSet PathKey) :
    Tries Call.Observes (fun reserved' => ∀ k, k ∈ reserved' ↔ k ∈ reserved ∨ k ∈ keys)
      (reserveKeys keys reserved) := by
  induction keys generalizing reserved with
  | nil => exact Tries.pure (by simp)
  | cons key keys ih =>
      refine Tries.bind tries_checkCancelled fun _ _ => ?_
      refine (ih (reserved.insert key)).mono fun reserved' hr k => ?_
      rw [hr, ExtTreeSet.mem_insert, LawfulEqCmp.compare_eq_iff_eq, List.mem_cons]
      tauto

/-- The owners after source keys that were not refused. -/
theorem tries_ownersFrom (keys : List PathKey) (index : ℕ) (owners : ExtTreeMap PathKey ℕ) :
    Tries Call.Observes (fun owners' => keys.Nodup ∧ (∀ k ∈ keys, owners[k]? = none) ∧
        ∀ k i, owners'[k]? = some i ↔
          owners[k]? = some i ∨ ∃ j, keys[j]? = some k ∧ i = index + j)
      (ownersFrom keys index owners) := by
  induction keys generalizing index owners with
  | nil => exact Tries.pure (by simp)
  | cons key keys ih =>
      refine Tries.bind tries_checkCancelled fun _ _ => ?_
      by_cases hcontains : owners.contains key = true
      · rw [if_pos hcontains]
        exact Tries.throw _
      · rw [if_neg hcontains]
        have hkey : owners[key]? = none := by simpa using hcontains
        refine (ih (index + 1) (owners.insert key index)).mono ?_
        rintro owners' ⟨hnodup, hnew, howners⟩
        have hnotMem : key ∉ keys := fun hmem => by simpa using hnew key hmem
        refine ⟨List.nodup_cons.2 ⟨hnotMem, hnodup⟩, List.forall_mem_cons.2 ⟨hkey, fun k hk => ?_⟩,
          fun k i => (howners k i).trans (getElem?_insert_owner hkey hnotMem k i)⟩
        have hne : key ≠ k := fun heq => hnotMem (heq ▸ hk)
        have hold := hnew k hk
        rwa [ExtTreeMap.getElem?_insert, if_neg (by simpa using hne)] at hold

section Waits

variable {sourceKeys destinationKeys : List PathKey}

/-- The dependency lists of keys that were not refused. -/
theorem tries_dependenciesFrom (hsource : sourceKeys.Nodup) {owners : ExtTreeMap PathKey ℕ}
    (howners : ∀ (k : PathKey) (i : ℕ), owners[k]? = some i ↔ sourceKeys[i]? = some k)
    (destinations : List PathKey) (index : ℕ) (deps : Dependencies)
    (hrest : destinationKeys.drop index = destinations)
    (hdeps : deps.Tracks sourceKeys destinationKeys index) :
    Tries Call.Observes
      (fun deps' => deps'.Tracks sourceKeys destinationKeys destinationKeys.length)
      (dependenciesFrom owners destinations index deps) := by
  induction destinations generalizing index deps with
  | nil => exact Tries.pure (hdeps.whole (by simpa using hrest))
  | cons destination destinations ih =>
      have hkey : destinationKeys[index]? = some destination := by
        have := congrArg (·[0]?) hrest
        simpa using this
      have hdrop : destinationKeys.drop (index + 1) = destinations := by
        rw [← List.tail_drop, hrest]
        rfl
      refine Tries.bind tries_checkCancelled fun _ _ => ?_
      cases howner : owners[destination]? with
      | none =>
          refine ih (index + 1) deps hdrop (hdeps.skip fun o => ?_)
          rintro ⟨key, hkey', ho⟩
          obtain rfl : destination = key := Option.some.inj (hkey.symm.trans hkey')
          rw [(howners destination o).2 ho] at howner
          cases howner
      | some owner =>
          have hwaits : Waits sourceKeys destinationKeys index owner :=
            ⟨destination, hkey, (howners destination owner).1 howner⟩
          dsimp only
          split
          · exact Tries.throw _
          · next hnone =>
              refine ih (index + 1) _ hdrop (hdeps.enter hsource hwaits fun i hlt hi => hnone ?_)
              rw [(hdeps.predecessor owner i).2 ⟨hlt, hi⟩]
              rfl

end Waits

theorem tries_readyFrom (dependencies : List (Option ℕ)) (index : ℕ)
    (remainingIndices ready : ExtTreeSet ℕ) :
    Tries Call.Observes (Collected dependencies index remainingIndices ready)
      (readyFrom dependencies index remainingIndices ready) := by
  induction dependencies generalizing index remainingIndices ready with
  | nil => exact Tries.pure (.nil index remainingIndices ready)
  | cons dependency dependencies ih =>
      exact Tries.bind tries_checkCancelled fun _ _ => (ih _ _ _).mono fun _ hr => hr.cons

/-- A ready row is one that waits for no row. -/
theorem ready_iff_of_tracks {plan : RenamePlan} {deps : Dependencies} {ready : ExtTreeSet ℕ}
    (hdeps : deps.Tracks (plan.entries.map PlanRow.sourceEntryKey)
      (plan.entries.map PlanRow.destinationEntryKey) plan.entries.length)
    (hready : ∀ i, i ∈ ready ↔ deps.dependencies[i]? = some none) (i : ℕ) :
    i ∈ ready ↔ i < plan.entries.length ∧
      ∀ j, WaitsFor plan i j → ¬ j < plan.entries.length := by
  have hdependency := hdeps.dependency i
  have hlength : deps.dependencies.length = plan.entries.length := by
    simpa using hdeps.length_dependencies
  refine (hready i).trans ⟨fun hnone => ?_, ?_⟩
  · have hi := (List.getElem?_eq_some_iff.1 hnone).1
    refine ⟨hlength ▸ hi, fun j hj => ?_⟩
    have hsome := (hdependency j).2 ⟨(waitsFor_lt hj).1, hj⟩
    simp [hnone] at hsome
  · rintro ⟨hi, hnone⟩
    rw [← hlength] at hi
    cases hvalue : deps.dependencies[i]? with
    | none =>
        simp at hvalue
        omega
    | some dependency =>
        cases dependency with
        | none => rfl
        | some j =>
            have hj := ((hdependency j).1 (by rw [hvalue]; rfl)).2
            exact absurd (waitsFor_lt hj).2 (hnone j hj)

/-- Everything before the main loop: the predecessors and the variables of the loop. -/
def prepare (plan : RenamePlan) : ExceptT ScheduleError Engine (List (Option ℕ) × LoopState) := do
  checkEach plan.entries
  let sourceKeys := plan.entries.map PlanRow.sourceEntryKey
  let destinationKeys := plan.entries.map PlanRow.destinationEntryKey
  let reserved ← reserveKeys (sourceKeys ++ destinationKeys) ∅
  let owners ← ownersFrom sourceKeys 0 ∅
  let unset : List (Option ℕ) := plan.entries.map fun _ => none
  let deps ← dependenciesFrom owners destinationKeys 0 ⟨unset, unset⟩
  let (remainingIndices, ready) ← readyFrom deps.dependencies 0 ∅ ∅
  pure (deps.predecessors,
    { pending := plan.entries.map fun _ => true
      remaining := plan.entries.length
      remainingIndices
      ready
      reserved
      schedule := [] })

theorem buildSchedule_eq_prepare (plan : RenamePlan) :
    buildSchedule plan = prepare plan >>= fun start =>
      mainLoop plan start.1 (plan.entries.length + 1) start.2 := by
  simp only [buildSchedule, prepare, bind_assoc, pure_bind]

/-- What is known before the first round. -/
structure Prepared (plan : RenamePlan) (predecessors : List (Option ℕ)) (st : LoopState) :
    Prop where
  orderly : Orderly plan
  predecessors : ∀ j i, predecessors[j]?.join = some i ↔ WaitsFor plan i j
  counters : st.Counters plan
  remaining : st.remaining = plan.entries.length
  pending : ∀ i, st.isPending i = true ↔ i < plan.entries.length
  ready : ∀ i, i ∈ st.ready ↔
    st.isPending i = true ∧ ∀ j, WaitsFor plan i j → ¬ st.isPending j = true
  reserved : ∀ key, key ∈ st.reserved ↔ key ∈ plan.entries.map PlanRow.sourceEntryKey ++
    plan.entries.map PlanRow.destinationEntryKey
  schedule : st.schedule = []

theorem join_getElem?_unset (l : List PlanRow) (i : ℕ) :
    (l.map fun _ => (none : Option ℕ))[i]?.join = none := by
  rw [List.getElem?_map]
  cases l[i]? <;> rfl

theorem isPending_initial (l : List PlanRow) (i : ℕ) :
    (l.map fun _ => true).getD i false = true ↔ i < l.length := by
  rw [List.getD_eq_getElem?_getD, List.getElem?_map]
  by_cases hi : i < l.length
  · simp [hi]
  · simp [hi]

theorem tries_prepare (plan : RenamePlan) :
    Tries Call.Observes (fun start => Prepared plan start.1 start.2) (prepare plan) := by
  refine Tries.bind (tries_checkEach _) fun _ _ => ?_
  refine Tries.bind (tries_reserveKeys _ _) fun reserved hreserved => ?_
  refine Tries.bind (tries_ownersFrom _ _ _) fun owners howners => ?_
  obtain ⟨hsources, -, howners⟩ := howners
  have howners' : ∀ (key : PathKey) (i : ℕ), owners[key]? = some i ↔
      (plan.entries.map PlanRow.sourceEntryKey)[i]? = some key := by
    intro key i
    rw [howners]
    simp
  refine Tries.bind (tries_dependenciesFrom hsources howners' _ 0 _ rfl ?_) fun deps hdeps => ?_
  · refine ⟨by simp, by simp, fun i j => ?_, fun i j => ?_⟩ <;>
      rw [join_getElem?_unset] <;> simp
  rw [List.length_map] at hdeps
  have hlength : deps.dependencies.length = plan.entries.length := by
    simpa using hdeps.length_dependencies
  have hpredecessors (j i : ℕ) : deps.predecessors[j]?.join = some i ↔ WaitsFor plan i j := by
    rw [hdeps.predecessor]
    exact ⟨fun h => h.2, fun h => ⟨(waitsFor_lt h).1, h⟩⟩
  refine Tries.bind (tries_readyFrom _ _ _ _) ?_
  rintro ⟨remainingIndices, ready⟩ hcollected
  have hremaining (i : ℕ) : i ∈ remainingIndices ↔ i < plan.entries.length := by
    simpa [hlength] using hcollected.remaining i
  have hready (i : ℕ) : i ∈ ready ↔ deps.dependencies[i]? = some none := by
    simpa using hcollected.ready i
  refine Tries.pure
    { orderly := ⟨hsources, fun i k j hi hk => ?_⟩
      predecessors := hpredecessors
      counters := ⟨List.length_map _, fun i =>
        (hremaining i).trans (isPending_initial plan.entries i).symm, ?_⟩
      remaining := rfl
      pending := isPending_initial plan.entries
      ready := fun i => ?_
      reserved := by simpa using hreserved
      schedule := rfl }
  · exact Option.some.inj (((hpredecessors j i).2 hi).symm.trans ((hpredecessors j k).2 hk))
  · exact (size_eq (j := 0) (by simpa using hremaining)).symm
  · simp only [LoopState.isPending, isPending_initial]
    exact ready_iff_of_tracks hdeps hready i

theorem tries_probeTemporary (plan : RenamePlan) (pivot : PlanRow) (nonce : BitVec 128)
    (reserved : ExtTreeSet PathKey) (ordinal count : ℕ) :
    Tries Call.Observes (fun _ => True)
      (probeTemporary plan pivot nonce reserved ordinal count) := by
  induction count generalizing ordinal with
  | zero => exact Tries.throw _
  | succ count ih =>
      refine Tries.bind tries_checkCancelled fun _ _ => ?_
      refine Tries.bind (Tries.ask trivial) fun planned _ => ?_
      cases planned with
      | error error => exact Tries.throw _
      | ok key =>
          dsimp only
          split
          · exact ih _
          · refine Tries.bind (Tries.ask trivial) fun observed _ => ?_
            cases observed with
            | error error => exact Tries.throw _
            | ok snapshot =>
                dsimp only
                split
                · exact Tries.throw _
                · split
                  · exact Tries.pure trivial
                  · exact ih _

theorem tries_uniqueTemporaryPath (plan : RenamePlan) (pivot : PlanRow)
    (reserved : ExtTreeSet PathKey) :
    Tries Call.Observes (fun _ => True) (uniqueTemporaryPath plan pivot reserved) := by
  refine Tries.bind tries_checkCancelled fun _ _ => ?_
  refine Tries.bind (Tries.ask trivial) fun nonce _ => ?_
  cases nonce with
  | error error => exact Tries.throw _
  | ok nonce => exact tries_probeTemporary _ _ _ _ _ _

end Schedule

end DarkReNamer
