import DarkReNamer.Interaction.Read
import DarkReNamer.Rename.Schedule
import DarkReNamer.Rename.World

/-!
# What the schedule builder prepares

The loops before the main one: the reserved keys, the owner of every source key, the
rows that wait for each other, and the ready set. For source keys and destination
keys without repetition none of them refuses the plan, and the lists they build say
exactly which row waits for which (`Waits`).
-/

namespace DarkReNamer

open Std Interaction

namespace Schedule

variable {σ : Type} {env : Environment σ Call Answer} {s : σ} {E : ScheduleError → Prop}

theorem checks_checkCancelled (h : Polls env s (E .cancelled)) :
    Checks env checkCancelled s (fun _ => True) E := by
  refine Checks.bind (Checks.lift (Reads.ask h)) fun a ha => ?_
  cases a with
  | true => exact Checks.throw (ha rfl)
  | false => exact Checks.pure trivial

theorem checks_checkEach (h : Polls env s (E .cancelled)) {α : Type} (l : List α) :
    Checks env (checkEach l) s (fun _ => True) E := by
  induction l with
  | nil => exact Checks.pure trivial
  | cons a l ih => exact Checks.bind (checks_checkCancelled h) fun _ _ => ih

theorem checks_reserveKeys (h : Polls env s (E .cancelled)) (keys : List PathKey)
    (reserved : ExtTreeSet PathKey) :
    Checks env (reserveKeys keys reserved) s
      (fun reserved' => ∀ k, k ∈ reserved' ↔ k ∈ reserved ∨ k ∈ keys) E := by
  induction keys generalizing reserved with
  | nil => exact Checks.pure (by simp)
  | cons key keys ih =>
      refine Checks.bind (checks_checkCancelled h) fun _ _ => ?_
      refine (ih (reserved.insert key)).mono (fun reserved' hr k => ?_) fun _ => id
      rw [hr, ExtTreeSet.mem_insert, LawfulEqCmp.compare_eq_iff_eq, List.mem_cons]
      tauto

/-- The owner entered for the first key is the row of that key. -/
theorem getElem?_insert_owner {key : PathKey} {keys : List PathKey} {index : ℕ}
    {owners : ExtTreeMap PathKey ℕ} (hkey : owners[key]? = none) (hnew : key ∉ keys)
    (k : PathKey) (i : ℕ) :
    ((owners.insert key index)[k]? = some i ∨
        ∃ j, keys[j]? = some k ∧ i = index + 1 + j) ↔
      owners[k]? = some i ∨ ∃ j, (key :: keys)[j]? = some k ∧ i = index + j := by
  rw [ExtTreeMap.getElem?_insert]
  by_cases hk : key = k
  · subst hk
    have hnone : ∀ j, keys[j]? ≠ some key := fun j hj => hnew (List.mem_of_getElem? hj)
    simp only [compare_self, if_true, hkey]
    constructor
    · rintro (hi | ⟨j, hj, -⟩)
      · exact .inr ⟨0, rfl, by simpa using hi.symm⟩
      · exact absurd hj (hnone j)
    · rintro (hi | ⟨j, hj, rfl⟩)
      · cases hi
      · cases j with
        | zero => exact .inl rfl
        | succ j => exact absurd hj (hnone j)
  · rw [if_neg (by simpa using hk)]
    refine or_congr Iff.rfl ?_
    constructor
    · rintro ⟨j, hj, rfl⟩
      exact ⟨j + 1, hj, by omega⟩
    · rintro ⟨j, hj, rfl⟩
      cases j with
      | zero => exact absurd (by simpa using hj) hk
      | succ j => exact ⟨j, hj, by omega⟩

/-- The owners after the source keys from `index` on. -/
theorem checks_ownersFrom (h : Polls env s (E .cancelled)) (keys : List PathKey) (index : ℕ)
    (owners : ExtTreeMap PathKey ℕ) (hkeys : keys.Nodup)
    (hnew : ∀ k ∈ keys, owners[k]? = none) :
    Checks env (ownersFrom keys index owners) s
      (fun owners' => ∀ k i, owners'[k]? = some i ↔
        owners[k]? = some i ∨ ∃ j, keys[j]? = some k ∧ i = index + j) E := by
  induction keys generalizing index owners with
  | nil => exact Checks.pure (by simp)
  | cons key keys ih =>
      obtain ⟨hkey, hkeys⟩ := List.nodup_cons.1 hkeys
      have hnone : owners[key]? = none := hnew key List.mem_cons_self
      refine Checks.bind (checks_checkCancelled h) fun _ _ => ?_
      have hfresh : owners.contains key = false := by
        rw [Bool.eq_false_iff, Ne, ExtTreeMap.contains_iff_mem]
        simpa using hnone
      simp only [hfresh, Bool.false_eq_true, if_false]
      refine (ih (index + 1) (owners.insert key index) hkeys fun k hk => ?_).mono
        (fun owners' ho k i => (ho k i).trans (getElem?_insert_owner hnone hkey k i)) fun _ => id
      have hne : key ≠ k := fun heq => hkey (heq ▸ hk)
      rw [ExtTreeMap.getElem?_insert, if_neg (by simpa using hne)]
      exact hnew k (List.mem_cons_of_mem _ hk)

section Waits

variable {sourceKeys destinationKeys : List PathKey}

/-- The destination of the row `i` is the source of the row `o`. -/
def Waits (sourceKeys destinationKeys : List PathKey) (i o : ℕ) : Prop :=
  ∃ key, destinationKeys[i]? = some key ∧ sourceKeys[o]? = some key

theorem getElem?_inj_of_nodup {α : Type} {l : List α} (hl : l.Nodup) {i j : ℕ} {a : α}
    (hi : l[i]? = some a) (hj : l[j]? = some a) : i = j :=
  (List.getElem?_inj (List.getElem?_eq_some_iff.1 hi).1 hl).1 (hi.trans hj.symm)

theorem Waits.unique_right (hsource : sourceKeys.Nodup) {i o o' : ℕ}
    (h : Waits sourceKeys destinationKeys i o) (h' : Waits sourceKeys destinationKeys i o') :
    o = o' := by
  obtain ⟨k, hk, ho⟩ := h
  obtain ⟨k', hk', ho'⟩ := h'
  obtain rfl : k = k' := Option.some.inj (hk.symm.trans hk')
  exact getElem?_inj_of_nodup hsource ho ho'

theorem Waits.unique_left (hdestination : destinationKeys.Nodup) {i i' o : ℕ}
    (h : Waits sourceKeys destinationKeys i o) (h' : Waits sourceKeys destinationKeys i' o) :
    i = i' := by
  obtain ⟨k, hi, ho⟩ := h
  obtain ⟨k', hi', ho'⟩ := h'
  obtain rfl : k = k' := Option.some.inj (ho.symm.trans ho')
  exact getElem?_inj_of_nodup hdestination hi hi'

/-- What the dependency lists say once the rows below `index` are entered. -/
structure Dependencies.Tracks (sourceKeys destinationKeys : List PathKey) (index : ℕ)
    (deps : Dependencies) : Prop where
  length_dependencies : deps.dependencies.length = destinationKeys.length
  length_predecessors : deps.predecessors.length = sourceKeys.length
  dependency : ∀ i o, deps.dependencies[i]?.join = some o ↔
    i < index ∧ Waits sourceKeys destinationKeys i o
  predecessor : ∀ o i, deps.predecessors[o]?.join = some i ↔
    i < index ∧ Waits sourceKeys destinationKeys i o

theorem join_getElem?_set {l : List (Option ℕ)} {i j : ℕ} (hi : i < l.length) (o : ℕ) :
    (l.set i (some o))[j]?.join = if i = j then some o else l[j]?.join := by
  rw [List.getElem?_set]
  split
  · simp
  · rfl

theorem Dependencies.Tracks.enter {deps : Dependencies} {index owner : ℕ}
    (h : deps.Tracks sourceKeys destinationKeys index) (hsource : sourceKeys.Nodup)
    (hwaits : Waits sourceKeys destinationKeys index owner)
    (hfree : ∀ i < index, ¬ Waits sourceKeys destinationKeys i owner) :
    Dependencies.Tracks sourceKeys destinationKeys (index + 1)
      ⟨deps.dependencies.set index (some owner),
        deps.predecessors.set owner (some index)⟩ := by
  obtain ⟨key, hkey, howner⟩ := id hwaits
  have hindex : index < deps.dependencies.length := by
    rw [h.length_dependencies]
    exact (List.getElem?_eq_some_iff.1 hkey).1
  have hlt : owner < deps.predecessors.length := by
    rw [h.length_predecessors]
    exact (List.getElem?_eq_some_iff.1 howner).1
  refine ⟨by simpa using h.length_dependencies, by simpa using h.length_predecessors,
    fun i o => ?_, fun o i => ?_⟩
  · rw [join_getElem?_set hindex]
    split
    · next heq =>
        subst heq
        constructor
        · rintro ho
          obtain rfl := Option.some.inj ho
          exact ⟨Nat.lt_succ_self _, hwaits⟩
        · rintro ⟨-, ho⟩
          rw [hwaits.unique_right hsource ho]
    · next hne =>
        rw [h.dependency]
        exact and_congr_left fun _ => by omega
  · rw [join_getElem?_set hlt]
    split
    · next heq =>
        subst heq
        constructor
        · rintro hi
          obtain rfl := Option.some.inj hi
          exact ⟨Nat.lt_succ_self _, hwaits⟩
        · rintro ⟨hlt, hi⟩
          rcases Nat.lt_succ_iff_lt_or_eq.1 hlt with hlt | rfl
          · exact absurd hi (hfree i hlt)
          · rfl
    · next hne =>
        rw [h.predecessor]
        refine and_congr_left fun hi => ⟨fun hlt => by omega, fun hlt => ?_⟩
        have : i ≠ index := by
          rintro rfl
          exact hne (hwaits.unique_right hsource hi)
        omega

theorem Dependencies.Tracks.skip {deps : Dependencies} {index : ℕ}
    (h : deps.Tracks sourceKeys destinationKeys index)
    (hnone : ∀ o, ¬ Waits sourceKeys destinationKeys index o) :
    deps.Tracks sourceKeys destinationKeys (index + 1) := by
  have hlt : ∀ i o, i < index ∧ Waits sourceKeys destinationKeys i o ↔
      i < index + 1 ∧ Waits sourceKeys destinationKeys i o := by
    intro i o
    refine and_congr_left fun hi => ⟨fun hlt => by omega, fun hlt => ?_⟩
    have : i ≠ index := by
      rintro rfl
      exact hnone o hi
    omega
  exact ⟨h.length_dependencies, h.length_predecessors,
    fun i o => (h.dependency i o).trans (hlt i o),
    fun o i => (h.predecessor o i).trans (hlt i o)⟩

/-- Once all rows are entered. -/
theorem Dependencies.Tracks.whole {deps : Dependencies} {index : ℕ}
    (h : deps.Tracks sourceKeys destinationKeys index) (hle : destinationKeys.length ≤ index) :
    deps.Tracks sourceKeys destinationKeys destinationKeys.length := by
  have hbound : ∀ i o, Waits sourceKeys destinationKeys i o → i < destinationKeys.length := by
    rintro i o ⟨key, hkey, -⟩
    exact (List.getElem?_eq_some_iff.1 hkey).1
  refine ⟨h.length_dependencies, h.length_predecessors, fun i o => ?_, fun o i => ?_⟩
  · rw [h.dependency]
    exact and_congr_left fun hi => ⟨fun _ => hbound i o hi, fun hi' => by omega⟩
  · rw [h.predecessor]
    exact and_congr_left fun hi => ⟨fun _ => hbound i o hi, fun hi' => by omega⟩

/-- The dependency lists of keys without repetition. -/
theorem checks_dependenciesFrom (h : Polls env s (E .cancelled)) (hsource : sourceKeys.Nodup)
    (hdestination : destinationKeys.Nodup) {owners : ExtTreeMap PathKey ℕ}
    (howners : ∀ (k : PathKey) (i : ℕ), owners[k]? = some i ↔ sourceKeys[i]? = some k)
    (destinations : List PathKey) (index : ℕ) (deps : Dependencies)
    (hrest : destinationKeys.drop index = destinations)
    (hdeps : deps.Tracks sourceKeys destinationKeys index) :
    Checks env (dependenciesFrom owners destinations index deps) s
      (fun deps' => deps'.Tracks sourceKeys destinationKeys destinationKeys.length) E := by
  induction destinations generalizing index deps with
  | nil =>
      exact Checks.pure (hdeps.whole (by simpa using hrest))
  | cons destination destinations ih =>
      have hkey : destinationKeys[index]? = some destination := by
        have := congrArg (·[0]?) hrest
        simpa using this
      have hdrop : destinationKeys.drop (index + 1) = destinations := by
        rw [← List.tail_drop, hrest]
        rfl
      refine Checks.bind (checks_checkCancelled h) fun _ _ => ?_
      cases howner : owners[destination]? with
      | none =>
          refine ih (index + 1) deps hdrop (hdeps.skip fun o => ?_)
          rintro ⟨key, hkey', ho⟩
          obtain rfl : destination = key := Option.some.inj (hkey.symm.trans hkey')
          rw [(howners destination o).2 ho] at howner
          cases howner
      | some owner =>
          have hwaits : Waits sourceKeys destinationKeys index owner :=
            ⟨destination, hkey, (howners destination owner).1 howner⟩
          have hfree : deps.predecessors[owner]?.join.isSome = false := by
            rw [Option.isSome_eq_false_iff, Option.isNone_iff_eq_none,
              Option.eq_none_iff_forall_ne_some]
            intro i hi
            obtain ⟨hlt, hi⟩ := (hdeps.predecessor owner i).1 hi
            exact absurd (hi.unique_left hdestination hwaits) (by omega)
          simp only [hfree, Bool.false_eq_true, if_false]
          exact ih (index + 1) _ hdrop (hdeps.enter hsource hwaits fun i hlt hi =>
            absurd (hi.unique_left hdestination hwaits) (by omega))

/-- What the last loop collects: the indices from `index` on, and those of them that wait for
nobody. -/
structure Collected (dependencies : List (Option ℕ)) (index : ℕ)
    (remainingIndices ready : ExtTreeSet ℕ) (r : ExtTreeSet ℕ × ExtTreeSet ℕ) : Prop where
  remaining : ∀ i, i ∈ r.1 ↔
    i ∈ remainingIndices ∨ index ≤ i ∧ i < index + dependencies.length
  ready : ∀ i, i ∈ r.2 ↔ i ∈ ready ∨ index ≤ i ∧ dependencies[i - index]? = some none

theorem Collected.nil (index : ℕ) (remainingIndices ready : ExtTreeSet ℕ) :
    Collected [] index remainingIndices ready (remainingIndices, ready) := by
  refine ⟨fun i => (or_iff_left ?_).symm, fun i => by simp⟩
  rw [List.length_nil]
  omega

theorem Collected.cons {dependency : Option ℕ} {dependencies : List (Option ℕ)} {index : ℕ}
    {remainingIndices ready : ExtTreeSet ℕ} {r : ExtTreeSet ℕ × ExtTreeSet ℕ}
    (h : Collected dependencies (index + 1) (remainingIndices.insert index)
      (if dependency.isNone then ready.insert index else ready) r) :
    Collected (dependency :: dependencies) index remainingIndices ready r := by
  refine ⟨fun i => ?_, fun i => ?_⟩
  · rw [h.remaining, ExtTreeSet.mem_insert, Nat.compare_eq_eq, List.length_cons,
      or_comm (a := index = i), or_assoc]
    refine or_congr Iff.rfl ?_
    omega
  · rw [h.ready]
    by_cases hi : i = index
    · subst hi
      have hlt : ¬ i + 1 ≤ i := by omega
      cases dependency <;> simp [hlt]
    · have hindex : index ≤ i → (dependency :: dependencies)[i - index]? =
          dependencies[i - (index + 1)]? := by
        intro hle
        rw [show i - index = (i - (index + 1)) + 1 by omega, List.getElem?_cons_succ]
      have hready : i ∈ (if dependency.isNone then ready.insert index else ready) ↔
          i ∈ ready := by
        split
        · rw [ExtTreeSet.mem_insert, Nat.compare_eq_eq]
          exact or_iff_right (fun h => hi h.symm)
        · rfl
      rw [hready]
      refine or_congr Iff.rfl ⟨fun hr' => ?_, fun hr' => ?_⟩
      · have hle : index ≤ i := by omega
        exact ⟨hle, (hindex hle).trans hr'.2⟩
      · exact ⟨by omega, (hindex hr'.1).symm.trans hr'.2⟩

theorem checks_readyFrom (h : Polls env s (E .cancelled)) (dependencies : List (Option ℕ))
    (index : ℕ) (remainingIndices ready : ExtTreeSet ℕ) :
    Checks env (readyFrom dependencies index remainingIndices ready) s
      (Collected dependencies index remainingIndices ready) E := by
  induction dependencies generalizing index remainingIndices ready with
  | nil => exact Checks.pure (.nil index remainingIndices ready)
  | cons dependency dependencies ih =>
      refine Checks.bind (checks_checkCancelled h) fun _ _ => ?_
      exact (ih _ _ _).mono (fun _ hr => hr.cons) fun _ => id

end Waits

end Schedule

end DarkReNamer
