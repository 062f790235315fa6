import DarkReNamer.Core.Components
import DarkReNamer.Interaction.Yields
import DarkReNamer.Rename.Planner.Loops

/-!
# The ancestors of a path

The walk over the direct ancestors takes one separator a round, while the depth of a path
counts its components, so separators that follow one another use up rounds. Whatever the
visitor, the walk visits the cuts of the path behind its root, as many as there are rounds; it
visits every ancestor directory exactly when fewer separators than rounds come below the first
component.
-/

namespace DarkReNamer

open Interaction

namespace Planner

/-! ### The components of a path -/

/-- Whether the unit separates components of the path. -/
def separates (path : LegacyText) (unit : UInt16) : Bool :=
  isAncestorSeparator unit (verbatimDriveRootSeparator path.units).isSome

/-- Where the components of a path start: behind a drive, or at its beginning. -/
def componentsStart (units : List UInt16) : ℕ :=
  match verbatimDriveRootSeparator units with
  | some root => root + 1
  | none =>
      match units with
      | _ :: second :: third :: _ => if second == colon && isSeparator third then 3 else 0
      | _ => 0

/-- The components of a beginning of the path. -/
def pathComponents (path beginning : LegacyText) : List (List UInt16) :=
  components (separates path) (beginning.units.drop (componentsStart path.units))

/-- The beginning of the path names the directory of its first `k` components. -/
def Names (path beginning : LegacyText) (k : ℕ) : Prop :=
  beginning.units <+: path.units ∧ pathComponents path beginning = (pathComponents path path).take k

section Depth

variable {verbatim : Bool} {units : List UInt16}

theorem length_components_cons {α : Type} {p : α → Bool} {a : α} (l : List α) (ha : p a = false) :
    (components p (a :: l)).length = (components p (l.dropWhile fun a => !p a)).length + 1 := by
  have hrun : ∀ b ∈ a :: l.takeWhile (fun a => !p a), p b = false := by
    intro b hb
    rcases List.mem_cons.1 hb with rfl | hb
    · exact ha
    · simpa using List.mem_takeWhile_imp hb
  have hl : a :: l = (a :: l.takeWhile fun a => !p a) ++ l.dropWhile fun a => !p a := by
    rw [List.cons_append, List.takeWhile_append_dropWhile]
  cases hrest : l.dropWhile fun a => !p a with
  | nil =>
      rw [hl, hrest, List.append_nil, components_of_forall_not (List.cons_ne_nil _ _) hrun]
      rfl
  | cons b back =>
      have hne : (l.dropWhile fun a => !p a) ≠ [] := by simp [hrest]
      have hb : p b = true := by
        have hhead := List.head_dropWhile_not (fun a => !p a) hne
        simpa [hrest] using hhead
      rw [hl, hrest, components_append_cons _ _ hb, components_cons _ hb,
        components_of_forall_not (List.cons_ne_nil _ _) hrun, List.length_append]
      exact Nat.add_comm _ _

/-- The count of a text is that of its components, less the one it continues. -/
theorem countComponents_eq (verbatim : Bool) (units : List UInt16) :
    countComponents verbatim units false =
        (components (isAncestorSeparator · verbatim) units).length ∧
      countComponents verbatim units true = (components (isAncestorSeparator · verbatim)
        (units.dropWhile fun unit => !isAncestorSeparator unit verbatim)).length := by
  induction units with
  | nil => exact ⟨rfl, rfl⟩
  | cons unit units ih =>
      cases hunit : isAncestorSeparator unit verbatim with
      | true =>
          have hcons : components (isAncestorSeparator · verbatim) (unit :: units) =
              components (isAncestorSeparator · verbatim) units := components_cons units hunit
          simp [countComponents, hunit, ih.1, hcons]
      | false =>
          have hlength := length_components_cons (p := (isAncestorSeparator · verbatim)) units hunit
          simp [countComponents, hunit, ih.2, hlength]

/-- What is counted starts behind a drive, or at the beginning of the path. -/
theorem pathComponentDepth_eq (path : LegacyText) :
    pathComponentDepth path.units = (pathComponents path path).length := by
  obtain ⟨units⟩ := path
  have hcount := fun verbatim units => (countComponents_eq verbatim units).1
  unfold pathComponentDepth pathComponents separates componentsStart
  cases hverbatim : verbatimDriveRootSeparator units with
  | some root => exact hcount _ _
  | none =>
      rcases units with _ | ⟨first, _ | ⟨second, _ | ⟨third, rest⟩⟩⟩
      · exact hcount _ _
      · exact hcount _ _
      · exact hcount _ _
      · dsimp only
        split
        · exact hcount _ _
        · exact hcount _ _

end Depth

/-! ### The last separator -/

section Rposition

variable {p : UInt16 → Bool} {front back : List UInt16} {a : UInt16}

theorem findIdx?_of_forall_not {l : List UInt16} (h : ∀ a ∈ l, p a = false) :
    l.findIdx? p = none := by
  rw [List.findIdx?_eq_none_iff]
  exact h

theorem rposition_append_cons (front : List UInt16) (ha : p a = true)
    (h : ∀ b ∈ back, p b = false) : rposition p (front ++ a :: back) = some front.length := by
  have hback : back.reverse.findIdx? p = none :=
    findIdx?_of_forall_not fun b hb => h b (List.mem_reverse.1 hb)
  have hreverse : (front ++ a :: back).reverse = back.reverse ++ a :: front.reverse := by simp
  rw [rposition, hreverse, List.findIdx?_append, hback, List.findIdx?_cons, if_pos ha]
  simp

/-- Behind the last separator there is none. -/
theorem rposition_append_lt {i : ℕ} (h : ∀ b ∈ back, p b = false)
    (hi : rposition p (front ++ back) = some i) : i < front.length := by
  have hback : back.reverse.findIdx? p = none :=
    findIdx?_of_forall_not fun b hb => h b (List.mem_reverse.1 hb)
  rw [rposition, List.reverse_append, List.findIdx?_append, hback] at hi
  cases hfront : front.reverse.findIdx? p with
  | none => simp [hfront] at hi
  | some j =>
      have hj := (List.findIdx?_eq_some_iff_findIdx_eq.1 hfront).1
      rw [List.length_reverse] at hj
      simp [hfront] at hi
      omega

end Rposition

/-! ### The walk -/

section Walk

variable {β : Type}

/-- The separator that the walk does not pass. -/
def rootSeparator (units : List UInt16) : ℕ := (verbatimDriveRootSeparator units).getD 2

/-- The ancestors that the walk has rounds for, the nearest one first. -/
def directAncestors (path : LegacyText) : List LegacyText :=
  ((cuts (separates path) (path.units.drop (rootSeparator path.units + 1))).take
    maxPlanPathDepth).map fun below => ⟨path.units.take (rootSeparator path.units + 1) ++ below⟩

/-- Visits the paths in turn, until `visit` stops, and polls once more behind the last one if
there are rounds left. -/
def visitEach (visit : LegacyText → β → ExceptT PlanAttemptError Engine (β × Bool))
    (roundsLeft : Bool) : List LegacyText → β → ExceptT PlanAttemptError Engine β
  | [], acc =>
      if roundsLeft then do
        checkCancelled
        pure acc
      else pure acc
  | path :: rest, acc => do
      checkCancelled
      let (acc, stop) ← visit path acc
      if stop then pure acc else visitEach visit roundsLeft rest acc

variable {visit : LegacyText → β → ExceptT PlanAttemptError Engine (β × Bool)}

/-- What is left of a list before its last separator, if there is one. -/
theorem exists_last_or_forall_not {p : UInt16 → Bool} (l : List UInt16) :
    (∀ b ∈ l, p b = false) ∨
      ∃ front a back, l = front ++ a :: back ∧ p a = true ∧ ∀ b ∈ back, p b = false := by
  induction l with
  | nil => exact .inl (by simp)
  | cons a l ih =>
      rcases ih with hnot | ⟨front, b, back, rfl, hb, hback⟩
      · cases ha : p a with
        | true => exact .inr ⟨[], a, l, rfl, ha, hnot⟩
        | false =>
            refine .inl fun b hb => ?_
            rcases List.mem_cons.1 hb with rfl | hb
            · exact ha
            · exact hnot b hb
      · exact .inr ⟨a :: front, b, back, rfl, hb, hback⟩

/-- The walk visits the cuts behind the root, as many as there are rounds. -/
theorem visitFrom_eq (visit : LegacyText → β → ExceptT PlanAttemptError Engine (β × Bool))
    (verbatim : Bool) (root rounds : ℕ) (head tail : List UInt16)
    (hhead : head.length = root + 1 ∨ head.length ≤ root + 1 ∧ tail = []) (acc : β) :
    visitFrom verbatim root visit rounds ⟨head ++ tail⟩ acc =
      visitEach visit
        (decide ((cuts (isAncestorSeparator · verbatim) tail).length < rounds))
        (((cuts (isAncestorSeparator · verbatim) tail).take rounds).map
          fun below => ⟨head ++ below⟩) acc := by
  induction rounds generalizing tail acc with
  | zero => rfl
  | succ rounds ih =>
      rcases exists_last_or_forall_not (p := (isAncestorSeparator · verbatim)) tail with
        hnot | ⟨front, a, back, rfl, ha, hback⟩
      · have hcuts := cuts_of_forall_not hnot
        rw [hcuts, List.take_nil, List.map_nil, visitEach, visitFrom, if_pos (by simp)]
        congr 1
        funext _
        cases hlast : rposition (isAncestorSeparator · verbatim) (head ++ tail) with
        | none => rfl
        | some separator =>
            have hlt := rposition_append_lt hnot hlast
            have hle : separator ≤ root := by omega
            dsimp only
            rw [if_pos hle]
      · have hlength : head.length = root + 1 := by
          rcases hhead with hhead | ⟨-, hnil⟩
          · exact hhead
          · simp at hnil
        have hcuts := cuts_append_cons_of_forall_not front ha hback
        have hlast : rposition (isAncestorSeparator · verbatim)
            (head ++ (front ++ a :: back)) = some (head ++ front).length := by
          rw [← List.append_assoc]
          exact rposition_append_cons (head ++ front) ha hback
        have hpast : ¬ (head ++ front).length ≤ root := by
          rw [List.length_append]
          omega
        have htake : (head ++ (front ++ a :: back)).take (head ++ front).length =
            head ++ front := by
          rw [← List.append_assoc]
          exact List.take_left' rfl
        rw [hcuts, List.take_succ_cons, List.map_cons, visitEach, visitFrom]
        congr 1
        funext _
        simp only [hlast, if_neg hpast, htake]
        rw [if_neg]
        · congr 1
          funext result
          obtain ⟨acc, stop⟩ := result
          cases stop with
          | true => rfl
          | false =>
              simp only [Bool.false_eq_true, if_false, List.length_cons, Nat.add_lt_add_iff_right]
              exact ih front (.inl hlength) acc
        · simp [LegacyText.isEmpty]
          rintro rfl
          simp at hlength

theorem visitDirectAncestors_eq (path : LegacyText) (acc : β) :
    visitDirectAncestors path visit acc =
      visitEach visit (decide ((cuts (separates path)
        (path.units.drop (rootSeparator path.units + 1))).length < maxPlanPathDepth))
        (directAncestors path) acc := by
  have hsplit : path =
      ⟨path.units.take (rootSeparator path.units + 1) ++
        path.units.drop (rootSeparator path.units + 1)⟩ := by
    rw [List.take_append_drop]
  have hhead : (path.units.take (rootSeparator path.units + 1)).length =
        rootSeparator path.units + 1 ∨
      (path.units.take (rootSeparator path.units + 1)).length ≤ rootSeparator path.units + 1 ∧
        path.units.drop (rootSeparator path.units + 1) = [] := by
    rw [List.length_take, List.drop_eq_nil_iff]
    omega
  have hwalk := visitFrom_eq visit (verbatimDriveRootSeparator path.units).isSome
    (rootSeparator path.units) maxPlanPathDepth _ _ hhead acc
  rw [← hsplit] at hwalk
  exact hwalk

end Walk

/-! ### Which ancestors are visited -/

section Visited

variable {path : LegacyText} {k : ℕ}

/-- The separators of the path below its first component, repetitions included. -/
def separatorsBelow (path : LegacyText) : ℕ :=
  (belowFirst (separates path) (path.units.drop (componentsStart path.units))).countP
    (separates path)

theorem componentsStart_le (units : List UInt16) :
    componentsStart units ≤ rootSeparator units + 1 := by
  unfold componentsStart rootSeparator
  cases verbatimDriveRootSeparator units with
  | some root => exact Nat.le_refl _
  | none =>
      dsimp only [Option.getD_none]
      split
      · split
        · exact Nat.le_refl _
        · exact Nat.zero_le _
      · exact Nat.zero_le _

/-- The components of an absolute path start behind its root separator, or it begins with two
separators and they start there. -/
theorem componentsStart_of_absolute {units : List UInt16}
    (habsolute : isAbsoluteWindowsPath units = true) :
    componentsStart units = rootSeparator units + 1 ∨
      componentsStart units = 0 ∧ rootSeparator units = 2 ∧
        verbatimDriveRootSeparator units = none ∧ ∃ first second rest,
          units = first :: second :: rest ∧ isSeparator first = true ∧
            isSeparator second = true := by
  unfold componentsStart rootSeparator
  cases hverbatim : verbatimDriveRootSeparator units with
  | some root => exact .inl rfl
  | none =>
      rcases units with _ | ⟨first, _ | ⟨second, rest⟩⟩
      · simp [isAbsoluteWindowsPath] at habsolute
      · simp [isAbsoluteWindowsPath] at habsolute
      by_cases hunc : isSeparator first = true ∧ isSeparator second = true
      · have hcolon : (second == colon) = false := by
          refine Bool.eq_false_iff.2 fun h => ?_
          have hsecond := hunc.2
          rw [beq_iff_eq.1 h] at hsecond
          revert hsecond
          decide
        refine .inr ⟨?_, rfl, rfl, first, second, rest, rfl, hunc⟩
        rcases rest with _ | ⟨third, rest⟩
        · rfl
        · simp [hcolon]
      · rcases rest with _ | ⟨third, rest⟩
        · simp [isAbsoluteWindowsPath, hunc] at habsolute
        · simp only [isAbsoluteWindowsPath, Bool.or_eq_true, Bool.and_eq_true, hunc,
            or_false] at habsolute
          left
          dsimp only
          rw [habsolute.1.2, habsolute.2]
          rfl

/-- What an absolute path has in front of its root separator and behind the start of its
components are separators alone. -/
theorem components_of_mem_cuts_root (habsolute : isAbsoluteWindowsPath path.units = true)
    {q : List UInt16} (hq : q ∈ cuts (separates path) ((path.units.take
      (rootSeparator path.units + 1)).drop (componentsStart path.units))) :
    components (separates path) q = [] := by
  obtain ⟨x, back, hsplit, -⟩ := exists_of_mem_cuts hq
  rcases componentsStart_of_absolute habsolute with hstart | ⟨hstart, hroot, hverbatim, first,
    second, rest, hunits, hfirst, hsecond⟩
  · rw [hstart, List.drop_take, Nat.sub_self, List.take_zero] at hsplit
    simp at hsplit
  · rw [hstart, hroot, hunits, List.drop_zero] at hsplit
    have hseparates : ∀ unit, separates path unit = isSeparator unit := by
      intro unit
      simp [separates, isAncestorSeparator, isSeparator, hverbatim]
    have hsub : ∀ unit ∈ q, unit = first ∨ unit = second := by
      rcases q with _ | ⟨a, _ | ⟨b, _ | ⟨c, q⟩⟩⟩
      · simp
      · simp at hsplit
        simp [hsplit]
      · simp at hsplit
        simp [hsplit]
      · have hlength := congrArg List.length hsplit
        simp at hlength
        omega
    have hall : ∀ unit ∈ q, separates path unit = true := by
      intro unit hunit
      rw [hseparates]
      rcases hsub unit hunit with rfl | rfl
      · exact hfirst
      · exact hsecond
    have hnil := components_append_of_forall [] hall
    simpa using hnil

/-- Behind the start of its components an ancestor has the rest of the root and a cut. -/
theorem drop_componentsStart {units q : List UInt16}
    (hlength : rootSeparator units + 1 ≤ units.length ∨ q = []) :
    (units.take (rootSeparator units + 1) ++ q).drop (componentsStart units) =
      (units.take (rootSeparator units + 1)).drop (componentsStart units) ++ q := by
  have hle := componentsStart_le units
  rw [List.drop_append]
  congr 1
  rcases hlength with hlength | rfl
  · rw [List.length_take, Nat.min_eq_left hlength, Nat.sub_eq_zero_of_le hle, List.drop_zero]
  · exact List.drop_nil

/-- An ancestor with given components is visited exactly when a cut with these is among the
first ones. -/
theorem exists_directAncestor_iff (habsolute : isAbsoluteWindowsPath path.units = true)
    (hpos : 0 < k) (hk : k < (pathComponents path path).length) :
    (∃ ancestor ∈ directAncestors path, Names path ancestor k) ↔
      ∃ q ∈ (cuts (separates path) (path.units.drop (componentsStart path.units))).take
        maxPlanPathDepth, components (separates path) q = (pathComponents path path).take k := by
  have htail : rootSeparator path.units + 1 ≤ path.units.length ∨
      path.units.drop (rootSeparator path.units + 1) = [] := by
    rw [List.drop_eq_nil_iff]
    omega
  have hlist : path.units.drop (componentsStart path.units) =
      (path.units.take (rootSeparator path.units + 1)).drop (componentsStart path.units) ++
        path.units.drop (rootSeparator path.units + 1) := by
    have hdrop := drop_componentsStart htail
    rw [List.take_append_drop] at hdrop
    exact hdrop
  have hne : (pathComponents path path).take k ≠ [] := by
    intro hnil
    rw [List.take_eq_nil_iff] at hnil
    rcases hnil with hnil | hnil
    · omega
    · simp [hnil] at hk
  have hdrop : ∀ q ∈ cuts (separates path) (path.units.drop (rootSeparator path.units + 1)),
      (path.units.take (rootSeparator path.units + 1) ++ q).drop (componentsStart path.units) =
        (path.units.take (rootSeparator path.units + 1)).drop (componentsStart path.units) ++
          q := by
    intro q hq
    refine drop_componentsStart (htail.imp_right fun hnil => ?_)
    rw [hnil] at hq
    cases hq
  rw [hlist, cuts_append, List.take_append]
  constructor
  · rintro ⟨ancestor, hancestor, -, hnames⟩
    obtain ⟨q, hq, rfl⟩ := List.mem_map.1 hancestor
    refine ⟨_, List.mem_append_left _ ?_, hnames⟩
    rw [hdrop q (List.mem_of_mem_take hq), ← List.map_take]
    exact List.mem_map.2 ⟨q, hq, rfl⟩
  · rintro ⟨q, hq, hcomponents⟩
    rcases List.mem_append.1 hq with hq | hq
    · rw [← List.map_take] at hq
      obtain ⟨below, hbelow, rfl⟩ := List.mem_map.1 hq
      refine ⟨_, List.mem_map.2 ⟨below, hbelow, rfl⟩, ?_, ?_⟩
      · obtain ⟨x, back, hsplit, -⟩ := exists_of_mem_cuts (List.mem_of_mem_take hbelow)
        refine ⟨x :: back, ?_⟩
        dsimp only
        rw [List.append_assoc, ← hsplit, List.take_append_drop]
      · rw [pathComponents, hdrop below (List.mem_of_mem_take hbelow)]
        exact hcomponents
    · have hnil := components_of_mem_cuts_root habsolute (List.mem_of_mem_take hq)
      exact absurd (hcomponents.symm.trans hnil) hne

/-- The walk has a round for every ancestor exactly when fewer separators than rounds come
below the first component. -/
theorem forall_exists_directAncestor_iff (habsolute : isAbsoluteWindowsPath path.units = true) :
    (∀ k, 0 < k → k < pathComponentDepth path.units →
      ∃ ancestor ∈ directAncestors path, Names path ancestor k) ↔
      separatorsBelow path < maxPlanPathDepth := by
  rw [pathComponentDepth_eq, separatorsBelow, ← forall_exists_cut_iff (by decide)]
  refine forall_congr' fun k => forall_congr' fun hpos => forall_congr' fun hk => ?_
  exact exists_directAncestor_iff habsolute hpos hk

end Visited

/-! ### Visitors -/

section Visitor

variable {σ β : Type} {env : Environment σ Call Answer}
  {visit : LegacyText → β → ExceptT PlanAttemptError Engine (β × Bool)}

/-- The visitor, with the ancestors it is given beside its own accumulator. -/
def recording (visit : LegacyText → β → ExceptT PlanAttemptError Engine (β × Bool))
    (path : LegacyText) (acc : β × List LegacyText) :
    ExceptT PlanAttemptError Engine ((β × List LegacyText) × Bool) := do
  let (result, stop) ← visit path acc.1
  pure ((result, acc.2 ++ [path]), stop)

/-- A visitor that never stops is given every path. -/
theorem yields_visitEach_recording
    (hvisit : ∀ path acc, Yields env (fun r => r.2 = false) (visit path acc))
    (roundsLeft : Bool) (paths : List LegacyText) (acc : β × List LegacyText) :
    Yields env (fun r => r.2 = acc.2 ++ paths)
      (visitEach (recording visit) roundsLeft paths acc) := by
  induction paths generalizing acc with
  | nil =>
      have hdone : acc.2 = acc.2 ++ [] := (List.append_nil _).symm
      unfold visitEach
      split
      · exact Yields.bind (Yields.of_tries tries_checkCancelled) fun _ _ => Yields.pure hdone
      · exact Yields.pure hdone
  | cons path rest ih =>
      refine Yields.bind (Yields.of_tries tries_checkCancelled) fun _ _ => ?_
      have hrecord : Yields env (fun r => r.1.2 = acc.2 ++ [path] ∧ r.2 = false)
          (recording visit path acc) :=
        Yields.bind (hvisit path acc.1) fun _ hr => Yields.pure ⟨rfl, hr⟩
      refine Yields.bind hrecord ?_
      rintro ⟨acc', stop⟩ ⟨hseen, hstop⟩
      dsimp only at hseen hstop
      subst hstop
      have hrest := ih acc'
      rw [hseen, List.append_assoc] at hrest
      exact hrest

/-- Whatever is done at them, a walk that never stops visits a beginning of the path for each
proper ancestor directory below the root. -/
def SeesAncestors (path : LegacyText) : Prop :=
  ∀ {σ β : Type} (env : Environment σ Call Answer)
    (visit : LegacyText → β → ExceptT PlanAttemptError Engine (β × Bool)),
    (∀ ancestor acc, Yields env (fun r => r.2 = false) (visit ancestor acc)) →
    ∀ (acc : β) (s t : σ) (trace : List EngineEvent) (result : β × List LegacyText),
      Runs env (visitDirectAncestors path (recording visit) (acc, [])).run s trace
        (some (.ok result)) t →
      ∀ k, 0 < k → k < pathComponentDepth path.units →
        ∃ ancestor ∈ result.2, Names path ancestor k

/-- A caller that never asks for cancellation. -/
def uncancelled : Environment Unit Call Answer
  | _, .control .cancellationRequested, answer, _ => answer = false
  | _, _, _, _ => True

theorem exists_runs_visitEach (roundsLeft : Bool) (paths seen : List LegacyText) :
    ∃ trace, Runs uncancelled
      (visitEach (recording fun _ acc => pure (acc, false)) roundsLeft paths ((), seen)).run ()
      trace (some (.ok ((), seen ++ paths))) () := by
  induction paths generalizing seen with
  | nil =>
      rw [List.append_nil]
      cases roundsLeft with
      | true => exact ⟨_, Runs.call (s := ()) (t := ()) rfl (.done _ ())⟩
      | false => exact ⟨[], .done _ ()⟩
  | cons path rest ih =>
      obtain ⟨trace, run⟩ := ih (seen ++ [path])
      rw [List.append_assoc] at run
      exact ⟨_, Runs.call (s := ()) (t := ()) rfl run⟩

/-- The walk sees every ancestor of an absolute path exactly when fewer separators than rounds
come below its first component. -/
theorem seesAncestors_iff {path : LegacyText}
    (habsolute : isAbsoluteWindowsPath path.units = true) :
    SeesAncestors path ↔ separatorsBelow path < maxPlanPathDepth := by
  rw [← forall_exists_directAncestor_iff habsolute]
  constructor
  · intro h
    obtain ⟨trace, run⟩ := exists_runs_visitEach (decide ((cuts (separates path)
      (path.units.drop (rootSeparator path.units + 1))).length < maxPlanPathDepth))
      (directAncestors path) []
    rw [← visitDirectAncestors_eq] at run
    exact h uncancelled _ (fun _ _ => Yields.pure rfl) _ _ _ _ _ run
  · intro h σ β env visit hvisit acc s t trace result run
    rw [visitDirectAncestors_eq] at run
    obtain ⟨-, hpost⟩ := Spec.sound (yields_visitEach_recording hvisit _ _ (acc, []) s) run
    have hseen := hpost _ rfl result rfl
    rw [List.nil_append] at hseen
    rw [hseen]
    exact h

/-- Three components, with as many separators behind the second one as there are rounds. -/
def repeatedSeparators : LegacyText :=
  ⟨(LegacyText.ofAscii "C:\\x\\a").units ++ List.replicate 256 backslash ++
    (LegacyText.ofAscii "b").units⟩

theorem not_seesAncestors_repeatedSeparators :
    isAbsoluteWindowsPath repeatedSeparators.units = true ∧
      pathComponentDepth repeatedSeparators.units ≤ maxPlanPathDepth ∧
      ¬ SeesAncestors repeatedSeparators := by
  have habsolute : isAbsoluteWindowsPath repeatedSeparators.units = true := by decide +kernel
  refine ⟨habsolute, by decide +kernel, fun hsees => ?_⟩
  exact absurd ((seesAncestors_iff habsolute).1 hsees) (by decide +kernel)

/-- A walk with an invariant over the ancestors visited so far. -/
theorem checks_visitDirectAncestors {s : σ} {E : PlanAttemptError → Prop}
    (hpolls : Polls env s (E .cancelled)) {path : LegacyText} (I : List LegacyText → β → Prop)
    (stopped : β → Prop) {acc : β} (hinit : I [] acc)
    (hvisit : ∀ seen ancestor acc, I seen acc → Checks env (visit ancestor acc) s
      (fun r => if r.2 = true then stopped r.1 else I (seen ++ [ancestor]) r.1) E) :
    Checks env (visitDirectAncestors path visit acc) s
      (fun acc => I (directAncestors path) acc ∨ stopped acc) E := by
  have hfrom : ∀ roundsLeft paths seen acc, I seen acc →
      Checks env (visitEach visit roundsLeft paths acc) s
        (fun acc => I (seen ++ paths) acc ∨ stopped acc) E := by
    intro roundsLeft paths
    induction paths with
    | nil =>
        intro seen acc hacc
        rw [List.append_nil]
        unfold visitEach
        split
        · exact Checks.bind (checks_checkCancelled hpolls) fun _ _ => Checks.pure (.inl hacc)
        · exact Checks.pure (.inl hacc)
    | cons path rest ih =>
        intro seen acc hacc
        refine Checks.bind (checks_checkCancelled hpolls) fun _ _ => ?_
        refine Checks.bind (hvisit seen path acc hacc) fun r hr => ?_
        obtain ⟨acc, stop⟩ := r
        cases stop with
        | true => exact Checks.pure (.inr hr)
        | false =>
            have hrest := ih (seen ++ [path]) acc hr
            rw [List.append_assoc] at hrest
            exact hrest
  rw [visitDirectAncestors_eq]
  exact hfrom _ _ [] acc hinit

end Visitor

end Planner

end DarkReNamer
