import DarkReNamer.Admission.SortPaths.Stable

/-!
# The two forms of the sort

The collector is verified with a sort that merges lists, where the source merges arrays of
indices. Both make the same probes, one for each path moved in each pass and one at the end, and
between the probes both merge by the same comparisons. So they are the same program.
-/

namespace DarkReNamer

open Interaction

namespace Admission

variable {P : Type}

/-- So many probes, then a value. -/
def afterProbes {α : Type} : ℕ → α → Admission P α
  | 0, a => pure a
  | n + 1, a => do
    poll
    afterProbes n a

theorem afterProbes_bind {α β : Type} (m n : ℕ) (a : α) (f : α → Admission P β) (b : β)
    (h : f a = afterProbes n b) : (afterProbes m a >>= f) = afterProbes (m + n) b := by
  induction m with
  | zero => rw [afterProbes, pure_bind, h, Nat.zero_add]
  | succ m ih => rw [Nat.succ_add, afterProbes, afterProbes, bind_assoc, ih]

theorem afterProbes_map {α β : Type} (n : ℕ) (a : α) (f : α → β) :
    (do return f (← afterProbes n a) : Admission P β) = afterProbes n (f a) :=
  afterProbes_bind n 0 a _ (f a) rfl

section Lists

variable (comparePaths : P → P → Ordering)

/-- The comparison as the loops take it: the left one goes first unless it is greater. -/
def goesFirst (a b : P) : Bool := comparePaths a b != .gt

/-- One probe, then the elements that follow. -/
theorem poll_cons (n : ℕ) (a : P) (rest : List P) :
    (do poll; return a :: (← afterProbes n rest) : Admission P (List P)) =
      afterProbes (n + 1) (a :: rest) := by
  rw [afterProbes, afterProbes_map n rest fun rest => a :: rest]

theorem mergeRuns_eq (left right : List P) :
    mergeRuns comparePaths left right = afterProbes (left.length + right.length)
      (List.merge left right (goesFirst comparePaths)) := by
  fun_induction mergeRuns comparePaths left right with
  | case1 => rw [List.nil_merge, List.length_nil, afterProbes]
  | case2 a left ih => rw [ih, List.merge_right, List.merge_right, poll_cons]; rfl
  | case3 b right ih => rw [ih, List.nil_merge, List.nil_merge, poll_cons]; rfl
  | case4 a left b right ih ih' =>
      rw [ih, ih', afterProbes_map _ _ fun rest => a :: rest,
        afterProbes_map _ _ fun rest => b :: rest]
      by_cases hle : comparePaths a b ≠ .gt
      · have hfirst : goesFirst comparePaths a b = true := bne_iff_ne.2 hle
        have hcount : (a :: left).length + (b :: right).length =
            left.length + (b :: right).length + 1 := by simp only [List.length_cons]; omega
        simp only [if_pos hle]
        rw [List.cons_merge_cons_pos _ _ _ hfirst, hcount, afterProbes]
      · have hsecond : ¬goesFirst comparePaths a b = true := fun h => hle (bne_iff_ne.1 h)
        have hcount : (a :: left).length + (b :: right).length =
            (a :: left).length + right.length + 1 := by simp only [List.length_cons]; omega
        simp only [if_neg hle]
        rw [List.cons_merge_cons_neg _ _ _ hsecond, hcount, afterProbes]

theorem mergePass_eq {width : ℕ} (hwidth : 0 < width) (paths : List P) :
    mergePass comparePaths width paths = afterProbes paths.length
      (Slices.mergePass (goesFirst comparePaths) width paths) := by
  fun_induction mergePass comparePaths width paths with
  | case1 paths hend =>
      obtain rfl := hend.resolve_right hwidth.ne'
      rw [Slices.mergePass, dif_pos (.inl rfl), List.length_nil, afterProbes]
  | case2 paths hend ih =>
      have hpass : Slices.mergePass (goesFirst comparePaths) width paths =
          List.merge (paths.take width) ((paths.drop width).take width) (goesFirst comparePaths) ++
            Slices.mergePass (goesFirst comparePaths) width ((paths.drop width).drop width) := by
        rw [Slices.mergePass, dif_neg hend]
      have hcount : (paths.take width).length + ((paths.drop width).take width).length +
          ((paths.drop width).drop width).length = paths.length := by
        simp only [List.length_take, List.length_drop]
        omega
      rw [ih, mergeRuns_eq, hpass, ← hcount]
      exact afterProbes_bind _ _ _ _ _ (afterProbes_map _ _ _)

theorem mergePasses_eq {len width : ℕ} (paths : List P) (hlen : paths.length = len) :
    mergePasses comparePaths len width paths = afterProbes (IndexSort.passProbes len width)
      (Slices.mergePasses (goesFirst comparePaths) len width paths) := by
  induction width, paths using Slices.mergePasses.induct (goesFirst comparePaths) len with
  | case1 width paths hpass ih =>
      have hperm := Slices.mergePass_perm (goesFirst comparePaths) width paths
      rw [mergePasses, dif_pos hpass, mergePass_eq comparePaths (Nat.pos_of_ne_zero hpass.2),
        Slices.mergePasses, dif_pos hpass, IndexSort.passProbes, dif_pos hpass, hlen]
      exact afterProbes_bind _ _ _ _ _ (ih (hperm.length_eq.trans hlen))
  | case2 width paths hend =>
      rw [mergePasses, dif_neg hend, Slices.mergePasses, dif_neg hend, IndexSort.passProbes,
        dif_neg hend, afterProbes]

theorem sortPathsCancellable_eq (paths : List P) :
    sortPathsCancellable comparePaths paths =
      afterProbes (IndexSort.passProbes paths.length 1 + 1)
        (Slices.mergePasses (goesFirst comparePaths) paths.length 1 paths) := by
  by_cases hshort : paths.length < 2
  · have hone : ¬(1 < paths.length ∧ 1 ≠ 0) := by omega
    rw [sortPathsCancellable, if_pos hshort, IndexSort.passProbes_of_le (Nat.le_of_lt_succ hshort),
      Slices.mergePasses, dif_neg hone]
    rfl
  · rw [sortPathsCancellable, if_neg hshort, mergePasses_eq comparePaths paths rfl]
    exact afterProbes_bind _ 1 _ _ _ rfl

end Lists

/-- What the array sort leaves, as the list sort returns it. -/
def asAdmission : Except SortStop Unit × List P → Option (Except AdmissionCancelled (List P))
  | (.ok _, paths) => some (.ok paths)
  | (.error .cancelled, _) => some (.error ⟨⟩)
  | (.error .outOfBounds, _) => none

namespace IndexSort

/-- The comparison of what may be found at two positions. -/
def foundFirst (comparePaths : P → P → Ordering) : Option P → Option P → Bool
  | some a, some b => goesFirst comparePaths a b
  | _, _ => false

/-- The paths at the positions in order are the paths in order. -/
theorem takeSlots_mergePasses (comparePaths : P → P → Ordering) (paths : List P) :
    takeSlots (Slices.mergePasses (leAt comparePaths paths) paths.length 1
      (List.range paths.length)) (paths.map some) =
        Slices.mergePasses (goesFirst comparePaths) paths.length 1 paths := by
  have hnodup := ((Slices.mergePasses_perm (leAt comparePaths paths) paths.length 1
    (List.range paths.length)).nodup_iff).2 List.nodup_range
  have hrange : (List.range paths.length).map (paths[·]?) = paths.map some :=
    List.ext_getElem (by simp) fun i h _ => by simp
  have hfound : (Slices.mergePasses (leAt comparePaths paths) paths.length 1
      (List.range paths.length)).map (paths[·]?) =
        (Slices.mergePasses (goesFirst comparePaths) paths.length 1 paths).map some := by
    have hat : ∀ i j, leAt comparePaths paths i j = foundFirst comparePaths paths[i]? paths[j]? :=
      fun _ _ => rfl
    have hsome : ∀ a b, goesFirst comparePaths a b = foundFirst comparePaths (some a) (some b) :=
      fun _ _ => rfl
    rw [Slices.mergePasses_map hat, hrange, Slices.mergePasses_map hsome]
  have hpaths := congrArg (List.filterMap id) hfound
  rw [List.filterMap_map, List.filterMap_map] at hpaths
  rw [takeSlots_eq hnodup fun i _ => List.getElem?_map]
  exact hpaths.trans List.filterMap_some

/-- The same probes in front of both results. -/
theorem run_afterProbes (paths : List P) (order : List ℕ) (n : ℕ) :
    some <$> (afterProbes n (takeSlots order (paths.map some))).run =
      asAdmission <$> (do
        return outcome paths (← (afterPolls n order : Sorting P (List ℕ)).run)) := by
  induction n with
  | zero => rfl
  | succ n ih =>
      refine congrArg (Program.request _) (funext fun requested => ?_)
      cases requested with
      | true => rfl
      | false => exact ih

end IndexSort

/-- Both forms make the same probes and return the same, whatever the probes answer. -/
theorem sortPathsCancellable_agrees (comparePaths : P → P → Ordering) (paths : List P)
    (hlen : paths.length ≤ usizeMax) :
    some <$> (sortPathsCancellable comparePaths paths).run =
      asAdmission <$> IndexSort.sortPathsCancellable comparePaths paths hlen := by
  rw [sortPathsCancellable_eq, IndexSort.sortPathsCancellable_afterPolls,
    ← IndexSort.takeSlots_mergePasses]
  exact IndexSort.run_afterProbes paths _ _

end Admission

end DarkReNamer
