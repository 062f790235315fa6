import DarkReNamer.Admission.Bounds
import DarkReNamer.Admission.SortPaths

/-!
# The index sort is stable

Every loop of the index sort is so many probes and then one change of the array that is written.
Put together this is the bottom-up merge sort of the positions; the slots then give every path
once, in the order of the positions.
-/

namespace DarkReNamer

open Interaction Slices

namespace Admission

namespace IndexSort

variable {P : Type}

/-- So many probes in a row. -/
def polls : ℕ → Sorting P Unit
  | 0 => pure ()
  | n + 1 => do
    poll
    polls n

theorem polls_add (m n : ℕ) :
    (do polls m; polls n : Sorting P Unit) = polls (m + n) := by
  induction m with
  | zero => rw [polls, pure_bind, Nat.zero_add]
  | succ m ih => rw [Nat.succ_add, polls, polls, bind_assoc, ih]

theorem polls_add_bind {α : Type} (m n : ℕ) (next : Sorting P α) :
    (do polls m; polls n; next) = (do polls (m + n); next) := by
  rw [← polls_add, bind_assoc]

/-- Probes, then a value. -/
def afterPolls {α : Type} (n : ℕ) (a : α) : Sorting P α := do
  polls n
  pure a

theorem afterPolls_zero {α : Type} (a : α) : (afterPolls 0 a : Sorting P α) = pure a := by
  rw [afterPolls, polls, pure_bind]

theorem poll_afterPolls {α : Type} (n : ℕ) (a : α) :
    (do poll; afterPolls n a : Sorting P α) = afterPolls (n + 1) a := by
  rw [afterPolls, afterPolls, polls, bind_assoc]

theorem afterPolls_bind {α β : Type} (m n : ℕ) (a : α) (f : α → Sorting P β) (b : β)
    (h : f a = afterPolls n b) : (afterPolls m a >>= f) = afterPolls (m + n) b := by
  rw [afterPolls, bind_assoc, pure_bind, h, afterPolls, polls_add_bind, afterPolls]

theorem load_eq {α : Type} {array : List α} {i : ℕ} {a : α} (h : array[i]? = some a) :
    (load array i : Sorting P α) = pure a := by
  rw [load, h]

theorem store_eq {α : Type} {array : List α} {i : ℕ} (a : α) (h : i < array.length) :
    (store array i a : Sorting P (List α)) = pure (array.set i a) := if_pos h

/-! ### Parts of arrays -/

/-- The elements from `start` up to `stop`. -/
def segment (array : List ℕ) (start stop : ℕ) : List ℕ := (array.take stop).drop start

/-- The array with a run written from `output` on. -/
def written (array : List ℕ) (output : ℕ) (run : List ℕ) : List ℕ :=
  array.take output ++ run ++ array.drop (output + run.length)

section Arrays

variable {array run run' : List ℕ} {start stop output : ℕ}

theorem length_segment (h : stop ≤ array.length) :
    (segment array start stop).length = stop - start := by
  rw [segment, List.length_drop, List.length_take, Nat.min_eq_left h]

theorem segment_of_le (h : stop ≤ start) : segment array start stop = [] := by
  rw [segment]
  exact List.drop_of_length_le ((List.length_take_le _ _).trans h)

theorem segment_eq_cons (h : start < stop) (hstop : stop ≤ array.length) :
    ∃ i, array[start]? = some i ∧ i ∈ array ∧
      segment array start stop = i :: segment array (start + 1) stop := by
  have hlt : start < array.length := h.trans_le hstop
  refine ⟨array[start], List.getElem?_eq_getElem hlt, List.getElem_mem hlt, ?_⟩
  have htake : start < (array.take stop).length := by
    rw [List.length_take]
    omega
  rw [segment, segment, List.drop_eq_getElem_cons htake, List.getElem_take]

theorem length_written (h : output + run.length ≤ array.length) :
    (written array output run).length = array.length := by
  simp only [written, List.length_append, List.length_take, List.length_drop]
  omega

theorem written_nil (array : List ℕ) (output : ℕ) : written array output [] = array := by
  simp [written]

/-- An element written in front of a run. -/
theorem written_set (i : ℕ) (h : output < array.length) :
    written (array.set output i) (output + 1) run = written array output (i :: run) := by
  have htake : (array.set output i).take (output + 1) = array.take output ++ [i] := by
    rw [List.take_succ_eq_append_getElem (by simpa using h), List.getElem_set_self,
      List.take_set_of_le le_rfl]
  have hdrop : (array.set output i).drop (output + 1 + run.length) =
      array.drop (output + 1 + run.length) := List.drop_set_of_lt (by omega)
  rw [written, written, htake, hdrop, List.length_cons, List.append_assoc, List.append_assoc,
    List.singleton_append, List.append_assoc, List.cons_append]
  congr 4
  omega

/-- One run written behind another. -/
theorem written_written (h : output + run.length ≤ array.length) :
    written (written array output run) (output + run.length) run' =
      written array output (run ++ run') := by
  have hfront : (array.take output ++ run).length = output + run.length := by
    rw [List.length_append, List.length_take]
    omega
  have htake : (written array output run).take (output + run.length) =
      array.take output ++ run := by
    rw [written, ← hfront, List.take_left]
  have hdrop : (written array output run).drop (output + run.length + run'.length) =
      array.drop (output + run.length + run'.length) := by
    rw [written, List.drop_append, List.drop_of_length_le (by omega), List.nil_append, hfront,
      List.drop_drop]
    congr 1
    omega
  rw [written, htake, hdrop, written, List.length_append]
  simp only [List.append_assoc, Nat.add_assoc]

end Arrays

/-! ### The loops -/

section Loops

variable {comparePaths : P → P → Ordering} {paths : List P} {order : List ℕ}

theorem copyRest_eq {limit source output : ℕ} {merged : List ℕ} (hlimit : limit ≤ order.length)
    (hroom : output + (limit - source) ≤ merged.length) :
    (copyRest order limit source output merged : Sorting P (ℕ × List ℕ)) =
      afterPolls (limit - source) (output + (limit - source),
        written merged output (segment order source limit)) := by
  fun_induction copyRest order limit source output merged with
  | case1 source output merged hlt ih =>
      obtain ⟨i, hload, -, hsegment⟩ := segment_eq_cons hlt hlimit
      have hroom' : output + 1 + (limit - (source + 1)) ≤ (merged.set output i).length := by
        rw [List.length_set]
        omega
      rw [load_eq hload, pure_bind, store_eq i (by omega), pure_bind, ih _ hroom',
        poll_afterPolls, written_set i (by omega), hsegment]
      congr 2
      · omega
      · omega
  | case2 source output merged hge =>
      rw [segment_of_le (by omega), written_nil, Nat.sub_eq_zero_of_le (by omega),
        afterPolls_zero, Nat.add_zero]

/-- The comparison of two positions, as the loop takes it: the left one goes first. -/
def leAt (comparePaths : P → P → Ordering) (paths : List P) (i j : ℕ) : Bool :=
  match paths[i]?, paths[j]? with
  | some a, some b => comparePaths a b != .gt
  | _, _ => false

theorem leAt_eq (comparePaths : P → P → Ordering) {i j : ℕ} {a b : P}
    (ha : paths[i]? = some a) (hb : paths[j]? = some b) :
    leAt comparePaths paths i j = (comparePaths a b != .gt) := by
  rw [leAt, ha, hb]

/-- One round of the loop over both runs. -/
theorem mergeRuns_step {middle stop i j : ℕ} {positions : Positions} {merged : List ℕ} {a b : P}
    (hleft : positions.left < middle) (hright : positions.right < stop)
    (hi : order[positions.left]? = some i) (hj : order[positions.right]? = some j)
    (ha : paths[i]? = some a) (hb : paths[j]? = some b)
    (houtput : positions.output < merged.length) :
    mergeRuns comparePaths paths order middle stop positions merged = (do
      poll
      if comparePaths a b ≠ .gt then
        mergeRuns comparePaths paths order middle stop
          ⟨positions.left + 1, positions.right, positions.output + 1⟩
          (merged.set positions.output i)
      else
        mergeRuns comparePaths paths order middle stop
          ⟨positions.left, positions.right + 1, positions.output + 1⟩
          (merged.set positions.output j)) := by
  rw [mergeRuns, mergeBoth, dif_pos ⟨hleft, hright⟩, load_eq hi, load_eq hj]
  simp only [pure_bind, load_eq ha, load_eq hb, store_eq _ houtput, bind_assoc]
  congr 1
  funext _
  split
  · rfl
  · rfl

/-- When one run is used up the other is copied. -/
theorem mergeRuns_rest {middle stop : ℕ} {positions : Positions} {merged : List ℕ}
    (hmiddle : middle ≤ order.length) (hstop : stop ≤ order.length)
    (hroom : positions.output + (middle - positions.left) + (stop - positions.right) ≤
      merged.length)
    (hnot : ¬(positions.left < middle ∧ positions.right < stop)) :
    mergeRuns comparePaths paths order middle stop positions merged =
      afterPolls (middle - positions.left + (stop - positions.right))
        (written merged positions.output
          (segment order positions.left middle ++ segment order positions.right stop)) := by
  have hlength : (segment order positions.left middle).length = middle - positions.left :=
    length_segment hmiddle
  have hfirst : positions.output + (segment order positions.left middle).length ≤
      merged.length := by
    rw [hlength]
    omega
  have hsecond : positions.output + (middle - positions.left) + (stop - positions.right) ≤
      (written merged positions.output (segment order positions.left middle)).length := by
    rw [length_written hfirst]
    exact hroom
  have hwritten : written (written merged positions.output (segment order positions.left middle))
      (positions.output + (segment order positions.left middle).length)
      (segment order positions.right stop) = written merged positions.output
        (segment order positions.left middle ++ segment order positions.right stop) :=
    written_written hfirst
  rw [hlength] at hwritten
  rw [mergeRuns, mergeBoth, dif_neg hnot, pure_bind]
  dsimp only
  rw [copyRest_eq hmiddle (by omega)]
  refine afterPolls_bind _ _ _ _ _ ?_
  dsimp only
  rw [copyRest_eq hstop hsecond, hwritten]
  exact afterPolls_bind _ 0 _ _ _ (afterPolls_zero _).symm

/-- The three loops write the merged runs. -/
theorem mergeRuns_eq {middle stop : ℕ} {positions : Positions} {merged : List ℕ}
    (hmiddle : middle ≤ order.length) (hstop : stop ≤ order.length)
    (hindices : ∀ i ∈ order, i < paths.length)
    (hroom : positions.output + (middle - positions.left) + (stop - positions.right) ≤
      merged.length) :
    mergeRuns comparePaths paths order middle stop positions merged =
      afterPolls (middle - positions.left + (stop - positions.right))
        (written merged positions.output (List.merge (segment order positions.left middle)
          (segment order positions.right stop) (leAt comparePaths paths))) := by
  by_cases hboth : positions.left < middle ∧ positions.right < stop
  · obtain ⟨i, hi, himem, hleft⟩ := segment_eq_cons hboth.1 hmiddle
    obtain ⟨j, hj, hjmem, hright⟩ := segment_eq_cons hboth.2 hstop
    have ha := List.getElem?_eq_getElem (hindices i himem)
    have hb := List.getElem?_eq_getElem (hindices j hjmem)
    have houtput : positions.output < merged.length := by omega
    have hle := leAt_eq comparePaths ha hb
    rw [mergeRuns_step hboth.1 hboth.2 hi hj ha hb houtput, hleft, hright]
    have hcount : middle - positions.left + (stop - positions.right) =
        middle - (positions.left + 1) + (stop - positions.right) + 1 := by omega
    have hcount' : middle - positions.left + (stop - positions.right) =
        middle - positions.left + (stop - (positions.right + 1)) + 1 := by omega
    split
    · next htake =>
        rw [mergeRuns_eq hmiddle hstop hindices (by simp only [List.length_set]; omega),
          poll_afterPolls, written_set i houtput, ← hcount,
          List.cons_merge_cons_pos _ _ _ (by simpa [hle] using htake), ← hright]
    · next htake =>
        rw [mergeRuns_eq hmiddle hstop hindices (by simp only [List.length_set]; omega),
          poll_afterPolls, written_set j houtput, ← hcount',
          List.cons_merge_cons_neg _ _ _ (by simpa [hle] using htake), ← hleft]
  · rw [mergeRuns_rest hmiddle hstop hroom hboth]
    rcases not_and_or.1 hboth with hleft | hright
    · rw [segment_of_le (Nat.not_lt.1 hleft), List.nil_append, List.nil_merge]
    · rw [segment_of_le (Nat.not_lt.1 hright), List.append_nil, List.merge_right]
termination_by middle - positions.left + (stop - positions.right)

theorem drop_min {α : Type} (l : List α) (n : ℕ) : l.drop (min n l.length) = l.drop n := by
  rcases Nat.le_total n l.length with h | h
  · rw [Nat.min_eq_left h]
  · rw [Nat.min_eq_right h, List.drop_length, List.drop_of_length_le h]

/-- A run of the given width, cut at the end of the array. -/
theorem segment_min (array : List ℕ) (start width : ℕ) :
    segment array start (min (start + width) array.length) = (array.drop start).take width := by
  rw [segment, List.drop_take, List.take_eq_take_iff, List.length_drop]
  omega

theorem mergePass_eq {hlen : paths.length ≤ usizeMax} {width : ℕ} {hwidth : 0 < width}
    {start : ℕ} {merged : List ℕ} (horder : order.length = paths.length)
    (hmerged : merged.length = paths.length) (hindices : ∀ i ∈ order, i < paths.length) :
    mergePass comparePaths paths order hlen width hwidth start merged =
      afterPolls (paths.length - start) (written merged start
        (Slices.mergePass (leAt comparePaths paths) width (order.drop start))) := by
  fun_induction mergePass comparePaths paths order hlen width hwidth start merged with
  | case1 start merged hlt middle stop ih =>
      have hmiddle : middle = min (start + width) order.length := by
        simp only [middle, saturatingAdd]
        omega
      have hstop : stop = min (middle + width) order.length := by
        simp only [stop, saturatingAdd]
        omega
      clear_value middle stop
      have hleft : segment order start middle = (order.drop start).take width := by
        rw [hmiddle, segment_min]
      have hdrop : order.drop middle = (order.drop start).drop width := by
        rw [hmiddle, drop_min, List.drop_drop]
      have hright : segment order middle stop = ((order.drop start).drop width).take width := by
        rw [hstop, segment_min, hdrop]
      have hrest : order.drop stop = ((order.drop start).drop width).drop width := by
        rw [hstop, drop_min, ← List.drop_drop, hdrop]
      have hne : ¬(order.drop start = [] ∨ width = 0) := by
        rintro (hnil | hzero)
        · rw [List.drop_eq_nil_iff] at hnil
          omega
        · exact hwidth.ne' hzero
      rw [mergeRuns_eq (by omega) (by omega) hindices (by dsimp only; omega)]
      dsimp only
      obtain ⟨run, hrun⟩ : ∃ run, run = List.merge (segment order start middle)
        (segment order middle stop) (leAt comparePaths paths) := ⟨_, rfl⟩
      have hcount : start + run.length = stop := by
        rw [hrun, List.length_merge, length_segment (by omega), length_segment (by omega)]
        omega
      have hpass : Slices.mergePass (leAt comparePaths paths) width (order.drop start) =
          run ++ Slices.mergePass (leAt comparePaths paths) width (order.drop stop) := by
        rw [Slices.mergePass, dif_neg hne, hrun, hleft, hright, hrest]
      have hlength : (written merged start run).length = paths.length := by
        rw [length_written (by omega), hmerged]
      have hwritten : written (written merged start run) (start + run.length)
          (Slices.mergePass (leAt comparePaths paths) width (order.drop stop)) =
            written merged start (run ++ Slices.mergePass (leAt comparePaths paths) width
              (order.drop stop)) := written_written (by omega)
      rw [hcount, ← hpass] at hwritten
      rw [← hrun]
      rw [afterPolls_bind _ _ _ _ _ (ih _ hlength), hwritten]
      congr 1
      omega
  | case2 start merged hge =>
      rw [List.drop_of_length_le (by omega), Slices.mergePass, dif_pos (.inl rfl), written_nil,
        Nat.sub_eq_zero_of_le (by omega), afterPolls_zero]

/-- The probes of the passes: one for each element in each pass. -/
def passProbes (len width : ℕ) : ℕ :=
  if _h : width < len ∧ width ≠ 0 then len + passProbes len (width * 2) else 0
termination_by len - width

theorem mergePasses_of_le {le : ℕ → ℕ → Bool} {len width : ℕ} (h : len ≤ width) (l : List ℕ) :
    Slices.mergePasses le len width l = l := by
  rw [Slices.mergePasses, dif_neg (by omega)]

theorem passProbes_of_le {len width : ℕ} (h : len ≤ width) : passProbes len width = 0 := by
  rw [passProbes, dif_neg (by omega)]

/-- Doubling that saturates makes no difference: no pass is left then. -/
theorem mergePasses_saturating {len : ℕ} (hlen : len ≤ usizeMax) (le : ℕ → ℕ → Bool) (width : ℕ)
    (l : List ℕ) :
    Slices.mergePasses le len (saturatingMul usizeMax width 2) l =
        Slices.mergePasses le len (width * 2) l ∧
      passProbes len (saturatingMul usizeMax width 2) = passProbes len (width * 2) := by
  rcases Nat.le_total (width * 2) usizeMax with hle | hge
  · rw [saturatingMul, Nat.min_eq_left hle]
    exact ⟨rfl, rfl⟩
  · rw [saturatingMul, Nat.min_eq_right hge, mergePasses_of_le hlen,
      mergePasses_of_le (hlen.trans hge), passProbes_of_le hlen, passProbes_of_le (hlen.trans hge)]
    exact ⟨rfl, rfl⟩

theorem mergePasses_eq {hlen : paths.length ≤ usizeMax} {width : ℕ} {hwidth : 0 < width}
    {merged : List ℕ} (horder : order.length = paths.length)
    (hmerged : merged.length = paths.length) (hindices : ∀ i ∈ order, i < paths.length) :
    mergePasses comparePaths paths hlen width hwidth order merged =
      afterPolls (passProbes paths.length width)
        (Slices.mergePasses (leAt comparePaths paths) paths.length width order) := by
  fun_induction mergePasses comparePaths paths hlen width hwidth order merged with
  | case1 width hwidth order merged hlt ih =>
      obtain ⟨next, hnext⟩ : ∃ next, next =
        Slices.mergePass (leAt comparePaths paths) width order := ⟨_, rfl⟩
      have hperm : next.Perm order := hnext ▸ mergePass_perm _ width order
      have hwritten : written merged 0 next = next := by
        rw [written, List.take_zero, List.nil_append, Nat.zero_add, hperm.length_eq, horder,
          ← hmerged, List.drop_length, List.append_nil]
      obtain ⟨hdouble, hprobes⟩ :=
        mergePasses_saturating hlen (leAt comparePaths paths) width next
      rw [mergePass_eq horder hmerged hindices, List.drop_zero, ← hnext, hwritten,
        Slices.mergePasses, dif_pos ⟨hlt, hwidth.ne'⟩, ← hnext, ← hdouble, passProbes,
        dif_pos ⟨hlt, hwidth.ne'⟩, ← hprobes]
      exact afterPolls_bind _ _ _ _ _ (ih next (hperm.length_eq.trans horder) horder
        fun i hi => hindices i (hperm.mem_iff.1 hi))
  | case2 width hwidth order merged hge =>
      rw [mergePasses_of_le (Nat.not_lt.1 hge), passProbes_of_le (Nat.not_lt.1 hge),
        afterPolls_zero]

end Loops

/-! ### Slots -/

/-- Each path is taken once, in the order of the indices. -/
theorem takeSlots_eq {order : List ℕ} (hnodup : order.Nodup) {paths : List P}
    {slots : List (Option P)} (hslots : ∀ i ∈ order, slots[i]? = (paths[i]?).map some) :
    takeSlots order slots = order.filterMap (paths[·]?) := by
  induction order generalizing slots with
  | nil => rfl
  | cons index order ih =>
      obtain ⟨hindex, hnodup⟩ := List.nodup_cons.1 hnodup
      rw [takeSlots, hslots index (by simp)]
      cases hpath : paths[index]? with
      | none =>
          rw [List.filterMap_cons_none hpath]
          exact ih hnodup fun i hi => hslots i (by simp [hi])
      | some path =>
          rw [List.filterMap_cons_some hpath]
          refine congrArg (path :: ·) (ih hnodup fun i hi => ?_)
          have hne : index ≠ i := fun heq => hindex (heq ▸ hi)
          rw [List.getElem?_set_ne hne, hslots i (by simp [hi])]

theorem filterMap_range_getElem? (paths : List P) :
    (List.range paths.length).filterMap (paths[·]?) = paths := by
  induction paths with
  | nil => rfl
  | cons path paths ih =>
      have hfirst : (path :: paths)[0]? = some path := rfl
      rw [List.length_cons, List.range_succ_eq_map, List.filterMap_cons_some hfirst,
        List.filterMap_map]
      exact congrArg (path :: ·) ih

/-! ### Order -/

section Order

variable {comparePaths : P → P → Ordering} {paths : List P}

/-- By path; of two equal paths the one in front goes first. -/
def Before (comparePaths : P → P → Ordering) (paths : List P) (i j : ℕ) : Prop :=
  ∃ a b, paths[i]? = some a ∧ paths[j]? = some b ∧
    (comparePaths a b = .lt ∨ comparePaths a b = .eq ∧ i < j)

theorem Before.trans [Std.TransCmp comparePaths] (i j k : ℕ)
    (hij : Before comparePaths paths i j) (hjk : Before comparePaths paths j k) :
    Before comparePaths paths i k := by
  obtain ⟨a, b, ha, hb, hab⟩ := hij
  obtain ⟨b', c, hb', hc, hbc⟩ := hjk
  obtain rfl : b = b' := Option.some.inj (hb.symm.trans hb')
  refine ⟨a, c, ha, hc, ?_⟩
  rcases hab with hab | ⟨hab, hlt⟩
  · rcases hbc with hbc | ⟨hbc, -⟩
    · exact .inl (Std.TransCmp.lt_trans hab hbc)
    · exact .inl (Std.TransCmp.lt_of_lt_of_eq hab hbc)
  · rcases hbc with hbc | ⟨hbc, hlt'⟩
    · exact .inl (Std.TransCmp.lt_of_eq_of_lt hab hbc)
    · exact .inr ⟨Std.TransCmp.eq_trans hab hbc, hlt.trans hlt'⟩

theorem before_of_leAt [Std.TransCmp comparePaths] (i j : ℕ) (hij : i < j)
    (hj : j < paths.length) :
    if leAt comparePaths paths i j then Before comparePaths paths i j
    else Before comparePaths paths j i := by
  obtain ⟨a, ha⟩ : ∃ a, paths[i]? = some a := ⟨_, List.getElem?_eq_getElem (hij.trans hj)⟩
  obtain ⟨b, hb⟩ : ∃ b, paths[j]? = some b := ⟨_, List.getElem?_eq_getElem hj⟩
  rw [leAt_eq comparePaths ha hb]
  cases h : comparePaths a b with
  | lt => exact ⟨_, _, ha, hb, .inl h⟩
  | eq => exact ⟨_, _, ha, hb, .inr ⟨h, hij⟩⟩
  | gt => exact ⟨_, _, hb, ha, .inl (Std.OrientedCmp.lt_of_gt h)⟩

/-- Indices in order give the paths as a stable sort does. -/
theorem isStableSort_filterMap [Std.TransCmp comparePaths] {order : List ℕ}
    (h : IsRun (Before comparePaths paths) 0 order) (hlength : order.length = paths.length) :
    IsStableSort comparePaths paths (order.filterMap (paths[·]?)) := by
  have hperm : order.Perm (List.range paths.length) := by
    rw [List.range_eq_range', ← hlength]
    exact h.perm
  have hfilter {key : P} (l : List ℕ) :
      (l.filterMap (paths[·]?)).filter (fun a => comparePaths a key == .eq) =
        (l.filter fun i => (paths[i]?).any fun a => comparePaths a key == .eq).filterMap
          (paths[·]?) := by
    rw [List.filter_filterMap, List.filterMap_filter]
    refine List.filterMap_congr fun i _ => ?_
    cases paths[i]? with
    | none => rfl
    | some a =>
        rw [Option.any_some]
        rfl
  refine ⟨?_, ?_, fun key _ => ?_⟩
  · have hpaths := hperm.filterMap (paths[·]?)
    rwa [filterMap_range_getElem?] at hpaths
  · refine List.pairwise_filterMap.2 (h.sorted.imp ?_)
    rintro i j ⟨a, b, ha, hb, hab⟩ a' ha' b' hb'
    obtain rfl : a = a' := Option.some.inj (ha.symm.trans ha')
    obtain rfl : b = b' := Option.some.inj (hb.symm.trans hb')
    rcases hab with hab | ⟨hab, -⟩
    · simp [hab]
    · simp [hab]
  · rw [hfilter]
    conv_rhs => rw [← filterMap_range_getElem? paths, hfilter]
    have hsorted : (order.filter fun i =>
        (paths[i]?).any fun a => comparePaths a key == .eq).Pairwise (· < ·) := by
      refine List.Pairwise.imp_of_mem ?_ (h.sorted.filter _)
      rintro i j hi hj ⟨a, b, ha, hb, hab⟩
      have hia := (List.mem_filter.1 hi).2
      have hjb := (List.mem_filter.1 hj).2
      rw [ha, Option.any_some, beq_iff_eq] at hia
      rw [hb, Option.any_some, beq_iff_eq] at hjb
      rcases hab with hlt | ⟨-, hij⟩
      · rw [Std.TransCmp.eq_trans hia (Std.OrientedCmp.eq_symm hjb)] at hlt
        cases hlt
      · exact hij
    have hrange : ((List.range paths.length).filter fun i =>
        (paths[i]?).any fun a => comparePaths a key == .eq).Pairwise (· < ·) :=
      List.pairwise_lt_range.filter _
    rw [List.Perm.eq_of_pairwise (fun i j _ _ hij hji => absurd hij hji.asymm) hsorted hrange
      (hperm.filter _)]

end Order

/-! ### The sort -/

section Outcome

variable {comparePaths : P → P → Ordering} {paths : List P}

/-- The probes do what they do, and nothing else is asked. -/
inductive Probed (n : ℕ) : List (Event (AdmissionCall P) AdmissionAnswer) →
    Except SortStop Unit → Prop where
  | finished : Probed n (List.replicate n ⟨.cancellationRequested, false⟩) (.ok ())
  | cancelled {k : ℕ} (hk : k < n) :
      Probed n (List.replicate k ⟨.cancellationRequested, false⟩ ++
        [⟨.cancellationRequested, true⟩]) (.error .cancelled)

theorem Probed.succ {n : ℕ} {trace : List (Event (AdmissionCall P) AdmissionAnswer)}
    {result : Except SortStop Unit} (h : Probed n trace result) :
    Probed (n + 1) (⟨.cancellationRequested, false⟩ :: trace) result := by
  cases h with
  | finished => exact .finished
  | cancelled hk => exact .cancelled (Nat.succ_lt_succ hk)

theorem probed_of_runs {σ α β : Type} {env : Environment σ (AdmissionCall P) AdmissionAnswer}
    {n : ℕ} {a : α} {finish : Except SortStop α → β} {s t : σ} {b : β}
    {trace : List (Event (AdmissionCall P) AdmissionAnswer)}
    (run : Runs env (do return finish (← (afterPolls n a : Sorting P α).run)) s trace (some b) t) :
    ∃ result, b = finish (result.map fun _ => a) ∧ Probed n trace result := by
  induction n generalizing s trace with
  | zero =>
      rw [afterPolls_zero] at run
      cases run
      exact ⟨.ok (), rfl, .finished⟩
  | succ n ih =>
      rw [← poll_afterPolls] at run
      cases run with
      | @call _ _ _ _ _ requested _ _ step rest =>
          cases requested with
          | true =>
              cases rest
              exact ⟨.error .cancelled, rfl, .cancelled (Nat.succ_pos n)⟩
          | false =>
              obtain ⟨result, hb, h⟩ := ih rest
              exact ⟨result, hb, h.succ⟩

/-- The vector changes at the end only. -/
def outcome (paths : List P) : Except SortStop (List ℕ) → Except SortStop Unit × List P
  | .error stop => (.error stop, paths)
  | .ok order => (.ok (), takeSlots order (paths.map some))

/-- What the sort comes to: so many probes, and then the positions in order. -/
theorem sortPathsCancellable_afterPolls (comparePaths : P → P → Ordering) (paths : List P)
    (hlen : paths.length ≤ usizeMax) :
    sortPathsCancellable comparePaths paths hlen = (do
      return outcome paths (← (afterPolls (passProbes paths.length 1 + 1)
        (Slices.mergePasses (leAt comparePaths paths) paths.length 1
          (List.range paths.length)) : Sorting P (List ℕ)).run)) := by
  by_cases hshort : paths.length < 2
  · have hone : paths.length ≤ 1 := Nat.le_of_lt_succ hshort
    have htake : takeSlots (List.range paths.length) (paths.map some) = paths := by
      rw [takeSlots_eq List.nodup_range fun i _ => List.getElem?_map, filterMap_range_getElem?]
    rw [sortPathsCancellable, if_pos hshort, passProbes_of_le hone, mergePasses_of_le hone,
      ← poll_afterPolls, afterPolls_zero]
    refine congrArg (Program.request _) (funext fun requested => ?_)
    cases requested with
    | true => rfl
    | false => exact congrArg (fun sorted => Program.pure (Except.ok (), sorted)) htake.symm
  · have hlast (n : ℕ) (order : List ℕ) : (do let order ← afterPolls n order; poll; pure order :
        Sorting P (List ℕ)) = afterPolls (n + 1) order := by
      refine afterPolls_bind n 1 order _ order ?_
      rw [← poll_afterPolls, afterPolls_zero]
    rw [sortPathsCancellable, if_neg hshort, mergePasses_eq List.length_range
      List.length_replicate fun i hi => List.mem_range.1 hi, hlast]
    refine bind_congr fun result => ?_
    cases result with
    | error stop => rfl
    | ok order => rfl

/-- The positions are permuted, and the comparison puts them in order. -/
theorem isRun_mergePasses [Std.TransCmp comparePaths] :
    IsRun (Before comparePaths paths) 0 (Slices.mergePasses (leAt comparePaths paths)
      paths.length 1 (List.range paths.length)) := by
  have hruns := sortedRuns_one (Before comparePaths paths) 0 paths.length
  rw [← List.range_eq_range'] at hruns
  exact hruns.mergePasses Before.trans before_of_leAt Nat.one_pos List.length_range

/-- The sort always ends. Not cancelled it leaves the paths stably sorted, and none is lost or
repeated whatever the comparator says; cancelled, at any probe, it leaves the vector as it was. -/
theorem sortPathsCancellable_stable (comparePaths : P → P → Ordering) (paths : List P)
    (hlen : paths.length ≤ usizeMax) : ∃ sorted : List P,
      sorted.Perm paths ∧
      (∀ [Std.TransCmp comparePaths], IsStableSort comparePaths paths sorted) ∧
      ∀ {σ : Type} (env : Environment σ (AdmissionCall P) AdmissionAnswer) (s : σ),
        ((∀ s c, ∃ answer t, env s c answer t) →
          ∃ trace r t, Runs env (sortPathsCancellable comparePaths paths hlen) s trace (some r) t) ∧
        ∀ trace r t, Runs env (sortPathsCancellable comparePaths paths hlen) s trace (some r) t →
          (∀ event ∈ trace, event = ⟨.cancellationRequested, false⟩) ∧ r = (.ok (), sorted) ∨
          (∃ front, trace = front ++ [⟨.cancellationRequested, true⟩] ∧
            ∀ event ∈ front, event = ⟨.cancellationRequested, false⟩) ∧
            r = (.error .cancelled, paths) := by
  have hsort := sortPathsCancellable_afterPolls comparePaths paths hlen
  have hperm := mergePasses_perm (leAt comparePaths paths) paths.length 1
    (List.range paths.length)
  generalize horder : Slices.mergePasses (leAt comparePaths paths) paths.length 1
    (List.range paths.length) = order at hsort hperm
  have htake : takeSlots order (paths.map some) = order.filterMap (paths[·]?) :=
    takeSlots_eq (hperm.nodup_iff.2 List.nodup_range) fun i _ => List.getElem?_map
  refine ⟨order.filterMap (paths[·]?), ?_, ?_, fun env s => ⟨?_, ?_⟩⟩
  · have hpaths := hperm.filterMap (paths[·]?)
    rwa [filterMap_range_getElem?] at hpaths
  · intro _
    exact isStableSort_filterMap (horder ▸ isRun_mergePasses)
      (hperm.length_eq.trans List.length_range)
  · exact fun total => Runs.exists_done total _ s
  · intro trace r t run
    rw [hsort] at run
    obtain ⟨result, hresult, hprobed⟩ := probed_of_runs run
    subst hresult
    cases hprobed with
    | finished =>
        rw [← htake]
        exact .inl ⟨fun event hevent => List.eq_of_mem_replicate hevent, rfl⟩
    | @cancelled k hk =>
        exact .inr ⟨⟨_, rfl, fun event hevent => List.eq_of_mem_replicate hevent⟩, rfl⟩

/-- Nothing is ever cancelled, and nothing is found. -/
def undisturbed : Unit → (call : AdmissionCall P) → AdmissionAnswer call × Unit
  | _, .cancellationRequested => (false, ())
  | _, .inspectionStarted _ => ((), ())
  | _, .validatePath _ => (.ok (), ())
  | _, .metadata _ => (.error ⟨.metadata, none⟩, ())
  | _, .readChildrenCancellable _ _ => (.error .cancelled, ())
  | _, .legacyPath _ => (⟨[]⟩, ())
  | _, .pathUtf16Units _ => (⟨0, by decide⟩, ())

theorem sortPathsCancellable_stable_three :
    IsStableSort (fun a b : ℕ × ℕ => compare a.1 b.1) [(2, 0), (1, 0), (2, 1)]
      [(1, 0), (2, 0), (2, 1)] := by
  obtain ⟨sorted, -, hstable, hruns⟩ := sortPathsCancellable_stable
    (fun a b : ℕ × ℕ => compare a.1 b.1) [(2, 0), (1, 0), (2, 1)] (by decide)
  have run := Runs.of_run (answering_self undisturbed) (sortPathsCancellable
    (fun a b : ℕ × ℕ => compare a.1 b.1) [(2, 0), (1, 0), (2, 1)] (by decide)) ()
  have hresult : ((sortPathsCancellable (fun a b : ℕ × ℕ => compare a.1 b.1)
      [(2, 0), (1, 0), (2, 1)] (by decide)).run undisturbed ()).1 =
        (.ok (), [(1, 0), (2, 0), (2, 1)]) := by
    decide +kernel
  rw [hresult] at run
  rcases (hruns (answering undisturbed) ()).2 _ _ _ run with ⟨-, heq⟩ | ⟨-, heq⟩
  · rw [(Prod.mk.inj heq).2]
    have trans : Std.TransCmp fun a b : ℕ × ℕ => compare a.1 b.1 := transCmp_on compare Prod.fst
    exact hstable
  · cases (Prod.mk.inj heq).1

end Outcome

end IndexSort

end Admission

end DarkReNamer
