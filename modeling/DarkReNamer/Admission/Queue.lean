import DarkReNamer.Admission
import DarkReNamer.Interaction.Yields
import Mathlib.Data.List.Perm.Basic
import Mathlib.Algebra.BigOperators.Group.List.Basic
import Mathlib.Algebra.Ring.Nat

/-!
# Sorting, measuring and queueing paths

The parts of a round that only probe for cancellation and measure paths. Sorting permutes
its paths, whatever the comparator says. Queueing adds one entry for each path and counts its
bytes with saturation. What the children of a directory measure is bounded by the bytes that
the read was allowed, if the adapter measures a path the same way twice.
-/

namespace DarkReNamer

namespace Admission

open Interaction

variable {P : Type}

/-- The calls that neither start an inspection nor look at a directory. -/
def Quiet : AdmissionCall P → Prop
  | .inspectionStarted _ | .metadata _ | .readChildrenCancellable _ _ => False
  | _ => True

/-- The calls that probe for cancellation or measure a path. -/
def Measuring : AdmissionCall P → Prop
  | .cancellationRequested | .pathUtf16Units _ => True
  | _ => False

theorem Measuring.quiet {c : AdmissionCall P} (h : Measuring c) : Quiet c := by
  cases c with
  | cancellationRequested | pathUtf16Units => trivial
  | _ => exact h.elim

theorem tries_call {c : AdmissionCall P} (h : Measuring c) :
    Tries Measuring (fun _ => True) (call c) := Tries.ask h

theorem tries_poll : Tries Measuring (fun _ => True) (poll : Admission P Unit) := by
  refine Tries.bind (tries_call trivial) fun requested _ => ?_
  split
  · exact Tries.throw _
  · exact Tries.pure trivial

section SortPaths

variable (comparePaths : P → P → Ordering)

theorem tries_mergeRuns (left right : List P) :
    Tries Measuring (fun merged => merged.Perm (left ++ right))
      (mergeRuns comparePaths left right) := by
  induction left, right using mergeRuns.induct with
  | case1 =>
      rw [mergeRuns]
      exact Tries.pure .nil
  | case2 a left ih =>
      rw [mergeRuns]
      exact tries_poll.bind fun _ _ => ih.bind fun _ h => Tries.pure (h.cons a)
  | case3 b right ih =>
      rw [mergeRuns]
      exact tries_poll.bind fun _ _ => ih.bind fun _ h => Tries.pure (h.cons b)
  | case4 a left b right ih ih' =>
      rw [mergeRuns]
      refine tries_poll.bind fun _ _ => ?_
      split
      · exact ih.bind fun _ h => Tries.pure (h.cons a)
      · refine ih'.bind fun _ h => Tries.pure ?_
        exact (h.cons b).trans List.perm_middle.symm

theorem tries_mergePass (width : ℕ) (paths : List P) :
    Tries Measuring (fun merged => merged.Perm paths) (mergePass comparePaths width paths) := by
  induction paths using mergePass.induct width with
  | case1 paths h =>
      rw [mergePass, dif_pos h]
      exact Tries.pure (.refl _)
  | case2 paths h ih =>
      rw [mergePass, dif_neg h]
      refine (tries_mergeRuns comparePaths _ _).bind fun merged hmerged => ?_
      refine ih.bind fun rest hrest => Tries.pure ?_
      refine (hmerged.append hrest).trans (.of_eq ?_)
      rw [List.append_assoc, List.take_append_drop, List.take_append_drop]

theorem tries_mergePasses (len width : ℕ) (paths : List P) :
    Tries Measuring (fun merged => merged.Perm paths)
      (mergePasses comparePaths len width paths) := by
  induction width, paths using mergePasses.induct len with
  | case1 width paths h ih =>
      rw [mergePasses, dif_pos h]
      refine (tries_mergePass comparePaths width paths).bind fun merged hmerged => ?_
      exact (ih merged).mono fun _ hlast => hlast.trans hmerged
  | case2 width paths h =>
      rw [mergePasses, dif_neg h]
      exact Tries.pure (.refl _)

theorem tries_sortPathsCancellable (paths : List P) :
    Tries Measuring (fun sorted => sorted.Perm paths)
      (sortPathsCancellable comparePaths paths) := by
  unfold sortPathsCancellable
  split
  · exact tries_poll.bind fun _ _ => Tries.pure (.refl _)
  · refine (tries_mergePasses comparePaths _ 1 paths).bind fun sorted hsorted => ?_
    exact tries_poll.bind fun _ _ => Tries.pure hsorted

end SortPaths

/-- The bytes counted for the queued paths. -/
def queuedBytes (queued : List (QueuedPath P)) : ℕ := (queued.map (·.pathBytes)).sum

/-- The running count after the paths are queued, the last of the list first. -/
def countBytes (count : ℕ) (queued : List (QueuedPath P)) : ℕ :=
  queued.foldr (fun entry n => saturatingAdd usizeMax n entry.pathBytes) count

@[simp] theorem queuedBytes_nil : queuedBytes ([] : List (QueuedPath P)) = 0 := rfl

@[simp] theorem queuedBytes_cons (entry : QueuedPath P) (queued : List (QueuedPath P)) :
    queuedBytes (entry :: queued) = entry.pathBytes + queuedBytes queued := by
  simp [queuedBytes]

@[simp] theorem queuedBytes_append (queued rest : List (QueuedPath P)) :
    queuedBytes (queued ++ rest) = queuedBytes queued + queuedBytes rest := by
  simp [queuedBytes]

theorem countBytes_le (count : ℕ) (queued : List (QueuedPath P)) :
    countBytes count queued ≤ queuedBytes queued + count := by
  induction queued with
  | nil => simp [countBytes]
  | cons entry queued ih =>
      have hle := Nat.min_le_left (countBytes count queued + entry.pathBytes) usizeMax
      rw [queuedBytes_cons]
      exact hle.trans (by omega)

/-- Without saturation the count is exact. -/
theorem countBytes_eq {count : ℕ} {queued : List (QueuedPath P)}
    (h : queuedBytes queued + count ≤ usizeMax) :
    countBytes count queued = queuedBytes queued + count := by
  induction queued with
  | nil => simp [countBytes]
  | cons entry queued ih =>
      rw [queuedBytes_cons] at h ⊢
      have hrest : countBytes count queued = queuedBytes queued + count := ih (by omega)
      have hsum : countBytes count queued + entry.pathBytes ≤ usizeMax := by omega
      calc countBytes count (entry :: queued)
          = saturatingAdd usizeMax (countBytes count queued) entry.pathBytes := rfl
        _ = countBytes count queued + entry.pathBytes := saturatingAdd_eq hsum
        _ = entry.pathBytes + queuedBytes queued + count := by omega

/-- The bytes counted for a path of so many units. -/
def pathBytesOf (units : ℕ) : ℕ := saturatingMul usizeMax units sizeOfU16

theorem pathBytesOf_le (units : ℕ) : pathBytesOf units ≤ units * sizeOfU16 :=
  Nat.min_le_left _ _

/-- The adapter measures each path as long as its legacy text, each time. -/
structure Measures {σ : Type} (adapter : Environment σ (AdmissionCall P) AdmissionAnswer)
    (measure : P → ℕ) : Prop where
  units : ∀ e path units e', adapter e (.pathUtf16Units path) units e' →
    units.val = measure path
  legacy : ∀ e path text e', adapter e (.legacyPath path) text e' →
    text.units.length = measure path

variable {σ : Type} {adapter : Environment σ (AdmissionCall P) AdmissionAnswer}

/-- Only paths were queued, and perhaps issues reported. -/
structure Queues (adapter : Environment σ (AdmissionCall P) AdmissionAnswer)
    (c c' : Collector P) (queued : List (QueuedPath P)) : Prop where
  stack : c'.stack = queued ++ c.stack
  stackPathBytes : c'.stackPathBytes = countBytes c.stackPathBytes queued
  seenDirectories : c'.seenDirectories = c.seenDirectories
  inspected : c'.inspected = c.inspected
  pathBudget : c'.pathBudget = c.pathBudget
  items : c'.report.items = c.report.items
  measured : ∀ measure, Measures adapter measure → ∀ entry ∈ queued,
    entry.pathBytes = pathBytesOf (measure entry.path)

theorem Queues.refl (adapter : Environment σ (AdmissionCall P) AdmissionAnswer)
    (c : Collector P) : Queues adapter c c [] :=
  ⟨rfl, rfl, rfl, rfl, rfl, rfl, by simp⟩

theorem Queues.pushIssue {c c' : Collector P} {queued : List (QueuedPath P)}
    (h : Queues adapter c c' queued) (path : P) (kind : AdmissionIssueKind)
    (error : Option AdmissionAdapterError) :
    Queues adapter c (c'.pushIssue path kind error) queued :=
  ⟨h.stack, h.stackPathBytes, h.seenDirectories, h.inspected, h.pathBudget, h.items, h.measured⟩

theorem tries_pushPaths (depth : ℕ) (paths : List P) (c : Collector P) :
    Tries Measuring (fun _ => True) (pushPaths depth paths c) := by
  induction paths generalizing c with
  | nil => exact Tries.pure trivial
  | cons path paths ih =>
      exact tries_poll.bind fun _ _ =>
        (tries_call (c := .pathUtf16Units path) trivial).bind fun _ _ => ih _

theorem yields_pushPaths (adapter : Environment σ (AdmissionCall P) AdmissionAnswer)
    (depth : ℕ) (paths : List P) (c : Collector P) :
    Yields adapter (fun c' => ∃ queued, Queues adapter c c' queued ∧
        queued.map (·.path) = paths.reverse ∧ ∀ entry ∈ queued, entry.depth = depth)
      (pushPaths depth paths c) := by
  induction paths generalizing c with
  | nil => exact Yields.pure ⟨[], .refl adapter c, rfl, by simp⟩
  | cons path paths ih =>
      refine (Yields.of_tries tries_poll).bind fun _ _ => ?_
      refine (Yields.call (fun units => ∀ measure, Measures adapter measure →
        units.val = measure path) fun e units e' hunits measure hmeasure =>
          hmeasure.units e path units e' hunits).bind fun units hunits => ?_
      refine (ih _).mono ?_
      rintro c' ⟨queued, hqueues, hpaths, hdepth⟩
      let entry : QueuedPath P := ⟨path, depth, pathBytesOf units.val⟩
      refine ⟨queued ++ [entry], ?_, by simp [hpaths, entry], ?_⟩
      · exact
          { stack := by rw [hqueues.stack]; simp [Collector.push, entry, pathBytesOf]
            stackPathBytes := by
              rw [hqueues.stackPathBytes]
              simp [countBytes, Collector.push, entry, pathBytesOf]
            seenDirectories := hqueues.seenDirectories
            inspected := hqueues.inspected
            pathBudget := hqueues.pathBudget
            items := hqueues.items
            measured := by
              intro measure hmeasure q hq
              rcases List.mem_append.1 hq with hq | hq
              · exact hqueues.measured measure hmeasure q hq
              · obtain rfl := List.mem_singleton.1 hq
                simp only [entry, hunits measure hmeasure] }
      · intro q hq
        rcases List.mem_append.1 hq with hq | hq
        · exact hdepth q hq
        · obtain rfl := List.mem_singleton.1 hq
          rfl

theorem tries_verifyChildren (remaining : ℕ) (children : List P) (bytes len : ℕ) :
    Tries Measuring (fun _ => True) (verifyChildren remaining children bytes len) := by
  induction children generalizing bytes len with
  | nil => exact Tries.pure trivial
  | cons child children ih =>
      refine (tries_call (c := .pathUtf16Units child) trivial).bind fun units _ => ?_
      split
      · exact Tries.pure trivial
      · split
        · exact Tries.pure trivial
        · split
          · exact Tries.pure trivial
          · exact ih _ _

/-- The bytes of the paths as they were measured, without saturation. -/
def measuredBytes (measure : P → ℕ) (paths : List P) : ℕ :=
  (paths.map fun path => measure path * sizeOfU16).sum

/-- The verified children fit the bytes that are left, as measured. -/
theorem yields_verifyChildren (adapter : Environment σ (AdmissionCall P) AdmissionAnswer)
    (remaining : ℕ) (children : List P) (bytes len : ℕ) :
    Yields adapter (fun r => len ≤ r.1 ∧ ∀ measure, Measures adapter measure →
        bytes ≤ remaining → bytes + measuredBytes measure (children.take (r.1 - len)) ≤ remaining)
      (verifyChildren remaining children bytes len) := by
  induction children generalizing bytes len with
  | nil => exact Yields.pure ⟨le_rfl, by simp [measuredBytes]⟩
  | cons child children ih =>
      refine (Yields.call (fun units => ∀ measure, Measures adapter measure →
        units.val = measure child) fun e units e' hunits measure hmeasure =>
          hmeasure.units e child units e' hunits).bind fun units hunits => ?_
      have hstop : ∀ exceeded : Bool, Yields adapter (fun r : ℕ × Bool => len ≤ r.1 ∧
          ∀ measure, Measures adapter measure → bytes ≤ remaining →
            bytes + measuredBytes measure ((child :: children).take (r.1 - len)) ≤ remaining)
          (pure (len, exceeded) : Admission P (ℕ × Bool)) := fun exceeded =>
        Yields.pure ⟨le_rfl, by simp [measuredBytes]⟩
      split
      · exact hstop true
      · rename_i childBytes hchild
        obtain ⟨-, rfl⟩ := checkedMul_eq_some.1 hchild
        split
        · exact hstop true
        · rename_i nextBytes hnext
          obtain ⟨-, rfl⟩ := checkedAdd_eq_some.1 hnext
          split
          · exact hstop true
          · rename_i hfits
            refine (ih _ _).mono fun r hr => ⟨by omega, fun measure hmeasure hbytes => ?_⟩
            have hrest := hr.2 measure hmeasure (by omega)
            obtain ⟨n, hn⟩ : ∃ n, r.1 - len = n + 1 := ⟨r.1 - len - 1, by omega⟩
            have hn' : r.1 - (len + 1) = n := by omega
            rw [hn'] at hrest
            rw [hn, List.take_succ_cons]
            simp only [measuredBytes, List.map_cons, List.sum_cons, hunits measure hmeasure]
              at hrest ⊢
            omega

/-- No entry is counted with more bytes than its path measures. -/
theorem queuedBytes_le_measuredBytes {measure : P → ℕ} {queued : List (QueuedPath P)}
    (h : ∀ entry ∈ queued, entry.pathBytes = pathBytesOf (measure entry.path)) :
    queuedBytes queued ≤ measuredBytes measure (queued.map (·.path)) := by
  induction queued with
  | nil => simp [measuredBytes]
  | cons entry queued ih =>
      have hentry : entry.pathBytes ≤ measure entry.path * sizeOfU16 := by
        rw [h entry (by simp)]
        exact pathBytesOf_le _
      have hrest := ih fun q hq => h q (List.mem_cons_of_mem _ hq)
      simp only [queuedBytes_cons, measuredBytes, List.map_cons, List.sum_cons] at hrest ⊢
      omega

theorem measuredBytes_perm {measure : P → ℕ} {paths paths' : List P} (h : paths.Perm paths') :
    measuredBytes measure paths = measuredBytes measure paths' :=
  (h.map _).sum_eq

section Children

variable (comparePaths : P → P → Ordering) (entry : QueuedPath P)
  (readBudget : AdmissionReadBudget) (children : AdmissionChildren P) (c : Collector P)

theorem tries_takeChildren :
    Tries Measuring (fun _ => True) (takeChildren comparePaths entry readBudget children c) := by
  unfold takeChildren
  refine (tries_verifyChildren _ _ 0 0).bind fun verified _ => ?_
  refine (tries_sortPathsCancellable comparePaths _).bind fun sorted _ => ?_
  exact (tries_pushPaths _ _ _).bind fun _ _ => Tries.pure trivial

/-- However many children come back, no more are queued than were asked for, and they fit
the bytes of the read. -/
theorem yields_takeChildren (adapter : Environment σ (AdmissionCall P) AdmissionAnswer) :
    Yields adapter (fun c' => ∃ queued, Queues adapter c c' queued ∧
        queued.length ≤ readBudget.pathLimit ∧
        (∀ q ∈ queued, q.depth = entry.depth + 1) ∧
        ∀ measure, Measures adapter measure →
          measuredBytes measure (queued.map (·.path)) ≤ readBudget.remainingPathBytes)
      (takeChildren comparePaths entry readBudget children c) := by
  unfold takeChildren
  refine (yields_verifyChildren adapter _ _ 0 0).bind fun verified hverified => ?_
  refine (Yields.of_tries (tries_sortPathsCancellable comparePaths _)).bind fun sorted hsorted => ?_
  refine (yields_pushPaths adapter _ _ c).bind fun c' hc' => Yields.pure ?_
  obtain ⟨queued, hqueues, hpaths, hdepth⟩ := hc'
  have hperm : (queued.map (·.path)).Perm
      ((children.paths.take readBudget.pathLimit).take verified.1) := by
    rw [hpaths, List.reverse_reverse]
    exact hsorted
  refine ⟨queued, ?_, ?_, hdepth, fun measure hmeasure => ?_⟩
  · have hissue {c' : Collector P} (b : Bool) (kind : AdmissionIssueKind)
        (h : Queues adapter c c' queued) :
        Queues adapter c (if b then c'.pushIssue entry.path kind else c') queued := by
      split
      · exact h.pushIssue _ _ _
      · exact h
    exact hissue _ _ (hissue _ _ (hissue _ _ hqueues))
  · have hlength := hperm.length_eq
    simp only [List.length_map, List.length_take] at hlength
    omega
  · rw [measuredBytes_perm hperm]
    simpa using hverified.2 measure hmeasure (Nat.zero_le _)

end Children

end Admission

end DarkReNamer
