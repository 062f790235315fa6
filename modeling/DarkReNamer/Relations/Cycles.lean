import Mathlib.Data.Set.Card
import Mathlib.Dynamics.PeriodicPts.Lemmas
import Mathlib.Logic.Relation

/-!
# Cycles of a functional relation

Where every element is followed by at most one, an element either lies on one cycle, the
elements that follow it, or leads away from itself for good. `doneCycles` are the cycles without
an open element. Closing an element off the cycles leaves them alone; closing everything on one
open cycle, and nothing on another, adds that cycle.
-/

namespace Cycles

open Relation

variable {α : Type*}

/-- An element that follows itself, after one step or more. -/
def OnCycle (r : α → α → Prop) (i : α) : Prop := TransGen r i i

/-- The elements that follow `i`. -/
def cycleOf (r : α → α → Prop) (i : α) : Set α := {j | TransGen r i j}

/-- The cycles, as sets of elements. -/
def cycles (r : α → α → Prop) : Set (Set α) := cycleOf r '' {i | OnCycle r i}

/-- The cycles on which no element is open. -/
def doneCycles (r : α → α → Prop) (isOpen : α → Prop) : Set (Set α) :=
  {c ∈ cycles r | ∀ i ∈ c, ¬ isOpen i}

/-- A cycle with an open element is open all around. -/
def Whole (r : α → α → Prop) (isOpen : α → Prop) : Prop :=
  ∀ i j, OnCycle r i → r i j → isOpen i → isOpen j

section Functional

variable {r : α → α → Prop} {i j : α}

theorem OnCycle.reaches (hunique : Relator.RightUnique r) (h : OnCycle r i) (hij : r i j) :
    ReflTransGen r j i := by
  obtain ⟨k, hik, hki⟩ := TransGen.head'_iff.1 h
  rw [hunique hij hik]
  exact hki

theorem OnCycle.next (hunique : Relator.RightUnique r) (h : OnCycle r i) (hij : r i j) :
    OnCycle r j :=
  TransGen.tail' (h.reaches hunique hij) hij

/-- What follows an element of a cycle leads back to it. -/
theorem OnCycle.back (hunique : Relator.RightUnique r) (h : OnCycle r i)
    (hij : TransGen r i j) : TransGen r j i := by
  induction hij with
  | single hij =>
      exact TransGen.trans_right (h.reaches hunique hij) h
  | tail _ hjk ih =>
      have hj : OnCycle r _ := ih.trans (by assumption)
      exact TransGen.trans_right (hj.reaches hunique hjk) ih

theorem OnCycle.of_mem (hunique : Relator.RightUnique r) (h : OnCycle r i)
    (hj : j ∈ cycleOf r i) : OnCycle r j :=
  (h.back hunique hj).trans hj

theorem cycleOf_eq (hunique : Relator.RightUnique r) (h : OnCycle r i)
    (hj : j ∈ cycleOf r i) : cycleOf r j = cycleOf r i :=
  Set.ext fun _ => ⟨fun hk => TransGen.trans hj hk, fun hk => (h.back hunique hj).trans hk⟩

theorem cycleOf_mem_cycles (h : OnCycle r i) : cycleOf r i ∈ cycles r := ⟨i, h, rfl⟩

/-- A cycle is the cycle of each of its elements. -/
theorem eq_cycleOf_of_mem (hunique : Relator.RightUnique r) {c : Set α} (hc : c ∈ cycles r)
    (hi : i ∈ c) : OnCycle r i ∧ c = cycleOf r i := by
  obtain ⟨k, hk, rfl⟩ := hc
  exact ⟨hk.of_mem hunique hi, (cycleOf_eq hunique hk hi).symm⟩

/-- Finitely many elements have finitely many cycles. -/
theorem finite_cycles {s : Set α} (hs : s.Finite) (hleft : ∀ i j, r i j → i ∈ s) :
    (cycles r).Finite := by
  refine (hs.subset fun i hi => ?_).image _
  obtain ⟨k, hik, -⟩ := TransGen.head'_iff.1 hi
  exact hleft i k hik

/-- Among finitely many elements that each lead to another one of them, and no two to the same,
every element is on a cycle. -/
theorem onCycle_of_next {isOpen : α → Prop} (hfinite : {i | isOpen i}.Finite)
    (hunique : Relator.LeftUnique r) (hnext : ∀ i, isOpen i → ∃ j, isOpen j ∧ r i j)
    (hi : isOpen i) : OnCycle r i := by
  choose next hopen hstep using hnext
  let follow : {i // isOpen i} → {i // isOpen i} := fun x => ⟨next x.1 x.2, hopen x.1 x.2⟩
  have hinjective : Function.Injective follow := by
    intro x y hxy
    have hsame : next x.1 x.2 = next y.1 y.2 := congrArg Subtype.val hxy
    exact Subtype.ext (hunique (hstep x.1 x.2) (hsame ▸ hstep y.1 y.2))
  have hreach : ∀ n x, TransGen r x.1 (follow^[n + 1] x).1 := by
    intro n x
    induction n with
    | zero => exact .single (hstep x.1 x.2)
    | succ n ih =>
        rw [Function.iterate_succ_apply']
        exact ih.tail (hstep _ _)
  have : Finite {i // isOpen i} := hfinite
  obtain ⟨n, hpos, hperiodic⟩ := hinjective.mem_periodicPts ⟨i, hi⟩
  obtain ⟨m, rfl⟩ := Nat.exists_eq_add_of_lt hpos
  have hback := hreach m ⟨i, hi⟩
  rw [Nat.zero_add] at hperiodic
  rwa [show follow^[m + 1] ⟨i, hi⟩ = ⟨i, hi⟩ from hperiodic] at hback

end Functional

section Done

variable {r : α → α → Prop} {isOpen isOpen' : α → Prop} {i : α}

/-- Nothing on a cycle is done while everything is open. -/
theorem doneCycles_eq_empty (h : ∀ i, OnCycle r i → isOpen i) : doneCycles r isOpen = ∅ := by
  refine Set.eq_empty_iff_forall_notMem.2 fun c hc => ?_
  obtain ⟨⟨k, hk, rfl⟩, hdone⟩ := hc
  exact hdone k hk (h k hk)

theorem doneCycles_eq_cycles (h : ∀ i, ¬ isOpen i) : doneCycles r isOpen = cycles r :=
  Set.ext fun _ => ⟨fun hc => hc.1, fun hc => ⟨hc, fun i _ => h i⟩⟩

theorem Whole.reaches (h : Whole r isOpen) (hunique : Relator.RightUnique r) {j : α}
    (hi : OnCycle r i) (hij : TransGen r i j) (hopen : isOpen i) : isOpen j := by
  induction hij with
  | single hij => exact h _ _ hi hij hopen
  | tail hij hjk ih => exact h _ _ (hi.of_mem hunique hij) hjk ih

/-- An element that follows no open one is on no cycle. -/
theorem Whole.not_onCycle (h : Whole r isOpen) (hopen : isOpen i)
    (hfree : ∀ j, r i j → ¬ isOpen j) : ¬ OnCycle r i := by
  intro hi
  obtain ⟨j, hij, -⟩ := TransGen.head'_iff.1 hi
  exact hfree j hij (h i j hi hij hopen)

/-- Closing an element that is on no cycle. -/
theorem Whole.close_one (h : Whole r isOpen) (hunique : Relator.RightUnique r)
    (hoff : ¬ OnCycle r i) (hclose : ∀ j, isOpen' j ↔ isOpen j ∧ j ≠ i) :
    Whole r isOpen' ∧ doneCycles r isOpen' = doneCycles r isOpen := by
  have hsame : ∀ j, OnCycle r j → (isOpen' j ↔ isOpen j) := by
    intro j hj
    rw [hclose, and_iff_left]
    rintro rfl
    exact hoff hj
  refine ⟨fun j k hj hjk hopen => ?_, Set.ext fun c => ?_⟩
  · exact (hsame k (hj.next hunique hjk)).2 (h j k hj hjk ((hsame j hj).1 hopen))
  · refine and_congr_right fun hc => forall₂_congr fun j hj => ?_
    rw [hsame j (eq_cycleOf_of_mem hunique hc hj).1]

/-- Closing elements that lead to `i`, so that what is left open follows only itself. -/
theorem close_cycle (hunique : Relator.RightUnique r)
    (hi : isOpen i) (hi' : ¬ isOpen' i) (hless : ∀ j, isOpen' j → isOpen j)
    (hreach : ∀ j, isOpen j → ¬ isOpen' j → ReflTransGen r j i)
    (hnext : ∀ j, isOpen j → ∃ k, r j k ∧ isOpen k)
    (hkept : ∀ j k, r j k → isOpen j → (isOpen' j ↔ isOpen' k)) :
    Whole r isOpen' ∧ doneCycles r isOpen' = insert (cycleOf r i) (doneCycles r isOpen) ∧
      cycleOf r i ∉ doneCycles r isOpen := by
  have hclosed : ∀ j, TransGen r i j → isOpen j ∧ ¬ isOpen' j := by
    intro j hij
    have hstep : ∀ j k, isOpen j ∧ ¬ isOpen' j → r j k → isOpen k ∧ ¬ isOpen' k := by
      rintro j k ⟨hj, hj'⟩ hjk
      obtain ⟨k', hjk', hk'⟩ := hnext j hj
      rw [← hunique hjk hjk'] at hk'
      exact ⟨hk', fun hk => hj' ((hkept j k hjk hj).2 hk)⟩
    induction hij with
    | single hij => exact hstep i _ ⟨hi, hi'⟩ hij
    | tail _ hjk ih => exact hstep _ _ ih hjk
  have hon : OnCycle r i := by
    obtain ⟨j, hij, -⟩ := hnext i hi
    obtain ⟨hj, hj'⟩ := hclosed j (.single hij)
    exact TransGen.head' hij (hreach j hj hj')
  refine ⟨fun j k _ hjk hopen => (hkept j k hjk (hless j hopen)).1 hopen, ?_,
    fun hdone => hdone.2 i hon hi⟩
  refine Set.ext fun c => ⟨?_, ?_⟩
  · rintro ⟨hc, hdone⟩
    by_cases hopen : ∃ j ∈ c, isOpen j
    · obtain ⟨j, hj, hopen⟩ := hopen
      obtain ⟨hj', rfl⟩ := eq_cycleOf_of_mem hunique hc hj
      have hji : TransGen r j i :=
        TransGen.trans_left hj' (hreach j hopen (hdone j hj))
      exact .inl (cycleOf_eq hunique hj' hji).symm
    · exact .inr ⟨hc, fun j hj hopen' => hopen ⟨j, hj, hopen'⟩⟩
  · rintro (rfl | ⟨hc, hdone⟩)
    · exact ⟨cycleOf_mem_cycles hon, fun j hj => (hclosed j hj).2⟩
    · exact ⟨hc, fun j hj hopen' => hdone j hj (hless j hopen')⟩

end Done

end Cycles
