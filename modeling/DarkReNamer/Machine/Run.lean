import Mathlib.Data.List.Basic
import Mathlib.Tactic.Common

/-!
# Recorded runs

A machine moves by actions, some of them impossible in some states, and each move
leaves what an observer sees of it. The history of a run is the concatenation of what
its moves leave, in order, so that a statement about the order of events is one about
positions of the history. Nothing is said here of what a state or an action is.
-/

namespace Machine

universe u v w

variable {S : Type u} {A : Type v} {O : Type w} {step : S → A → Option (S × List O)}

/-- The state after the actions and the history they leave, if each was possible. -/
def run (step : S → A → Option (S × List O)) : S → List A → Option (S × List O)
  | s, [] => some (s, [])
  | s, a :: as => (step s a).bind fun t => (run step t.1 as).map fun u => (u.1, t.2 ++ u.2)

@[simp] theorem run_nil (s : S) : run step s [] = some (s, []) := rfl

theorem run_cons_eq_some {s u : S} {a : A} {as : List A} {h : List O} :
    run step s (a :: as) = some (u, h) ↔
      ∃ t o h', step s a = some (t, o) ∧ run step t as = some (u, h') ∧ h = o ++ h' := by
  simp only [run, Option.bind_eq_some_iff, Option.map_eq_some_iff, Prod.mk.injEq, Prod.exists]
  constructor
  · rintro ⟨t, o, hstep, u', h', hrun, rfl, rfl⟩
    exact ⟨t, o, h', hstep, hrun, rfl⟩
  · rintro ⟨t, o, h', hstep, hrun, rfl⟩
    exact ⟨t, o, hstep, u, h', hrun, rfl, rfl⟩

/-- A relation of states and histories that every move keeps holds after every run that
starts in it. -/
theorem run_preserves {I : S → List O → Prop}
    (hstep : ∀ {s h a t o}, I s h → step s a = some (t, o) → I t (h ++ o))
    {s u : S} {p h : List O} {as : List A} (hstart : I s p)
    (hrun : run step s as = some (u, h)) : I u (p ++ h) := by
  induction as generalizing s p h with
  | nil =>
      obtain ⟨rfl, rfl⟩ : s = u ∧ [] = h := by simpa using hrun
      simpa using hstart
  | cons a as ih =>
      obtain ⟨t, o, h', hmove, hrest, rfl⟩ := run_cons_eq_some.1 hrun
      simpa using ih (hstep hstart hmove) hrest

/-- `run_preserves` from the empty history. -/
theorem run_invariant {I : S → List O → Prop}
    (hstep : ∀ {s h a t o}, I s h → step s a = some (t, o) → I t (h ++ o))
    {s u : S} {h : List O} {as : List A} (hstart : I s [])
    (hrun : run step s as = some (u, h)) : I u h :=
  run_preserves hstep hstart hrun

/-! ### Positions of a history -/

theorem getElem?_append_of_some {h : List O} {i : ℕ} {x : O} (hx : h[i]? = some x)
    (o : List O) : (h ++ o)[i]? = some x := by
  rw [List.getElem?_append_left (List.getElem?_eq_some_iff.1 hx).1, hx]

/-- A position of a history with one more observation is an old one or the last. -/
theorem getElem?_snoc {h : List O} {y x : O} {i : ℕ} :
    (h ++ [y])[i]? = some x ↔ h[i]? = some x ∨ i = h.length ∧ x = y := by
  constructor
  · intro hx
    rcases Nat.lt_trichotomy i h.length with hi | hi | hi
    · exact .inl (by rwa [List.getElem?_append_left hi] at hx)
    · subst hi
      exact .inr ⟨rfl, by simpa using hx.symm⟩
    · rw [List.getElem?_eq_none (by simp; omega)] at hx
      cases hx
  · rintro (hx | ⟨rfl, rfl⟩)
    · exact getElem?_append_of_some hx _
    · simp

end Machine
