import Mathlib.Logic.Function.Basic
import Mathlib.Tactic.Common

/-!
# Moves between places

A state assigns to every place at most one occupant. A move takes an occupant
from one place to another, free one. Its reverse undoes it, so a list of moves
that can be executed from `o` can be taken back from any point of it: `afterMoves`
of a prefix of length `k + 1` goes to that of length `k` by the reverse of the
move `k`.
-/

namespace Occupancy

variable {K V : Type*}

/-- One occupant taken from a source to a destination. -/
structure Move (K V : Type*) where
  source : K
  destination : K
  occupant : V
  deriving DecidableEq, Repr

/-- At most one occupant in every place. -/
abbrev State (K V : Type*) : Type _ := K → Option V

namespace Move

/-- The occupant is at the source and the destination is free. -/
def Enabled (m : Move K V) (o : State K V) : Prop :=
  o m.source = some m.occupant ∧ o m.destination = none

instance [DecidableEq V] (m : Move K V) (o : State K V) : Decidable (m.Enabled o) :=
  inferInstanceAs (Decidable (_ ∧ _))

/-- The move in the other direction. -/
def reverse (m : Move K V) : Move K V := ⟨m.destination, m.source, m.occupant⟩

variable {m : Move K V} {o : State K V}

theorem Enabled.source_ne (h : m.Enabled o) : m.source ≠ m.destination := by
  intro heq
  have := h.1.symm.trans (heq ▸ h.2)
  simp at this

variable [DecidableEq K]

def apply (m : Move K V) (o : State K V) : State K V :=
  Function.update (Function.update o m.source none) m.destination (some m.occupant)

@[simp] theorem apply_destination (m : Move K V) (o : State K V) :
    m.apply o m.destination = some m.occupant := by
  simp [apply]

theorem apply_of_ne {k : K} (hsource : k ≠ m.source) (hdestination : k ≠ m.destination) :
    m.apply o k = o k := by
  simp [apply, hsource, hdestination]

theorem Enabled.apply_source (h : m.Enabled o) : m.apply o m.source = none := by
  simp [apply, h.source_ne]

theorem Enabled.reverse_enabled (h : m.Enabled o) : m.reverse.Enabled (m.apply o) :=
  ⟨m.apply_destination o, h.apply_source⟩

/-- The reverse move undoes the move. -/
theorem Enabled.reverse_apply (h : m.Enabled o) : m.reverse.apply (m.apply o) = o := by
  funext k
  by_cases hsource : k = m.source
  · subst hsource
    exact (m.reverse.apply_destination _).trans h.1.symm
  · by_cases hdestination : k = m.destination
    · subst hdestination
      exact h.reverse_enabled.apply_source.trans h.2.symm
    · rw [apply_of_ne (m := m.reverse) hdestination hsource, apply_of_ne hsource hdestination]

end Move

variable [DecidableEq K]

/-- The state after a list of moves. -/
def afterMoves (o : State K V) (ms : List (Move K V)) : State K V :=
  ms.foldl (fun o m => m.apply o) o

/-- Every move of the list is possible when its turn comes. -/
def Executable (o : State K V) : List (Move K V) → Prop
  | [] => True
  | m :: ms => m.Enabled o ∧ Executable (m.apply o) ms

section Lists

variable {o : State K V} {ms : List (Move K V)}

@[simp] theorem afterMoves_nil (o : State K V) : afterMoves o [] = o := rfl

@[simp] theorem afterMoves_cons (o : State K V) (m : Move K V) (ms : List (Move K V)) :
    afterMoves o (m :: ms) = afterMoves (m.apply o) ms := rfl

theorem afterMoves_append (o : State K V) (ms ms' : List (Move K V)) :
    afterMoves o (ms ++ ms') = afterMoves (afterMoves o ms) ms' :=
  List.foldl_append

theorem executable_append {ms' : List (Move K V)} :
    Executable o (ms ++ ms') ↔ Executable o ms ∧ Executable (afterMoves o ms) ms' := by
  induction ms generalizing o with
  | nil => simp [Executable]
  | cons m ms ih => simp [Executable, ih, and_assoc]

theorem afterMoves_take_succ {k : ℕ} {m : Move K V} (hk : ms[k]? = some m) :
    afterMoves o (ms.take (k + 1)) = m.apply (afterMoves o (ms.take k)) := by
  rw [List.take_add_one, hk, afterMoves_append]
  rfl

/-- Moves bring nothing new: an occupant was there before or is one of theirs. -/
theorem afterMoves_eq_some {k : K} {v : V} (h : afterMoves o ms k = some v) :
    o k = some v ∨ ∃ m ∈ ms, m.occupant = v := by
  induction ms generalizing o with
  | nil => exact .inl h
  | cons m ms ih =>
      rcases ih (o := m.apply o) h with hafter | ⟨m', hm', hv⟩
      · by_cases hdestination : k = m.destination
        · subst hdestination
          rw [Move.apply_destination] at hafter
          exact .inr ⟨m, List.mem_cons_self, Option.some.inj hafter⟩
        · by_cases hsource : k = m.source
          · subst hsource
            simp [Move.apply, hdestination] at hafter
          · rw [Move.apply_of_ne hsource hdestination] at hafter
            exact .inl hafter
      · exact .inr ⟨m', List.mem_cons_of_mem _ hm', hv⟩

theorem Executable.enabled (h : Executable o ms) {k : ℕ} {m : Move K V}
    (hk : ms[k]? = some m) : m.Enabled (afterMoves o (ms.take k)) := by
  induction ms generalizing o k with
  | nil => simp at hk
  | cons first ms ih =>
      cases k with
      | zero =>
          obtain rfl : first = m := by simpa using hk
          exact h.1
      | succ k => exact ih h.2 (by simpa using hk)

/-- The last move of a prefix can be taken back. -/
theorem Executable.reverse_enabled (h : Executable o ms) {k : ℕ} {m : Move K V}
    (hk : ms[k]? = some m) : m.reverse.Enabled (afterMoves o (ms.take (k + 1))) := by
  rw [afterMoves_take_succ hk]
  exact (h.enabled hk).reverse_enabled

theorem Executable.reverse_apply (h : Executable o ms) {k : ℕ} {m : Move K V}
    (hk : ms[k]? = some m) :
    m.reverse.apply (afterMoves o (ms.take (k + 1))) = afterMoves o (ms.take k) := by
  rw [afterMoves_take_succ hk]
  exact (h.enabled hk).reverse_apply

end Lists

end Occupancy
