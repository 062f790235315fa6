import Mathlib.Tactic.Common

/-!
# Parsers and the formats they read

A parser takes symbols from the front of a list, or fails. A format says which lists
encode a value. `Parses p form` is exact in both directions: `p` returns `a` and leaves
`rest` exactly when what it has taken encodes `a`. So the rules for sequencing carry
soundness and completeness of a decoder together, and a format that is read by some
parser has at most one value in front of every list.
-/

namespace Bytes

variable {S ε α β : Type}

/-- A program that takes symbols from the front of a list, or fails. -/
abbrev Parser (S ε α : Type) : Type := StateT (List S) (Except ε) α

/-- The lists that encode a value. -/
abbrev Format (S α : Type) : Type := α → List S → Prop

/-- The parser accepts exactly the encodings of the format. -/
def Parses (p : Parser S ε α) (form : Format S α) : Prop :=
  ∀ symbols a rest, p.run symbols = .ok (a, rest) ↔ ∃ front, form a front ∧ symbols = front ++ rest

namespace Parses

variable {p : Parser S ε α} {f : α → Parser S ε β} {form form' : Format S α}

theorem congr (h : Parses p form) (hform : ∀ a front, form a front ↔ form' a front) :
    Parses p form' := by
  intro symbols a rest
  rw [h symbols a rest]
  simp only [hform]

theorem pure (a : α) : Parses (Pure.pure a : Parser S ε α) fun b front => b = a ∧ front = [] := by
  intro symbols b rest
  rw [StateT.run_pure]
  constructor
  · rintro ⟨⟩
    exact ⟨[], ⟨rfl, rfl⟩, rfl⟩
  · rintro ⟨front, ⟨rfl, rfl⟩, rfl⟩
    rfl

theorem throw (e : ε) : Parses (MonadExcept.throw e : Parser S ε α) fun _ _ => False := by
  intro symbols a rest
  constructor
  · rintro ⟨⟩
  · rintro ⟨_, h, -⟩
    exact h.elim

/-- One format after another. -/
theorem bind {middle : α → Format S β} (h : Parses p form)
    (hrest : ∀ a front, form a front → Parses (f a) (middle a)) :
    Parses (p >>= f) fun b front =>
      ∃ a first second, form a first ∧ middle a b second ∧ front = first ++ second := by
  intro symbols b rest
  rw [StateT.run_bind]
  constructor
  · intro hrun
    cases hp : p.run symbols with
    | error e =>
        rw [hp] at hrun
        cases hrun
    | ok r =>
        obtain ⟨a, tail⟩ := r
        rw [hp] at hrun
        obtain ⟨first, hfirst, rfl⟩ := (h _ _ _).1 hp
        obtain ⟨second, hsecond, rfl⟩ := (hrest a first hfirst _ _ _).1 hrun
        exact ⟨first ++ second, ⟨a, first, second, hfirst, hsecond, rfl⟩,
          (List.append_assoc _ _ _).symm⟩
  · rintro ⟨front, ⟨a, first, second, hfirst, hsecond, rfl⟩, rfl⟩
    have hp : p.run (first ++ second ++ rest) = .ok (a, second ++ rest) :=
      (h _ _ _).2 ⟨first, hfirst, List.append_assoc _ _ _⟩
    rw [hp]
    exact (hrest a first hfirst _ _ _).2 ⟨second, hsecond, rfl⟩

/-- A value computed from what was read. -/
theorem map (g : α → β) (h : Parses p form) :
    Parses (g <$> p) fun b front => ∃ a, form a front ∧ b = g a := by
  rw [map_eq_pure_bind]
  refine (h.bind fun a _ _ => Parses.pure (g a)).congr fun b front => ?_
  constructor
  · rintro ⟨a, first, second, hfirst, ⟨rfl, rfl⟩, rfl⟩
    exact ⟨a, by simpa using hfirst, rfl⟩
  · rintro ⟨a, ha, rfl⟩
    exact ⟨a, front, [], ha, ⟨rfl, rfl⟩, by simp⟩

/-- A check that stops the parser. -/
theorem guard {c : Prop} [Decidable c] {e : ε} (h : ¬ c → Parses p form) :
    Parses (if c then MonadExcept.throw e else p) fun a front => ¬ c ∧ form a front := by
  by_cases hc : c
  · simp only [hc, if_true, not_true_eq_false, false_and]
    exact Parses.throw e
  · simp only [hc, if_false, not_false_eq_true, true_and]
    exact h hc

/-- A pure step that may fail. -/
theorem ofExcept (r : Except ε α) :
    Parses (liftM r : Parser S ε α) fun a front => r = .ok a ∧ front = [] := by
  intro symbols a rest
  cases r with
  | error e =>
      constructor
      · rintro ⟨⟩
      · rintro ⟨front, ⟨⟨⟩, -⟩, -⟩
  | ok b =>
      constructor
      · rintro ⟨⟩
        exact ⟨[], ⟨rfl, rfl⟩, rfl⟩
      · rintro ⟨front, ⟨⟨⟩, rfl⟩, rfl⟩
        rfl

/-- No encoding is a proper prefix of another one, and none has two values. -/
theorem unique (h : Parses p form) {a b : α} {front front' rest rest' : List S}
    (ha : form a front) (hb : form b front') (hsame : front ++ rest = front' ++ rest') :
    a = b ∧ front = front' ∧ rest = rest' := by
  have hrun : p.run (front ++ rest) = .ok (a, rest) := (h _ _ _).2 ⟨front, ha, rfl⟩
  have hrun' : p.run (front ++ rest) = .ok (b, rest') := (h _ _ _).2 ⟨front', hb, hsame⟩
  obtain ⟨rfl, rfl⟩ := Prod.mk.inj (Except.ok.inj (hrun.symm.trans hrun'))
  exact ⟨rfl, List.append_cancel_right hsame, rfl⟩

end Parses

/-- Takes symbols from the front. -/
def takeExactly (count : ℕ) (e : ε) : Parser S ε (List S) := fun symbols =>
  if count ≤ symbols.length then .ok (symbols.take count, symbols.drop count) else .error e

theorem parses_takeExactly (count : ℕ) (e : ε) :
    Parses (takeExactly count e : Parser S ε (List S))
      fun taken front => taken.length = count ∧ front = taken := by
  intro symbols taken rest
  simp only [takeExactly, StateT.run]
  by_cases hcount : count ≤ symbols.length
  · rw [if_pos hcount, Except.ok.injEq, Prod.mk.injEq]
    constructor
    · rintro ⟨rfl, rfl⟩
      exact ⟨_, ⟨List.length_take_of_le hcount, rfl⟩, (List.take_append_drop _ _).symm⟩
    · rintro ⟨_, ⟨rfl, rfl⟩, rfl⟩
      exact ⟨List.take_left, List.drop_left⟩
  · rw [if_neg hcount]
    constructor
    · rintro ⟨⟩
    · rintro ⟨_, ⟨rfl, rfl⟩, rfl⟩
      simp at hcount

/-- The same parser a number of times. -/
def times (p : Parser S ε α) : ℕ → Parser S ε (List α)
  | 0 => pure []
  | count + 1 => do
      let first ← p
      let rest ← times p count
      pure (first :: rest)

theorem parses_times {p : Parser S ε α} {encode : α → List S} {valid : α → Prop}
    (h : Parses p fun a front => valid a ∧ front = encode a) (count : ℕ) :
    Parses (times p count) fun as front =>
      as.length = count ∧ (∀ a ∈ as, valid a) ∧ front = as.flatMap encode := by
  induction count with
  | zero =>
      refine (Parses.pure []).congr fun as front => ?_
      constructor
      · rintro ⟨rfl, rfl⟩
        simp
      · rintro ⟨hlength, -, rfl⟩
        obtain rfl := List.length_eq_zero_iff.1 hlength
        simp
  | succ count ih =>
      refine (h.bind fun first _ _ => ih.bind fun rest _ _ =>
        Parses.pure (first :: rest)).congr fun as front => ?_
      constructor
      · rintro ⟨a, _, _, ⟨ha, rfl⟩, ⟨rest, _, _, ⟨rfl, hrest, rfl⟩, ⟨rfl, rfl⟩, rfl⟩, rfl⟩
        exact ⟨rfl, by simpa using ⟨ha, hrest⟩, by simp⟩
      · rintro ⟨hlength, hvalid, rfl⟩
        obtain ⟨a, rest, rfl⟩ := List.exists_cons_of_length_eq_add_one hlength
        have hall := List.forall_mem_cons.1 hvalid
        exact ⟨a, encode a, rest.flatMap encode, ⟨hall.1, rfl⟩,
          ⟨rest, _, [], ⟨by simpa using hlength, hall.2, rfl⟩, ⟨rfl, rfl⟩, by simp⟩, rfl⟩

end Bytes
