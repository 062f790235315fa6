import Mathlib.Tactic.Common

/-!
# Results

What a computation that may fail says when it has not failed.
-/

namespace DarkReNamer

variable {ε α β : Type}

/-- `Option::ok_or`. -/
def okOr (error : ε) : Option α → Except ε α
  | some a => .ok a
  | none => .error error

theorem okOr_eq_ok_iff {error : ε} {o : Option α} {a : α} :
    okOr error o = .ok a ↔ o = some a := by
  cases o with
  | none => simp [okOr]
  | some b => simp [okOr]

theorem map_eq_ok_iff {r : Except ε α} {f : α → β} {b : β} :
    r.map f = .ok b ↔ ∃ a, r = .ok a ∧ f a = b := by
  cases r with
  | error e => simp [Except.map]
  | ok a => simp [Except.map]

theorem ite_error_eq_ok_iff {c : Prop} [Decidable c] {e : ε} {r : Except ε α} {a : α} :
    (if c then .error e else r) = .ok a ↔ ¬c ∧ r = .ok a := by
  split <;> simp [*]

theorem bind_eq_ok_iff {r : Except ε α} {f : α → Except ε β} {b : β} :
    (r >>= f) = .ok b ↔ ∃ a, r = .ok a ∧ f a = .ok b := by
  cases r with
  | error e => simp [bind, Except.bind]
  | ok a => simp [bind, Except.bind]

/-- What follows a check that throws. -/
theorem unless_eq_ok_iff {c : Prop} [Decidable c] {e : ε} {f : PUnit → Except ε α}
    {r : Except ε α} {a : α} :
    (if c then throw e >>= f else r) = .ok a ↔ ¬c ∧ r = .ok a := by
  split
  · simp [*, throw, throwThe, MonadExceptOf.throw, bind, Except.bind]
  · simp [*]

end DarkReNamer
