import DarkReNamer.Interaction.Run
import Mathlib.Order.Nat

/-!
# Loops over a program

`loop body n s` runs `body` from `s` again and again until it says `done`, at most `n`
times, and returns nothing when it is stopped by the bound. What holds at every head of the
loop is proved once from one round; a measure that each round lowers shows that the bound is
never what stops the loop.
-/

namespace Interaction

variable {σ C : Type} {A : C → Type} {S ε : Type}

/-- What a round of a loop ends with. -/
inductive Control (S : Type) where
  | next (state : S)
  | done (state : S)

def loop (body : S → ExceptT ε (Program C A) (Control S)) :
    ℕ → S → ExceptT ε (Program C A) (Option S)
  | 0, _ => pure none
  | n + 1, s => do
    match ← body s with
    | .next t => loop body n t
    | .done t => pure (some t)

variable {env : Environment σ C A} {body : S → ExceptT ε (Program C A) (Control S)}

/-- The heads of the loop that runs reach from `s₀` in `e₀`, each with the heads before it. -/
inductive Heads (env : Environment σ C A) (body : S → ExceptT ε (Program C A) (Control S))
    (s₀ : S) (e₀ : σ) : List S → S → σ → Prop where
  | start : Heads env body s₀ e₀ [] s₀ e₀
  | next {visited : List S} {s t : S} {e e' : σ} {trace : List (Event C A)}
      (past : Heads env body s₀ e₀ visited s e)
      (round : Runs env (body s).run e trace (some (.ok (.next t))) e') :
      Heads env body s₀ e₀ (s :: visited) t e'

/-- The condition on the heads, on the last state, and on an error. -/
def LoopPost (I J : S → σ → Prop) (E : ε → σ → Prop) : Except ε (Control S) → σ → Prop
  | .ok (.next t), e => I t e
  | .ok (.done t), e => J t e
  | .error err, e => E err e

/-- The condition on the last state, on being stopped by the bound, and on an error. -/
def ResultPost (J : S → σ → Prop) (stopped : Prop) (E : ε → σ → Prop) :
    Except ε (Option S) → σ → Prop
  | .ok (some t), e => J t e
  | .ok none, _ => stopped
  | .error err, e => E err e

/-- The loop rule: one round from a head leads to a head of smaller measure, or out of the
loop. Only a bound that is not above the measure can stop the loop. -/
theorem Spec.loop {I J : S → σ → Prop} {E : ε → σ → Prop} {crash : σ → Prop}
    (measure : S → ℕ)
    (hbody : ∀ s e, I s e → Spec env crash (body s).run
      (LoopPost (fun t e' => I t e' ∧ measure t < measure s) J E) e)
    (n : ℕ) {s : S} {e : σ} (hs : I s e) :
    Spec env crash (Interaction.loop body n s).run (ResultPost J (n ≤ measure s) E) e := by
  induction n generalizing s e with
  | zero => exact ⟨(hbody s e hs).crash_of, Nat.zero_le _⟩
  | succ n ih =>
      rw [Interaction.loop, Spec.except_bind_iff]
      refine (hbody s e hs).with_crash.mono ?_
      rintro r e' ⟨hcrash, hr⟩
      cases r with
      | error err => exact ⟨hcrash, hr⟩
      | ok control =>
          cases control with
          | next t =>
              obtain ⟨ht, hlt⟩ := hr
              refine (ih ht).mono ?_
              rintro r e'' hr
              cases r with
              | error err => exact hr
              | ok last =>
                  cases last with
                  | none => exact Nat.lt_of_le_of_lt hr hlt
                  | some last => exact hr
          | done t => exact ⟨hcrash, hr⟩

/-- What every round keeps holds at every head. -/
theorem Heads.invariant {I : S → Prop} {s₀ : S} {e₀ : σ} (hs : I s₀)
    (hround : ∀ {s t e e' trace}, I s →
      Runs env (body s).run e trace (some (.ok (.next t))) e' → I t)
    {visited : List S} {s : S} {e : σ} (h : Heads env body s₀ e₀ visited s e) : I s := by
  induction h with
  | start => exact hs
  | next past round ih => exact hround ih round

end Interaction
