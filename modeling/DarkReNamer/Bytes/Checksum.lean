import Mathlib.Logic.Function.Basic
import Mathlib.Tactic.Common

/-!
# What a running checksum detects

A checksum that reads its input symbol by symbol, where every step can be undone and
distinguishes the symbols, tells apart two inputs that differ in one symbol. Nothing is
said about inputs that differ in more, or in length.
-/

namespace Bytes

variable {σ S : Type*} {step : σ → S → σ}

/-- Steps that can be undone keep different states apart. -/
theorem foldl_injective (hstate : ∀ symbol, Function.Injective fun s => step s symbol)
    (symbols : List S) : Function.Injective fun s => symbols.foldl step s := by
  induction symbols with
  | nil => exact fun _ _ h => h
  | cons symbol symbols ih => exact fun _ _ h => hstate symbol (ih h)

/-- One changed symbol changes the result. -/
theorem foldl_ne_of_changed (hstate : ∀ symbol, Function.Injective fun s => step s symbol)
    (hsymbol : ∀ s, Function.Injective (step s)) {before after : List S} {a b : S}
    (hab : a ≠ b) (s : σ) :
    (before ++ a :: after).foldl step s ≠ (before ++ b :: after).foldl step s := by
  rw [List.foldl_append, List.foldl_append, List.foldl_cons, List.foldl_cons]
  intro hsame
  exact hab (hsymbol _ (foldl_injective hstate after hsame))

end Bytes
