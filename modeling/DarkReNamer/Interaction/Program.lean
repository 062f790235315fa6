import Mathlib.Tactic.Common

/-!
# Interaction programs

A program that acts on its environment only through calls. `Program C A α` is
either finished with a value or stopped at a call `c : C`, waiting for an answer
of type `A c`. Nothing is said here about what the environment answers: that is
the environment relation of `Interaction/Run.lean`. The two are kept apart so
that one program is read under several environments.
-/

namespace Interaction

/-- A program over the calls `C`, whose call `c` is answered in `A c`. -/
inductive Program (C : Type) (A : C → Type) (α : Type) : Type where
  | pure (value : α) : Program C A α
  | request (call : C) (next : A call → Program C A α) : Program C A α

namespace Program

variable {C : Type} {A : C → Type} {α β γ : Type}

/-- Runs `p` and continues with `f` at its value. -/
protected def bind : Program C A α → (α → Program C A β) → Program C A β
  | .pure a, f => f a
  | .request c next, f => .request c fun answer => (next answer).bind f

/-- The program that makes one call and returns its answer. -/
def ask (c : C) : Program C A (A c) := .request c .pure

instance : Monad (Program C A) where
  pure := Program.pure
  bind := Program.bind

@[simp] theorem pure_def (a : α) :
    (Pure.pure a : Program C A α) = .pure a := rfl

@[simp] theorem pure_bind' (a : α) (f : α → Program C A β) :
    (Program.pure a >>= f) = f a := rfl

@[simp] theorem request_bind (c : C) (next : A c → Program C A α)
    (f : α → Program C A β) :
    (Program.request c next >>= f) = .request c fun answer => next answer >>= f := rfl

@[simp] theorem ask_bind (c : C) (f : A c → Program C A β) :
    (ask c >>= f) = .request c f := rfl

theorem bind_assoc' (p : Program C A α) (f : α → Program C A β)
    (g : β → Program C A γ) :
    (p >>= f) >>= g = p >>= fun a => f a >>= g := by
  induction p with
  | pure a => rfl
  | request c next ih =>
      simp only [request_bind]
      congr 1
      funext answer
      exact ih answer

theorem bind_pure' (p : Program C A α) : (p >>= Program.pure) = p := by
  induction p with
  | pure a => rfl
  | request c next ih =>
      simp only [request_bind]
      congr 1
      funext answer
      exact ih answer

instance : LawfulMonad (Program C A) :=
  LawfulMonad.mk' _ (fun p => bind_pure' p) (fun _ _ => rfl)
    (fun p f g => bind_assoc' p f g)

end Program

end Interaction
