import DarkReNamer.Interaction.Run

/-!
# Programs that leave the state alone

`Reads env p s post`: every run of `p` from `s`, cut or finished, stays in `s`, and a
finished one returns a value in `post`. `Checks` is the same for a program that may
fail, with one condition for the values and one for the errors. Both have one rule
for each way of building a program, so a program of reads is verified by following
its text.
-/

namespace Interaction

variable {σ C : Type} {A : C → Type} {α β ε ε' : Type}

def Reads (env : Environment σ C A) (p : Program C A α) (s : σ) (post : α → Prop) : Prop :=
  Spec env (fun t => t = s) p (fun a t => t = s ∧ post a) s

/-- A condition on the values and one on the errors. -/
def ExceptPost (ok : α → Prop) (error : ε → Prop) : Except ε α → Prop
  | .ok a => ok a
  | .error e => error e

def Checks (env : Environment σ C A) (p : ExceptT ε (Program C A) α) (s : σ)
    (ok : α → Prop) (error : ε → Prop) : Prop :=
  Reads env p.run s (ExceptPost ok error)

variable {env : Environment σ C A} {s : σ}

@[simp] theorem except_ok_bind (a : α) (f : α → Except ε β) :
    (Except.ok a >>= f) = f a := rfl

namespace Reads

variable {post post' : α → Prop}

theorem pure {a : α} (h : post a) : Reads env (Pure.pure a) s post := ⟨rfl, rfl, h⟩

theorem mono {p : Program C A α} (h : Reads env p s post) (weaker : ∀ a, post a → post' a) :
    Reads env p s post' :=
  Spec.mono h fun a _ ha => ⟨ha.1, weaker a ha.2⟩

theorem bind {p : Program C A α} {f : α → Program C A β} {post : β → Prop}
    {middle : α → Prop} (h : Reads env p s middle)
    (rest : ∀ a, middle a → Reads env (f a) s post) : Reads env (p >>= f) s post := by
  refine (Spec.bind_iff p f _ s).2 (Spec.mono h fun a t ha => ?_)
  obtain ⟨rfl, ha⟩ := ha
  exact rest a ha

theorem ask {c : C} {post : A c → Prop} (h : ∀ a t, env s c a t → t = s ∧ post a) :
    Reads env (Program.ask c) s post := by
  refine ⟨rfl, fun a t step => ?_⟩
  obtain ⟨rfl, ha⟩ := h a t step
  exact ⟨rfl, rfl, ha⟩

/-- What is promised of an answer holds of one that the environment gives. -/
theorem answered {c : C} {post : A c → Prop} (h : Reads env (Program.ask c) s post) :
    Reads env (Program.ask c) s fun a => post a ∧ ∃ t, env s c a t :=
  ask fun a t step => ⟨(h.2 a t step).1, (h.2 a t step).2.2, t, step⟩

/-- A program of reads inside a larger one. -/
theorem spec {p : Program C A α} {crash : σ → Prop} (h : Reads env p s post)
    (hcrash : crash s) : Spec env crash p (fun a t => t = s ∧ post a) s :=
  Spec.mono_crash h (by rintro t rfl; exact hcrash)

end Reads

namespace Checks

variable {ok ok' : α → Prop} {error error' : ε → Prop}

theorem pure {a : α} (h : ok a) :
    Checks env (Pure.pure a : ExceptT ε (Program C A) α) s ok error := ⟨rfl, rfl, h⟩

theorem throw {e : ε} (h : error e) :
    Checks env (MonadExcept.throw e : ExceptT ε (Program C A) α) s ok error :=
  ⟨rfl, rfl, h⟩

theorem mono {p : ExceptT ε (Program C A) α} (h : Checks env p s ok error)
    (hok : ∀ a, ok a → ok' a) (herror : ∀ e, error e → error' e) :
    Checks env p s ok' error' := by
  refine Reads.mono h fun r hr => ?_
  cases r with
  | ok a => exact hok a hr
  | error e => exact herror e hr

/-- Two checks of one program. -/
theorem and {p : ExceptT ε (Program C A) α} (h : Checks env p s ok error)
    (h' : Checks env p s ok' error') :
    Checks env p s (fun a => ok a ∧ ok' a) fun e => error e ∧ error' e := by
  refine ((Spec.both h h').mono_crash fun t ht => ht.1).mono ?_
  rintro r t ⟨⟨rfl, hr⟩, -, hr'⟩
  refine ⟨rfl, ?_⟩
  cases r with
  | ok a => exact ⟨hr, hr'⟩
  | error e => exact ⟨hr, hr'⟩

theorem bind {p : ExceptT ε (Program C A) α} {f : α → ExceptT ε (Program C A) β}
    {middle : α → Prop} {ok : β → Prop} (h : Checks env p s middle error)
    (rest : ∀ a, middle a → Checks env (f a) s ok error) :
    Checks env (p >>= f) s ok error := by
  unfold Checks at *
  rw [ExceptT.run_bind]
  refine Reads.bind h fun r hr => ?_
  cases r with
  | ok a => exact rest a hr
  | error e => exact ⟨rfl, rfl, hr⟩

/-- A pure step of a failing program. -/
theorem ofExcept {r : Except ε α} (h : ExceptPost ok error r) :
    Checks env (ExceptT.mk (Pure.pure r)) s ok error := ⟨rfl, rfl, h⟩

/-- Other errors, the same values. -/
theorem mapError {p : ExceptT ε (Program C A) α} {error' : ε' → Prop} (g : ε → ε')
    (h : Checks env p s ok error) (herror : ∀ e, error e → error' (g e)) :
    Checks env (ExceptT.mk (Except.mapError g <$> p.run)) s ok error' := by
  unfold Checks
  rw [ExceptT.run_mk, map_eq_pure_bind]
  refine Reads.bind h fun r hr => Reads.pure ?_
  cases r with
  | ok a => exact hr
  | error e => exact herror e hr

/-- A call of the program inside the error monad. -/
theorem lift {p : Program C A α} (h : Reads env p s ok) :
    Checks env (liftM p : ExceptT ε (Program C A) α) s ok error := by
  have hrun : (liftM p : ExceptT ε (Program C A) α).run =
      p >>= fun a => Pure.pure (.ok a) := by
    rw [← map_eq_pure_bind]
    rfl
  unfold Checks
  rw [hrun]
  exact Reads.bind h fun a ha => ⟨rfl, rfl, ha⟩

end Checks

end Interaction
