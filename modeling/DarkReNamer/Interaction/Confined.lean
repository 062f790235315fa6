import DarkReNamer.Interaction.Run

/-!
# What a program does in every environment

`Confined allowed post p`: whatever is answered, `p` makes only calls in `allowed` and
returns only values in `post`. It speaks of the text of the program alone, so it
transfers to every environment: what the allowed calls preserve is preserved by `p`.
`Tries` is the same for a program that may fail, with a condition on its values.
-/

namespace Interaction

variable {σ C : Type} {A : C → Type} {α β ε ε' : Type} {allowed : C → Prop}

def Confined (allowed : C → Prop) (post : α → Prop) : Program C A α → Prop
  | .pure a => post a
  | .request c next => allowed c ∧ ∀ answer, Confined allowed post (next answer)

/-- All values of a program that may fail are in `ok`. -/
def Tries (allowed : C → Prop) (ok : α → Prop) (p : ExceptT ε (Program C A) α) : Prop :=
  Confined allowed (fun r => ∀ a, r = .ok a → ok a) p.run

namespace Confined

variable {post post' : α → Prop}

theorem mono {p : Program C A α} (h : Confined allowed post p)
    (weaker : ∀ a, post a → post' a) : Confined allowed post' p := by
  induction p with
  | pure a => exact weaker a h
  | request c next ih => exact ⟨h.1, fun answer => ih answer (h.2 answer)⟩

/-- More calls allowed. -/
theorem mono_calls {allowed' : C → Prop} {p : Program C A α} (h : Confined allowed post p)
    (more : ∀ c, allowed c → allowed' c) : Confined allowed' post p := by
  induction p with
  | pure a => exact h
  | request c next ih => exact ⟨more c h.1, fun answer => ih answer (h.2 answer)⟩

theorem bind {p : Program C A α} {f : α → Program C A β} {post : β → Prop}
    {middle : α → Prop} (h : Confined allowed middle p)
    (rest : ∀ a, middle a → Confined allowed post (f a)) : Confined allowed post (p >>= f) := by
  induction p with
  | pure a => exact rest a h
  | request c next ih => exact ⟨h.1, fun answer => ih answer (h.2 answer)⟩

theorem ask {c : C} (h : allowed c) : Confined allowed (fun _ => True) (Program.ask (A := A) c) :=
  ⟨h, fun _ => trivial⟩

/-- What the allowed calls preserve holds along a confined program. -/
theorem spec {env : Environment σ C A} {I : σ → Prop} {p : Program C A α} {s : σ}
    (h : Confined allowed post p)
    (kept : ∀ s c a t, allowed c → I s → env s c a t → I t) (hs : I s) :
    Spec env I p (fun a t => I t ∧ post a) s := by
  induction p generalizing s with
  | pure a => exact ⟨hs, hs, h⟩
  | request c next ih =>
      exact ⟨hs, fun a t step => ih a (h.2 a) (kept s c a t h.1 hs step)⟩

/-- The calls that a confined program has made are allowed. -/
theorem spec_logged {env : Environment σ C A} {p : Program C A α}
    {s : σ × List (Event C A)} (h : Confined allowed post p)
    (hs : ∀ event ∈ s.2, allowed event.call) :
    Spec env.logged (fun t => ∀ event ∈ t.2, allowed event.call) p
      (fun a t => (∀ event ∈ t.2, allowed event.call) ∧ post a) s := by
  refine h.spec ?_ hs
  rintro s c a t hallowed hpast ⟨-, hlog⟩ event hevent
  rw [hlog] at hevent
  rcases List.mem_append.1 hevent with hevent | hevent
  · exact hpast event hevent
  · rw [List.mem_singleton.1 hevent]
    exact hallowed

end Confined

namespace Tries

variable {ok ok' : α → Prop}

theorem pure {a : α} (h : ok a) :
    Tries allowed ok (Pure.pure a : ExceptT ε (Program C A) α) := by
  rintro b ⟨⟩
  exact h

theorem throw (e : ε) :
    Tries allowed ok (MonadExcept.throw e : ExceptT ε (Program C A) α) := by
  rintro b ⟨⟩

theorem ofExcept {r : Except ε α} (h : ∀ a, r = .ok a → ok a) :
    Tries allowed ok (ExceptT.mk (Pure.pure r) : ExceptT ε (Program C A) α) := h

theorem mono {p : ExceptT ε (Program C A) α} (h : Tries allowed ok p)
    (weaker : ∀ a, ok a → ok' a) : Tries allowed ok' p :=
  Confined.mono h fun _ hr a ha => weaker a (hr a ha)

theorem bind {p : ExceptT ε (Program C A) α} {f : α → ExceptT ε (Program C A) β}
    {ok : β → Prop} {m : α → Prop} (h : Tries allowed m p)
    (rest : ∀ a, m a → Tries allowed ok (f a)) : Tries allowed ok (p >>= f) := by
  unfold Tries at *
  rw [ExceptT.run_bind]
  refine Confined.bind h fun r hr => ?_
  cases r with
  | ok a => exact rest a (hr a rfl)
  | error e => rintro b ⟨⟩

theorem lift {p : Program C A α} (h : Confined allowed ok p) :
    Tries allowed ok (liftM p : ExceptT ε (Program C A) α) := by
  have hrun : (liftM p : ExceptT ε (Program C A) α).run =
      p >>= fun a => Pure.pure (.ok a) := by
    rw [← map_eq_pure_bind]
    rfl
  unfold Tries
  rw [hrun]
  refine Confined.bind h fun a ha => ?_
  rintro b ⟨⟩
  exact ha

/-- Other errors, the same values. -/
theorem mapError {p : ExceptT ε (Program C A) α} (g : ε → ε') (h : Tries allowed ok p) :
    Tries allowed ok (ExceptT.mk (Except.mapError g <$> p.run)) := by
  unfold Tries at *
  rw [ExceptT.run_mk, map_eq_pure_bind]
  refine Confined.bind h fun r hr => ?_
  rintro a ha
  cases r with
  | ok b => exact hr a (by simpa [Except.mapError] using ha)
  | error e => simp [Except.mapError] at ha

/-- A call inside the error monad. -/
theorem ask {c : C} (h : allowed c) :
    Tries allowed (fun _ => True) (liftM (Program.ask (A := A) c) :
      ExceptT ε (Program C A) (A c)) :=
  lift (Confined.ask h)

end Tries

end Interaction
