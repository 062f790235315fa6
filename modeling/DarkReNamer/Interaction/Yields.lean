import DarkReNamer.Interaction.Confined

/-!
# Values over one environment

`Yields env ok p`: over `env` the program `p` returns only values in `ok`, whatever state it
runs from. Unlike `Tries` it may rely on what `env` answers. A program that makes only quiet
calls, those that leave some reading of the log alone, keeps that reading; the rule
`Yields.quiet` puts the two together over the recording environment.
-/

namespace Interaction

variable {σ C : Type} {A : C → Type} {α β ε : Type} {env : Environment σ C A}

def Yields (env : Environment σ C A) (ok : α → Prop) (p : ExceptT ε (Program C A) α) : Prop :=
  ∀ s, Spec env (fun _ => True) p.run (fun r _ => ∀ a, r = .ok a → ok a) s

/-- Sequencing, with the conditions of both halves at hand. -/
theorem Spec.except_bind {p : ExceptT ε (Program C A) α} {f : α → ExceptT ε (Program C A) β}
    {crash : σ → Prop} {middle : Except ε α → σ → Prop} {post : Except ε β → σ → Prop} {s : σ}
    (h : Spec env crash p.run middle s)
    (hok : ∀ a t, middle (.ok a) t → Spec env crash (f a).run post t)
    (herror : ∀ e t, crash t → middle (.error e) t → post (.error e) t) :
    Spec env crash (p >>= f).run post s := by
  rw [Spec.except_bind_iff]
  refine h.with_crash.mono ?_
  rintro r t ⟨hcrash, hr⟩
  cases r with
  | ok a => exact hok a t hr
  | error e => exact ⟨hcrash, herror e t hcrash hr⟩

/-- The recording environment does not change what a program can return. -/
theorem Spec.logged {p : Program C A α} {post : α → σ → Prop} {s : σ}
    (h : Spec env (fun _ => True) p post s) (log : List (Event C A)) :
    Spec env.logged (fun _ => True) p (fun a t => post a t.1) (s, log) := by
  induction p generalizing s log with
  | pure a => exact ⟨trivial, h.2⟩
  | request c next ih =>
      refine ⟨trivial, ?_⟩
      rintro a ⟨t, log'⟩ ⟨step, -⟩
      exact ih a (h.2 a t step) log'

namespace Yields

variable {ok ok' : α → Prop} {p : ExceptT ε (Program C A) α}

theorem pure {a : α} (h : ok a) :
    Yields env ok (Pure.pure a : ExceptT ε (Program C A) α) := by
  refine fun s => ⟨trivial, ?_⟩
  rintro b ⟨⟩
  exact h

theorem mono (h : Yields env ok p) (weaker : ∀ a, ok a → ok' a) : Yields env ok' p :=
  fun s => (h s).mono fun _ _ hr a ha => weaker a (hr a ha)

theorem bind {f : α → ExceptT ε (Program C A) β} {middle : α → Prop} {ok : β → Prop}
    (h : Yields env middle p) (rest : ∀ a, middle a → Yields env ok (f a)) :
    Yields env ok (p >>= f) := by
  refine fun s => Spec.except_bind (h s) (fun a t ha => rest a (ha a rfl) t) ?_
  rintro e t - - b ⟨⟩

/-- A call, with what the environment can answer to it. -/
theorem call {c : C} (ok : A c → Prop) (h : ∀ s a t, env s c a t → ok a) :
    Yields env ok (liftM (Program.ask (A := A) c) : ExceptT ε (Program C A) (A c)) := by
  intro s
  rw [Spec.except_lift_iff]
  refine ⟨trivial, fun a t step => ⟨trivial, ?_⟩⟩
  rintro b ⟨⟩
  exact h s a t step

theorem of_tries {allowed : C → Prop} (h : Tries allowed ok p) : Yields env ok p := fun _ =>
  ((h.spec (I := fun _ => True) (fun _ _ _ _ _ _ _ => trivial) trivial)).mono
    fun _ _ hr => hr.2

/-- A program of quiet calls, over the recording environment. -/
theorem quiet {quiet : C → Prop} {ok'' : α → Prop} (reading : List (Event C A) → Prop)
    (h : Yields env ok p) (hquiet : Tries quiet ok'' p)
    (kept : ∀ log c a, quiet c → reading log → reading (log ++ [⟨c, a⟩])) {s : σ}
    {log : List (Event C A)} (hlog : reading log) :
    Spec env.logged (fun t => reading t.2) p.run
      (fun r t => reading t.2 ∧ ∀ a, r = .ok a → ok a) (s, log) := by
  have hkept : Spec env.logged (fun t => reading t.2) p.run
      (fun r t => reading t.2 ∧ ∀ a, r = .ok a → ok'' a) (s, log) := by
    refine hquiet.spec ?_ hlog
    rintro ⟨e, log⟩ c a ⟨e', log'⟩ hc hr ⟨-, hlog'⟩
    have heq : log' = log ++ [⟨c, a⟩] := hlog'
    exact heq ▸ kept log c a hc hr
  exact ((hkept.both ((h s).logged log)).mono_crash fun _ ht => ht.1).mono
    fun _ _ hr => ⟨hr.1.1, hr.2⟩

end Yields

end Interaction
