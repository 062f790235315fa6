import DarkReNamer.Interaction.Program

/-!
# Runs of an interaction program, crashes included

An environment is a relation: in state `s` it may answer the call `c` by `a` and
go to state `t`. A run of a program follows the calls the program makes and may
be cut before any of them, or after the last one: a cut run has no value, and
what it leaves behind is the state at the cut. The calls made, with their
answers, are the trace of the run.

`Spec env crash p post s` is the weakest precondition of this semantics: every
run of `p` from `s` that returns `a` in `t` satisfies `post a t`, and every
state in which a run may be cut satisfies `crash`. It is defined by recursion on
the program, so that a proof unfolds calls one at a time; `Spec.sound` reads it
back on runs.
-/

namespace Interaction

/-- An answer the environment may give, with the state it moves to. -/
abbrev Environment (σ C : Type) (A : C → Type) : Type :=
  σ → (c : C) → A c → σ → Prop

/-- One call with the answer it got. -/
structure Event (C : Type) (A : C → Type) : Type where
  call : C
  answer : A call

instance {C : Type} {A : C → Type} [DecidableEq C] [(c : C) → DecidableEq (A c)] :
    DecidableEq (Event C A)
  | ⟨c, answer⟩, ⟨c', answer'⟩ =>
      if h : c = c' then
        decidable_of_iff (h ▸ answer = answer') (by subst h; simp)
      else .isFalse fun heq => h (congrArg Event.call heq)

variable {σ C : Type} {A : C → Type} {α β ε : Type}

/-- `Runs env p s trace r t`: a run of `p` from `s` makes the calls of `trace` and
ends in `t`, with value `a` when `r = some a` and cut short when `r = none`. -/
inductive Runs (env : Environment σ C A) :
    Program C A α → σ → List (Event C A) → Option α → σ → Prop where
  | done (a : α) (s : σ) : Runs env (.pure a) s [] (some a) s
  | crash (p : Program C A α) (s : σ) : Runs env p s [] none s
  | call {c : C} {next : A c → Program C A α} {s t u : σ} {answer : A c}
      {trace : List (Event C A)} {r : Option α} (step : env s c answer t)
      (rest : Runs env (next answer) t trace r u) :
      Runs env (.request c next) s (⟨c, answer⟩ :: trace) r u

/-- The weakest precondition of `p` for the value condition `post` and the crash
condition `crash`. -/
def Spec (env : Environment σ C A) (crash : σ → Prop) :
    Program C A α → (α → σ → Prop) → σ → Prop
  | .pure a, post, s => crash s ∧ post a s
  | .request c next, post, s =>
      crash s ∧ ∀ answer t, env s c answer t → Spec env crash (next answer) post t

namespace Spec

variable {env env' : Environment σ C A} {crash crash' : σ → Prop}
  {post post' : α → σ → Prop}

@[simp] theorem pure_iff (a : α) (s : σ) :
    Spec env crash (.pure a) post s ↔ crash s ∧ post a s := Iff.rfl

theorem request_iff (c : C) (next : A c → Program C A α) (s : σ) :
    Spec env crash (.request c next) post s ↔
      crash s ∧ ∀ answer t, env s c answer t →
        Spec env crash (next answer) post t := Iff.rfl

theorem crash_of {p : Program C A α} {s : σ} (h : Spec env crash p post s) :
    crash s := by
  cases p with
  | pure a => exact h.1
  | request c next => exact h.1

/-- Adequacy: what `Spec` promises holds of every run, cut or finished. -/
theorem sound {p : Program C A α} {s t : σ} {trace : List (Event C A)}
    {r : Option α} (h : Spec env crash p post s) (run : Runs env p s trace r t) :
    crash t ∧ ∀ a, r = some a → post a t := by
  induction run with
  | done a s =>
      refine ⟨h.1, ?_⟩
      intro b hb
      cases hb
      exact h.2
  | crash p s => exact ⟨h.crash_of, by simp⟩
  | call step _ ih => exact ih (h.2 _ _ step)

/-- Sequencing: the value condition of `p` is the precondition of what follows. -/
theorem bind_iff (p : Program C A α) (f : α → Program C A β)
    (post : β → σ → Prop) (s : σ) :
    Spec env crash (p >>= f) post s ↔
      Spec env crash p (fun a t => Spec env crash (f a) post t) s := by
  induction p generalizing s with
  | pure a =>
      simp only [Program.pure_bind', pure_iff]
      exact ⟨fun h => ⟨h.crash_of, h⟩, fun h => h.2⟩
  | request c next ih =>
      simp only [Program.request_bind, request_iff, ih]

/-- A weaker value condition. -/
theorem mono {p : Program C A α} {s : σ} (h : Spec env crash p post s)
    (weaker : ∀ a t, post a t → post' a t) : Spec env crash p post' s := by
  induction p generalizing s with
  | pure a => exact ⟨h.1, weaker a s h.2⟩
  | request c next ih => exact ⟨h.1, fun a t step => ih a (h.2 a t step)⟩

/-- A finished run may as well be cut at its end. -/
theorem with_crash {p : Program C A α} {s : σ} (h : Spec env crash p post s) :
    Spec env crash p (fun a t => crash t ∧ post a t) s := by
  induction p generalizing s with
  | pure a => exact ⟨h.1, h⟩
  | request c next ih => exact ⟨h.1, fun a t step => ih a (h.2 a t step)⟩

/-- A weaker crash condition. -/
theorem mono_crash {p : Program C A α} {s : σ} (h : Spec env crash p post s)
    (weaker : ∀ t, crash t → crash' t) : Spec env crash' p post s := by
  induction p generalizing s with
  | pure a => exact ⟨weaker s h.1, h.2⟩
  | request c next ih =>
      exact ⟨weaker s h.1, fun a t step => ih a (h.2 a t step)⟩

/-- Fewer answers of the environment. -/
theorem mono_env {p : Program C A α} {s : σ} (h : Spec env crash p post s)
    (fewer : ∀ s c a t, env' s c a t → env s c a t) : Spec env' crash p post s := by
  induction p generalizing s with
  | pure a => exact h
  | request c next ih =>
      exact ⟨h.1, fun a t step => ih a (h.2 a t (fewer s c a t step))⟩

/-- Two specifications of one program hold together. -/
theorem both {p : Program C A α} {s : σ} (h : Spec env crash p post s)
    (h' : Spec env crash' p post' s) :
    Spec env (fun t => crash t ∧ crash' t) p (fun a t => post a t ∧ post' a t) s := by
  induction p generalizing s with
  | pure a => exact ⟨⟨h.1, h'.1⟩, h.2, h'.2⟩
  | request c next ih =>
      exact ⟨⟨h.1, h'.1⟩, fun a t step => ih a (h.2 a t step) (h'.2 a t step)⟩

/-- What every call preserves holds along the whole program. -/
theorem invariant {I : σ → Prop} (kept : ∀ s c a t, I s → env s c a t → I t)
    (p : Program C A α) {s : σ} (h : I s) : Spec env I p (fun _ t => I t) s := by
  induction p generalizing s with
  | pure a => exact ⟨h, h⟩
  | request c next ih => exact ⟨h, fun a t step => ih a (kept s c a t h step)⟩

/-- Sequencing in the error monad: an error ends the program with that error. -/
theorem except_bind_iff (p : ExceptT ε (Program C A) α)
    (f : α → ExceptT ε (Program C A) β) (post : Except ε β → σ → Prop) (s : σ) :
    Spec env crash (p >>= f).run post s ↔
      Spec env crash p.run
        (fun r t => match r with
          | .ok a => Spec env crash (f a).run post t
          | .error e => crash t ∧ post (.error e) t) s := by
  rw [ExceptT.run_bind, bind_iff]
  apply iff_of_eq
  congr 1
  funext r t
  cases r <;> rfl

theorem map_iff (f : α → β) (p : Program C A α) (post : β → σ → Prop) (s : σ) :
    Spec env crash (f <$> p) post s ↔ Spec env crash p (fun a t => post (f a) t) s := by
  rw [map_eq_pure_bind]
  induction p generalizing s with
  | pure a => exact Iff.rfl
  | request c next ih => simp only [Program.request_bind, request_iff, ih]

/-- A program without errors in the error monad. -/
theorem except_lift_iff (p : Program C A α) (post : Except ε α → σ → Prop) (s : σ) :
    Spec env crash (liftM p : ExceptT ε (Program C A) α).run post s ↔
      Spec env crash p (fun a t => post (.ok a) t) s :=
  map_iff Except.ok p post s

theorem except_lift_bind_iff (p : Program C A α) (f : α → ExceptT ε (Program C A) β)
    (post : Except ε β → σ → Prop) (s : σ) :
    Spec env crash (liftM p >>= f).run post s ↔
      Spec env crash p (fun a t => Spec env crash (f a).run post t) s := by
  have hrun : (liftM p >>= f).run = p >>= fun a => (f a).run := ExceptT.run_bind_lift p f
  rw [hrun, bind_iff]

theorem except_ask_bind {c : C} {f : A c → ExceptT ε (Program C A) β}
    {post : Except ε β → σ → Prop} {s : σ} (hcrash : crash s)
    (h : ∀ answer t, env s c answer t → Spec env crash (f answer).run post t) :
    Spec env crash (liftM (Program.ask c) >>= f).run post s := by
  rw [except_lift_bind_iff]
  exact ⟨hcrash, fun answer t step => ⟨(h answer t step).crash_of, h answer t step⟩⟩

end Spec

/-- The environment that also records every call with its answer. -/
def Environment.logged (env : Environment σ C A) :
    Environment (σ × List (Event C A)) C A :=
  fun s c a t => env s.1 c a t.1 ∧ t.2 = s.2 ++ [⟨c, a⟩]

theorem Runs.logged {env : Environment σ C A} {p : Program C A α} {s t : σ}
    {trace : List (Event C A)} {r : Option α} (run : Runs env p s trace r t)
    (past : List (Event C A)) :
    Runs env.logged p (s, past) trace r (t, past ++ trace) := by
  induction run generalizing past with
  | done a s => simpa using Runs.done a (s, past)
  | crash p s => simpa using Runs.crash p (s, past)
  | @call c next s t u answer trace r step _ ih =>
      have later := ih (past ++ [⟨c, answer⟩])
      rw [List.append_assoc] at later
      exact .call ⟨step, rfl⟩ later

namespace Program

/-- Runs `p` under a deterministic environment, given as a handler. -/
def run (handler : σ → (c : C) → A c × σ) : Program C A α → σ → α × σ
  | .pure a, s => (a, s)
  | .request c next, s => run handler (next (handler s c).1) (handler s c).2

/-- The calls that `run` makes, with their answers. -/
def trace (handler : σ → (c : C) → A c × σ) :
    Program C A α → σ → List (Event C A)
  | .pure _, _ => []
  | .request c next, s =>
      ⟨c, (handler s c).1⟩ :: trace handler (next (handler s c).1) (handler s c).2

/-- The state after so many calls of `p`, or after all of them. -/
def cut (handler : σ → (c : C) → A c × σ) : ℕ → Program C A α → σ → σ
  | 0, _, s => s
  | _ + 1, .pure _, s => s
  | n + 1, .request c next, s => cut handler n (next (handler s c).1) (handler s c).2

end Program

/-- A handler that answers as the environment allows gives a finished run. -/
theorem Runs.of_run {env : Environment σ C A} {handler : σ → (c : C) → A c × σ}
    (allowed : ∀ s c, env s c (handler s c).1 (handler s c).2)
    (p : Program C A α) (s : σ) :
    Runs env p s (p.trace handler s) (some (p.run handler s).1)
      (p.run handler s).2 := by
  induction p generalizing s with
  | pure a => exact .done a s
  | request c next ih => exact .call (allowed s c) (ih _ _)

/-- A program may be cut behind any of its calls. -/
theorem Runs.of_cut {env : Environment σ C A} {handler : σ → (c : C) → A c × σ}
    (allowed : ∀ s c, env s c (handler s c).1 (handler s c).2) (n : ℕ)
    (p : Program C A α) (s : σ) :
    ∃ trace, Runs env p s trace none (p.cut handler n s) := by
  induction n generalizing p s with
  | zero => exact ⟨[], .crash p s⟩
  | succ n ih =>
      cases p with
      | pure a => exact ⟨[], .crash _ s⟩
      | request c next =>
          obtain ⟨trace, rest⟩ := ih (next (handler s c).1) (handler s c).2
          exact ⟨_, .call (allowed s c) rest⟩

/-- A handler that makes a program return a value gives a run that returns it, with the calls
that the handler answers. -/
theorem Runs.trace_of_toOption {env : Environment σ C A} {handler : σ → (c : C) → A c × σ}
    (allowed : ∀ s c, env s c (handler s c).1 (handler s c).2)
    {p : ExceptT ε (Program C A) α} {s : σ} {f : α → β} {b : β}
    (h : (p.run.run handler s).1.toOption.map f = some b) :
    ∃ a, f a = b ∧ Runs env p.run s (p.run.trace handler s) (some (.ok a))
      (p.run.run handler s).2 := by
  have run := Runs.of_run allowed p.run s
  obtain ⟨a, ha, hb⟩ := Option.map_eq_some_iff.1 h
  cases hresult : (p.run.run handler s).1 with
  | error e =>
      rw [hresult] at ha
      cases ha
  | ok a' =>
      rw [hresult] at ha run
      cases ha
      exact ⟨a, hb, run⟩

theorem Runs.of_toOption {env : Environment σ C A} {handler : σ → (c : C) → A c × σ}
    (allowed : ∀ s c, env s c (handler s c).1 (handler s c).2)
    {p : ExceptT ε (Program C A) α} {s : σ} {f : α → β} {b : β}
    (h : (p.run.run handler s).1.toOption.map f = some b) :
    ∃ a trace, f a = b ∧ Runs env p.run s trace (some (.ok a)) (p.run.run handler s).2 := by
  obtain ⟨a, hb, run⟩ := Runs.trace_of_toOption allowed h
  exact ⟨a, _, hb, run⟩

/-- Where the environment always has an answer, every program can run to its end. -/
theorem Runs.exists_done {env : Environment σ C A}
    (total : ∀ s c, ∃ a t, env s c a t) (p : Program C A α) (s : σ) :
    ∃ trace a t, Runs env p s trace (some a) t := by
  induction p generalizing s with
  | pure a => exact ⟨[], a, s, .done a s⟩
  | request c next ih =>
      obtain ⟨answer, t, step⟩ := total s c
      obtain ⟨trace, a, u, rest⟩ := ih answer t
      exact ⟨_, a, u, .call step rest⟩

end Interaction
