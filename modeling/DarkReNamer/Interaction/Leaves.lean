import DarkReNamer.Interaction.Trace

/-!
# What the runs of a program leave

`Leaves allowed p post`: a run of `p` in which every answer is allowed leaves its value and its
trace in `post`, where a cut run has the value `none`. It speaks of traces alone, over every
environment, and is defined by recursion on the program with the events so far moved into the
condition, so that a proof reads the program call by call.

`Follows good script` are the traces of a program that makes the calls of a script one after the
other and goes on only after a good answer.
-/

namespace Interaction

variable {σ C : Type} {A : C → Type} {α β ε : Type} {allowed : (c : C) → A c → Prop}

def Leaves (allowed : (c : C) → A c → Prop) :
    Program C A α → (Option α → List (Event C A) → Prop) → Prop
  | .pure a, post => post none [] ∧ post (some a) []
  | .request c next, post =>
      post none [] ∧ ∀ answer, allowed c answer →
        Leaves allowed (next answer) fun r events => post r (⟨c, answer⟩ :: events)

namespace Leaves

variable {post post' : Option α → List (Event C A) → Prop} {p : Program C A α}

/-- Adequacy: what is left holds of every run, cut or finished. -/
theorem sound {env : Environment σ C A} {s t : σ} {trace : List (Event C A)} {r : Option α}
    (h : Leaves allowed p post) (run : Runs env p s trace r t)
    (hallowed : ∀ event ∈ trace, allowed event.call event.answer) : post r trace := by
  induction run generalizing post with
  | done a s => exact h.2
  | crash p s =>
      cases p with
      | pure a => exact h.1
      | request c next => exact h.1
  | call _ _ ih =>
      exact ih (h.2 _ (hallowed _ List.mem_cons_self)) fun event hevent =>
        hallowed event (List.mem_cons_of_mem _ hevent)

theorem mono (h : Leaves allowed p post) (weaker : ∀ r events, post r events → post' r events) :
    Leaves allowed p post' := by
  induction p generalizing post post' with
  | pure a => exact ⟨weaker _ _ h.1, weaker _ _ h.2⟩
  | request c next ih =>
      exact ⟨weaker _ _ h.1, fun answer hanswer =>
        ih answer (h.2 answer hanswer) fun _ _ => weaker _ _⟩

/-- Sequencing: the events of the first part come before those of the second. -/
theorem bind {f : α → Program C A β} {post : Option β → List (Event C A) → Prop}
    {middle : Option α → List (Event C A) → Prop} (h : Leaves allowed p middle)
    (hcut : ∀ events, middle none events → post none events)
    (rest : ∀ a events, middle (some a) events →
      Leaves allowed (f a) fun r later => post r (events ++ later)) :
    Leaves allowed (p >>= f) post := by
  induction p generalizing middle post with
  | pure a => exact rest a [] h.2
  | request c next ih =>
      refine ⟨hcut _ h.1, fun answer hanswer => ?_⟩
      exact ih answer (h.2 answer hanswer) (fun _ => hcut _) fun a events => rest a _

theorem both (h : Leaves allowed p post) (h' : Leaves allowed p post') :
    Leaves allowed p fun r events => post r events ∧ post' r events := by
  induction p generalizing post post' with
  | pure a => exact ⟨⟨h.1, h'.1⟩, h.2, h'.2⟩
  | request c next ih =>
      exact ⟨⟨h.1, h'.1⟩, fun answer hanswer => ih answer (h.2 answer hanswer)
        (h'.2 answer hanswer)⟩

/-- The calls of a confined program, and its values. -/
theorem of_confined {calls : C → Prop} {ok : α → Prop} (h : Confined calls ok p) :
    Leaves allowed p fun r events =>
      (∀ event ∈ events, calls event.call) ∧ ∀ a, r = some a → ok a := by
  induction p with
  | pure a =>
      refine ⟨by simp, by simp, ?_⟩
      rintro b ⟨⟩
      exact h
  | request c next ih =>
      refine ⟨by simp, fun answer _ => (ih answer (h.2 answer)).mono ?_⟩
      rintro r events ⟨hevents, hr⟩
      refine ⟨fun event hevent => ?_, hr⟩
      rcases List.mem_cons.1 hevent with rfl | hevent
      · exact h.1
      · exact hevents event hevent

end Leaves

theorem Leaves.ask (c : C) :
    Leaves allowed (Program.ask (A := A) c) fun r events =>
      ∀ answer, r = some answer → events = [⟨c, answer⟩] := by
  refine ⟨by simp, fun answer _ => ⟨by simp, ?_⟩⟩
  rintro _ ⟨⟩
  rfl

/-- What the environment promises of its answers holds along a run. -/
theorem Runs.forall_event {env : Environment σ C A} {p : Program C A α} {s t : σ}
    {trace : List (Event C A)} {r : Option α} (run : Runs env p s trace r t)
    (promise : ∀ s c answer t, env s c answer t → allowed c answer) :
    ∀ event ∈ trace, allowed event.call event.answer := by
  induction run with
  | done a s => simp
  | crash p s => simp
  | call step _ ih => exact List.forall_mem_cons.2 ⟨promise _ _ _ _ step, ih⟩

/-- The values of a program that may fail, with the events before them. -/
def Shows (allowed : (c : C) → A c → Prop) (p : ExceptT ε (Program C A) α)
    (ok : α → List (Event C A) → Prop) : Prop :=
  Leaves allowed p.run fun r events => ∀ a, r = some (.ok a) → ok a events

namespace Shows

variable {ok ok' : α → List (Event C A) → Prop} {p : ExceptT ε (Program C A) α}

theorem pure {a : α} (h : ok a []) :
    Shows allowed (Pure.pure a : ExceptT ε (Program C A) α) ok := by
  refine ⟨by simp, ?_⟩
  rintro b ⟨⟩
  exact h

theorem throw (e : ε) : Shows allowed (MonadExcept.throw e : ExceptT ε (Program C A) α) ok := by
  refine ⟨by simp, ?_⟩
  rintro b ⟨⟩

theorem mono (h : Shows allowed p ok) (weaker : ∀ a events, ok a events → ok' a events) :
    Shows allowed p ok' :=
  Leaves.mono h fun _ events hr a ha => weaker a events (hr a ha)

/-- The calls of the program, besides its values. -/
theorem confined {calls : C → Prop} {values : α → Prop} (h : Shows allowed p ok)
    (htries : Tries calls values p) :
    Shows allowed p fun a events => ok a events ∧ ∀ event ∈ events, calls event.call :=
  (Leaves.both h (Leaves.of_confined htries)).mono fun _ _ hboth a ha =>
    ⟨hboth.1 a ha, hboth.2.1⟩

theorem bind {f : α → ExceptT ε (Program C A) β} {post : β → List (Event C A) → Prop}
    (h : Shows allowed p ok)
    (rest : ∀ a events, ok a events → Shows allowed (f a) fun b later => post b (events ++ later)) :
    Shows allowed (p >>= f) post := by
  unfold Shows at *
  rw [ExceptT.run_bind]
  refine Leaves.bind h (fun _ _ => by simp) fun r events hr => ?_
  cases r with
  | ok a => exact rest a events (hr a rfl)
  | error e => exact ⟨by simp, by simp⟩

/-- A call, after which the program goes on from an allowed answer. -/
theorem call {c : C} {f : A c → ExceptT ε (Program C A) β} {post : β → List (Event C A) → Prop}
    (h : ∀ answer, allowed c answer →
      Shows allowed (f answer) fun b later => post b (⟨c, answer⟩ :: later)) :
    Shows allowed (liftM (Program.ask c) >>= f) post := by
  have hrun : (liftM (Program.ask c) >>= f).run = Program.ask c >>= fun a => (f a).run :=
    ExceptT.run_bind_lift _ f
  unfold Shows
  rw [hrun]
  exact ⟨by simp, h⟩

/-- A program that returns the value or the error itself. -/
theorem lift_bind {p : Program C A α} {f : α → ExceptT ε (Program C A) β}
    {middle : Option α → List (Event C A) → Prop} {post : β → List (Event C A) → Prop}
    (h : Leaves allowed p middle)
    (rest : ∀ a events, middle (some a) events →
      Shows allowed (f a) fun b later => post b (events ++ later)) :
    Shows allowed (liftM p >>= f) post := by
  have hrun : (liftM p >>= f).run = p >>= fun a => (f a).run := ExceptT.run_bind_lift p f
  unfold Shows
  rw [hrun]
  exact Leaves.bind h (fun _ _ => by simp) rest

theorem ofExcept {r : Except ε α} (h : ∀ a, r = .ok a → ok a []) :
    Shows allowed (ExceptT.mk (Pure.pure r) : ExceptT ε (Program C A) α) ok :=
  ⟨by simp, fun a ha => h a (Option.some.inj ha)⟩

end Shows

/-- The traces that make the calls of a script, all but the last with a good answer. -/
inductive Follows (good : (c : C) → A c → Prop) : List C → List (Event C A) → Prop where
  | cut (script : List C) : Follows good script []
  | next {c : C} {answer : A c} {script : List C} {events : List (Event C A)}
      (h : good c answer) (rest : Follows good script events) :
      Follows good (c :: script) (⟨c, answer⟩ :: events)
  | stopped {c : C} {answer : A c} {script : List C} (h : ¬ good c answer) :
      Follows good (c :: script) [⟨c, answer⟩]

/-- The first event is the first call of the script. -/
theorem Follows.call_of_head? {good : (c : C) → A c → Prop} {c : C} {script : List C}
    {events : List (Event C A)} {first : Event C A} (h : Follows good (c :: script) events)
    (hfirst : events.head? = some first) : first.call = c := by
  cases h with
  | cut => simp at hfirst
  | stopped _ =>
      obtain rfl := Option.some.inj hfirst
      rfl
  | next _ _ =>
      obtain rfl := Option.some.inj hfirst
      rfl

end Interaction
