import DarkReNamer.Interaction.Run
import DarkReNamer.Interaction.Confined
import Mathlib.Data.List.Induction

/-!
# Monitors

A monitor is an environment that says what a program may do next: it moves between stages at the
events it admits. `Obeys monitor p post q`: whatever is answered, the monitor has a move for
every event of `p` from the stage `q` on, and where `p` ends, its value and the stage satisfy
`post`. So the order of the events of a program is a fact about the lists that the monitor
admits (`Admitted`).
-/

namespace Interaction

variable {σ Q C : Type} {A : C → Type} {α β ε : Type} {monitor : Environment Q C A}

/-- The monitor moves along the events. -/
inductive Admitted (monitor : Environment Q C A) : Q → List (Event C A) → Q → Prop where
  | nil (q : Q) : Admitted monitor q [] q
  | cons {q p q' : Q} {event : Event C A} {events : List (Event C A)}
      (move : monitor q event.call event.answer p) (rest : Admitted monitor p events q') :
      Admitted monitor q (event :: events) q'

namespace Admitted

variable {q q' : Q} {events front back : List (Event C A)} {event : Event C A}

theorem append_iff : Admitted monitor q (front ++ back) q' ↔
    ∃ p, Admitted monitor q front p ∧ Admitted monitor p back q' := by
  induction front generalizing q with
  | nil => exact ⟨fun h => ⟨q, .nil q, h⟩, fun ⟨_, .nil _, h⟩ => h⟩
  | cons event front ih =>
      constructor
      · rintro (_ | ⟨move, rest⟩)
        obtain ⟨p, hfront, hback⟩ := ih.1 rest
        exact ⟨p, .cons move hfront, hback⟩
      · rintro ⟨p, _ | ⟨move, rest⟩, hback⟩
        exact .cons move (ih.2 ⟨p, rest, hback⟩)

theorem cons_iff : Admitted monitor q (event :: events) q' ↔
    ∃ p, monitor q event.call event.answer p ∧ Admitted monitor p events q' :=
  ⟨fun h => by cases h with | cons move rest => exact ⟨_, move, rest⟩,
    fun ⟨_, move, rest⟩ => .cons move rest⟩

theorem snoc_iff : Admitted monitor q (events ++ [event]) q' ↔
    ∃ p, Admitted monitor q events p ∧ monitor p event.call event.answer q' := by
  rw [append_iff]
  refine exists_congr fun p => and_congr_right fun _ => ?_
  rw [cons_iff]
  exact ⟨fun ⟨_, move, .nil _⟩ => move, fun move => ⟨q', move, .nil q'⟩⟩

/-- What every move keeps holds of the events so far and the stage they lead to. -/
theorem invariant {I : Q → List (Event C A) → Prop} (hstart : I q [])
    (hmove : ∀ p p' events event, I p events → monitor p event.call event.answer p' →
      I p' (events ++ [event])) (h : Admitted monitor q events q') : I q' events := by
  induction events using List.reverseRecOn generalizing q' with
  | nil =>
      cases h
      exact hstart
  | append_singleton events event ih =>
      obtain ⟨p, hp, hevent⟩ := snoc_iff.1 h
      exact hmove p q' events event (ih hp) hevent

end Admitted

def Obeys (monitor : Environment Q C A) : Program C A α → (α → Q → Prop) → Q → Prop
  | .pure a, post, q => post a q
  | .request c rest, post, q =>
      ∀ answer, ∃ p, monitor q c answer p ∧ Obeys monitor (rest answer) post p

namespace Obeys

variable {post post' : α → Q → Prop} {q : Q}

/-- Adequacy: the monitor admits every run, cut or finished. -/
theorem sound {env : Environment σ C A} {p : Program C A α} {s t : σ}
    {trace : List (Event C A)} {r : Option α} (h : Obeys monitor p post q)
    (run : Runs env p s trace r t) :
    ∃ q', Admitted monitor q trace q' ∧ ∀ a, r = some a → post a q' := by
  induction run generalizing q with
  | done a s =>
      refine ⟨q, .nil q, ?_⟩
      rintro b ⟨⟩
      exact h
  | crash p s => exact ⟨q, .nil q, by simp⟩
  | call step _ ih =>
      obtain ⟨p, hmove, hrest⟩ := h _
      obtain ⟨q', hq', hpost⟩ := ih hrest
      exact ⟨q', .cons hmove hq', hpost⟩

theorem pure {a : α} (h : post a q) : Obeys monitor (Pure.pure a) post q := h

theorem mono {p : Program C A α} (h : Obeys monitor p post q)
    (weaker : ∀ a q', post a q' → post' a q') : Obeys monitor p post' q := by
  induction p generalizing q with
  | pure a => exact weaker a q h
  | request c rest ih =>
      intro answer
      obtain ⟨p, hmove, hrest⟩ := h answer
      exact ⟨p, hmove, ih answer hrest⟩

theorem bind {p : Program C A α} {f : α → Program C A β} {post : β → Q → Prop}
    {middle : α → Q → Prop} (h : Obeys monitor p middle q)
    (rest : ∀ a q', middle a q' → Obeys monitor (f a) post q') :
    Obeys monitor (p >>= f) post q := by
  induction p generalizing q with
  | pure a => exact rest a q h
  | request c next ih =>
      intro answer
      obtain ⟨p, hmove, hnext⟩ := h answer
      exact ⟨p, hmove, ih answer hnext⟩

/-- Sequencing in the error monad: an error ends the program. -/
theorem except_bind {p : ExceptT ε (Program C A) α} {f : α → ExceptT ε (Program C A) β}
    {post : Except ε β → Q → Prop} {middle : Except ε α → Q → Prop}
    (h : Obeys monitor p.run middle q)
    (hok : ∀ a q', middle (.ok a) q' → Obeys monitor (f a).run post q')
    (herror : ∀ e q', middle (.error e) q' → post (.error e) q') :
    Obeys monitor (p >>= f).run post q := by
  rw [ExceptT.run_bind]
  refine h.bind fun r q' hr => ?_
  cases r with
  | ok a => exact hok a q' hr
  | error e => exact herror e q' hr

/-- A call inside the error monad. -/
theorem except_call {c : C} {f : A c → ExceptT ε (Program C A) β}
    {post : Except ε β → Q → Prop}
    (h : ∀ answer, ∃ p, monitor q c answer p ∧ Obeys monitor (f answer).run post p) :
    Obeys monitor (liftM (Program.ask c) >>= f).run post q := by
  have hrun : (liftM (Program.ask c) >>= f).run = Program.ask c >>= fun a => (f a).run :=
    ExceptT.run_bind_lift _ f
  rw [hrun]
  exact h

/-- A program without errors in the error monad. -/
theorem except_lift {p : Program C A α} {post : Except ε α → Q → Prop}
    (h : Obeys monitor p (fun a => post (.ok a)) q) :
    Obeys monitor (liftM p : ExceptT ε (Program C A) α).run post q := by
  have hrun : (liftM p : ExceptT ε (Program C A) α).run =
      p >>= fun a => Pure.pure (.ok a) := by
    rw [← map_eq_pure_bind]
    rfl
  rw [hrun]
  exact h.bind fun a q' ha => ha

/-- Calls that leave a stage alone. -/
theorem of_confined {allowed : C → Prop} {ok : α → Prop} {p : Program C A α}
    (h : Confined allowed ok p) (hstay : ∀ c answer, allowed c → monitor q c answer q) :
    Obeys monitor p (fun a q' => q' = q ∧ ok a) q := by
  induction p with
  | pure a => exact ⟨rfl, h⟩
  | request c rest ih =>
      exact fun answer => ⟨q, hstay c answer h.1, ih answer (h.2 answer)⟩

end Obeys

end Interaction
