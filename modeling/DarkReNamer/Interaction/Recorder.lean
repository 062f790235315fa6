import DarkReNamer.Interaction.Monitor

/-!
# Values and the events before them

The recorder is the monitor that admits every event and keeps it. `Records ok p log`: whatever is
answered, a value of `p` satisfies `ok` together with the events from `log` on.
-/

namespace Interaction

variable {σ C : Type} {A : C → Type} {α β ε : Type}

def recorder : Environment (List (Event C A)) C A := fun log c a log' => log' = log ++ [⟨c, a⟩]

theorem eq_of_admitted_recorder {log events log' : List (Event C A)}
    (h : Admitted recorder log events log') : log' = log ++ events := by
  induction h with
  | nil => exact (List.append_nil _).symm
  | cons move _ ih =>
      rw [ih, show _ = _ from move, List.append_assoc]
      rfl

def Records (ok : α → List (Event C A) → Prop) (p : ExceptT ε (Program C A) α)
    (log : List (Event C A)) : Prop :=
  Obeys recorder p.run (fun r log' => ∀ a, r = .ok a → ok a log') log

namespace Records

variable {ok ok' : α → List (Event C A) → Prop} {p : ExceptT ε (Program C A) α}
  {log : List (Event C A)}

/-- What a program records holds of the value and the events of each of its runs. -/
theorem sound {env : Environment σ C A} {s t : σ} {trace : List (Event C A)} {a : α}
    (h : Records ok p []) (run : Runs env p.run s trace (some (.ok a)) t) : ok a trace := by
  obtain ⟨log', hadmitted, hok⟩ := Obeys.sound h run
  obtain rfl : log' = trace := eq_of_admitted_recorder hadmitted
  exact hok _ rfl a rfl

theorem pure {a : α} (h : ok a log) :
    Records ok (Pure.pure a : ExceptT ε (Program C A) α) log := by
  rintro b ⟨⟩
  exact h

theorem throw (e : ε) :
    Records ok (MonadExcept.throw e : ExceptT ε (Program C A) α) log := by
  rintro b ⟨⟩

theorem ofExcept {r : Except ε α} (h : ∀ a, r = .ok a → ok a log) :
    Records ok (ExceptT.mk (Pure.pure r) : ExceptT ε (Program C A) α) log := h

theorem mono (h : Records ok p log) (weaker : ∀ a log', ok a log' → ok' a log') :
    Records ok' p log :=
  Obeys.mono h fun _ log' hr a ha => weaker a log' (hr a ha)

theorem bind {f : α → ExceptT ε (Program C A) β} {post : β → List (Event C A) → Prop}
    (h : Records ok p log) (rest : ∀ a log', ok a log' → Records post (f a) log') :
    Records post (p >>= f) log := by
  refine Obeys.except_bind h (fun a log' ha => rest a log' (ha a rfl)) ?_
  rintro e log' - b ⟨⟩

/-- A call, after which its answer is recorded. -/
theorem call {c : C} {f : A c → ExceptT ε (Program C A) β} {post : β → List (Event C A) → Prop}
    (h : ∀ answer, Records post (f answer) (log ++ [⟨c, answer⟩])) :
    Records post (liftM (Program.ask c) >>= f) log :=
  Obeys.except_call fun answer => ⟨_, rfl, h answer⟩

theorem of_tries {allowed : C → Prop} {good : α → Prop} (h : Tries allowed good p) :
    Records (fun a _ => good a) p log := by
  obtain ⟨p, rfl⟩ : ∃ program, p = ExceptT.mk program := ⟨p.run, rfl⟩
  induction p generalizing log with
  | pure r => exact h
  | request c next ih => exact fun answer => ⟨_, rfl, ih answer (h.2 answer)⟩

/-- The events before stay recorded. -/
theorem prefixed (h : Records ok p log) :
    Records (fun a log' => ok a log' ∧ log <+: log') p log := by
  suffices hprefix : ∀ log', log <+: log' → Records ok p log' →
      Records (fun a log' => ok a log' ∧ log <+: log') p log' from
    hprefix log (List.prefix_refl log) h
  clear h
  intro log' hlog h
  obtain ⟨p, rfl⟩ : ∃ program, p = ExceptT.mk program := ⟨p.run, rfl⟩
  induction p generalizing log' with
  | pure r => exact fun a ha => ⟨h a ha, hlog⟩
  | request c next ih =>
      intro answer
      obtain ⟨_, rfl, hnext⟩ := h answer
      exact ⟨_, rfl, ih answer _ (hlog.trans (List.prefix_append _ _)) hnext⟩

end Records

/-- Programs that continue alike at every value of the first part are the same. -/
theorem Tries.bind_congr {allowed : C → Prop} {good : α → Prop}
    {p : ExceptT ε (Program C A) α} {f g : α → ExceptT ε (Program C A) β}
    (h : Tries allowed good p) (hfg : ∀ a, good a → f a = g a) : p >>= f = p >>= g := by
  suffices hprogram : ∀ program : Program C A (Except ε α),
      Confined allowed (fun r => ∀ a, r = .ok a → good a) program →
        (program >>= ExceptT.bindCont f) = program >>= ExceptT.bindCont g from hprogram p.run h
  intro program h
  induction program with
  | pure r =>
      cases r with
      | ok a => exact hfg a (h a rfl)
      | error e => rfl
  | request c next ih =>
      rw [Program.request_bind, Program.request_bind]
      congr 1
      funext answer
      exact ih answer (h.2 answer)

end Interaction
