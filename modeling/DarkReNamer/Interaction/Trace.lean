import DarkReNamer.Interaction.Monitor

/-!
# Runs and their traces

A run is a trace that its program follows and its environment admits. The two sides come apart
again: a program follows the trace of a run wherever else the trace is admitted, and before each
call of a run there is the run that was cut there, which may go on with any other answer.
-/

namespace Interaction

variable {σ τ C : Type} {A : C → Type} {α : Type} {env : Environment σ C A}
  {p : Program C A α} {s t : σ} {trace front back : List (Event C A)} {r : Option α}

/-- The environment that gives only the answers of a trace. -/
def Environment.within (env : Environment σ C A) (trace : List (Event C A)) :
    Environment σ C A :=
  fun s c a t => env s c a t ∧ ⟨c, a⟩ ∈ trace

namespace Runs

/-- The answers of a run are all that it depends on. -/
theorem within {all : List (Event C A)} (run : Runs env p s trace r t)
    (hall : ∀ event ∈ trace, event ∈ all) : Runs (env.within all) p s trace r t := by
  induction run with
  | done a s => exact .done a s
  | crash p s => exact .crash p s
  | call step _ ih =>
      obtain ⟨hevent, hrest⟩ := List.forall_mem_cons.1 hall
      exact .call ⟨step, hevent⟩ (ih hrest)

/-- A map of states takes the runs along which an invariant is kept to runs. -/
theorem map {env' : Environment τ C A} {I : σ → Prop} (f : σ → τ)
    (step : ∀ s c a t, I s → env s c a t → I t ∧ env' (f s) c a (f t)) (hs : I s)
    (run : Runs env p s trace r t) : I t ∧ Runs env' p (f s) trace r (f t) := by
  induction run with
  | done a s => exact ⟨hs, .done a (f s)⟩
  | crash p s => exact ⟨hs, .crash p (f s)⟩
  | call hstep _ ih =>
      obtain ⟨ht, hstep'⟩ := step _ _ _ _ hs hstep
      obtain ⟨hu, hrest⟩ := ih ht
      exact ⟨hu, .call hstep' hrest⟩

theorem admitted (run : Runs env p s trace r t) : Admitted env s trace t := by
  induction run with
  | done a s => exact .nil s
  | crash p s => exact .nil s
  | call hstep _ ih => exact .cons hstep ih

/-- A program follows the trace of a run wherever else it is admitted. -/
theorem of_admitted {env' : Environment τ C A} {s' t' : τ} (run : Runs env p s trace r t)
    (h : Admitted env' s' trace t') : Runs env' p s' trace r t' := by
  induction run generalizing s' with
  | done a s =>
      cases h
      exact .done a t'
  | crash p s =>
      cases h
      exact .crash p t'
  | call _ _ ih =>
      obtain ⟨u, hmove, hrest⟩ := Admitted.cons_iff.1 h
      exact .call hmove (ih hrest)

theorem bind {β : Type} {f : α → Program C A β} {a : α} {r : Option β} {u : σ}
    {later : List (Event C A)} (run : Runs env p s trace (some a) t)
    (rest : Runs env (f a) t later r u) : Runs env (p >>= f) s (trace ++ later) r u := by
  generalize hr : some a = result at run
  induction run with
  | done b s =>
      cases hr
      exact rest
  | crash p s => cases hr
  | call hstep _ ih => exact .call hstep (ih rest hr)

theorem map_value {β : Type} {f : α → β} {a : α} (run : Runs env p s trace (some a) t) :
    Runs env (f <$> p) s trace (some (f a)) t := by
  rw [map_eq_pure_bind]
  have hbind := run.bind (f := fun a => Program.pure (f a)) (.done (f a) t)
  rwa [List.append_nil] at hbind

theorem eq_of_pure {a b : α} (run : Runs env (.pure a) s trace (some b) t) : b = a ∧ t = s := by
  cases run
  exact ⟨rfl, rfl⟩

/-- Before each call there is the run that was cut there. -/
theorem exists_call {c : C} {a : A c} (run : Runs env p s (front ++ ⟨c, a⟩ :: back) r t) :
    ∃ u v, Runs env p s front none u ∧ env u c a v := by
  induction front generalizing p s with
  | nil =>
      cases run with
      | call step _ => exact ⟨s, _, .crash _ s, step⟩
  | cons event front ih =>
      cases run with
      | call step rest =>
          obtain ⟨u, v, hcut, hcall⟩ := ih rest
          exact ⟨u, v, .call step hcut, hcall⟩

/-- The call may as well get any other answer. -/
theorem reanswer {env' : Environment τ C A} {s' u v : τ} {c : C} {a a' : A c}
    (run : Runs env p s (front ++ ⟨c, a⟩ :: back) r t) (h : Admitted env' s' front u)
    (step : env' u c a' v) : Runs env' p s' (front ++ [⟨c, a'⟩]) none v := by
  induction front generalizing p s s' with
  | nil =>
      cases h
      cases run with
      | call _ _ => exact .call step (.crash _ v)
  | cons event front ih =>
      obtain ⟨w, hmove, hrest⟩ := Admitted.cons_iff.1 h
      cases run with
      | call _ rest => exact .call hmove (ih rest hrest)

end Runs

end Interaction
