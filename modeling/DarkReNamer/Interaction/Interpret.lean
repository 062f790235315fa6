import DarkReNamer.Interaction.Run

/-!
# Calls carried out by programs

`interpret carry p` runs `p` with every call replaced by a program over lower calls. The lower
programs refine the environment of `p` when each of them, finished or cut anywhere, has the effect
of an answer that the environment may give, or none yet. What `p` does over its own environment
its interpretation then does over the lower one, between related states.
-/

namespace Interaction

variable {σ τ C D : Type} {A : C → Type} {B : D → Type} {α : Type}

def interpret (carry : (c : C) → Program D B (A c)) : Program C A α → Program D B α
  | .pure a => .pure a
  | .request c next => carry c >>= fun answer => interpret carry (next answer)

/-- The state is that before the call, or one that some answer leads to. -/
def Reaches (env : Environment σ C A) (s : σ) (c : C) (t : σ) : Prop :=
  t = s ∨ ∃ answer, env s c answer t

/-- The programs of `carry` over `host` have the effects that `env` allows, where `R` relates the
states above to those below. -/
def Refines (host : Environment τ D B) (R : σ → τ → Prop) (carry : (c : C) → Program D B (A c))
    (env : Environment σ C A) : Prop :=
  ∀ c s t, R s t → Spec host (fun u => ∃ s', Reaches env s c s' ∧ R s' u) (carry c)
    (fun answer u => ∃ s', env s c answer s' ∧ R s' u) t

namespace Refines

variable {host : Environment τ D B} {R : σ → τ → Prop} {carry : (c : C) → Program D B (A c)}
  {env : Environment σ C A} {p : Program C A α} {s : σ} {t : τ}

/-- The states below determine those above. -/
theorem of_view {view : τ → σ}
    (h : ∀ c t, Spec host (fun u => Reaches env (view t) c (view u)) (carry c)
      (fun answer u => env (view t) c answer (view u)) t) :
    Refines host (fun s t => view t = s) carry env := by
  rintro c _ t rfl
  exact ((h c t).mono_crash fun u hu => ⟨_, hu, rfl⟩).mono fun _ _ hu => ⟨_, hu, rfl⟩

/-- The interpretation does what the program does. -/
theorem spec (h : Refines host R carry env) {crash : σ → Prop} {post : α → σ → Prop}
    (hspec : Spec env crash p post s) (hrel : R s t) :
    Spec host (fun u => ∃ s', crash s' ∧ R s' u) (interpret carry p)
      (fun a u => ∃ s', post a s' ∧ R s' u) t := by
  induction p generalizing s t with
  | pure a => exact ⟨⟨s, hspec.1, hrel⟩, s, hspec.2, hrel⟩
  | request c next ih =>
      refine (Spec.bind_iff _ _ _ _).2 (((h c s t hrel).mono_crash ?_).mono ?_)
      · rintro u ⟨s', rfl | ⟨answer, step⟩, hu⟩
        · exact ⟨s', hspec.1, hu⟩
        · exact ⟨s', (hspec.2 answer s' step).crash_of, hu⟩
      · rintro answer u ⟨s', step, hu⟩
        exact ih answer (hspec.2 answer s' step) hu

end Refines

/-- What is shown of a program is shown of it in every environment whose states show those of
this one. -/
theorem Spec.comap {env : Environment σ C A} {env' : Environment τ C A} {view : τ → σ}
    (hview : ∀ t c a u, env' t c a u → env (view t) c a (view u)) {crash : σ → Prop}
    {post : α → σ → Prop} {p : Program C A α} {t : τ} (h : Spec env crash p post (view t)) :
    Spec env' (fun t => crash (view t)) p (fun a t => post a (view t)) t := by
  induction p generalizing t with
  | pure a => exact h
  | request c next ih => exact ⟨h.1, fun a u step => ih a (h.2 a (view u) (hview t c a u step))⟩

/-- A program does what its runs do. -/
theorem Spec.runs (env : Environment σ C A) (p : Program C A α) (s : σ) :
    Spec env (fun t => ∃ trace, Runs env p s trace none t) p
      (fun a t => ∃ trace, Runs env p s trace (some a) t) s := by
  induction p generalizing s with
  | pure a => exact ⟨⟨[], .crash _ _⟩, [], .done a s⟩
  | request c next ih =>
      refine ⟨⟨[], .crash _ _⟩, fun answer t step => ((ih answer t).mono_crash ?_).mono ?_⟩
      · rintro u ⟨trace, run⟩
        exact ⟨⟨c, answer⟩ :: trace, .call step run⟩
      · rintro a u ⟨trace, run⟩
        exact ⟨⟨c, answer⟩ :: trace, .call step run⟩

/-- A run of the interpretation is one of the program, cut where it was cut. -/
theorem Refines.simulates {host : Environment τ D B} {R : σ → τ → Prop}
    {carry : (c : C) → Program D B (A c)} {env : Environment σ C A} {p : Program C A α} {s : σ}
    {t u : τ} {trace : List (Event D B)} {r : Option α} (h : Refines host R carry env)
    (run : Runs host (interpret carry p) t trace r u) (hrel : R s t) :
    ∃ s' above, Runs env p s above r s' ∧ R s' u := by
  obtain ⟨hcut, hdone⟩ := (h.spec (Spec.runs env p s) hrel).sound run
  cases r with
  | none =>
      obtain ⟨s', ⟨above, hruns⟩, hu⟩ := hcut
      exact ⟨s', above, hruns, hu⟩
  | some a =>
      obtain ⟨s', ⟨above, hruns⟩, hu⟩ := hdone a rfl
      exact ⟨s', above, hruns, hu⟩

end Interaction
