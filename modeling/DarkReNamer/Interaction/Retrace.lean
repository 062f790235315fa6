import DarkReNamer.Interaction.Confined
import DarkReNamer.Interaction.Interpret
import Mathlib.Data.Set.Basic

/-!
# Calls carried out with a memory

`interpretWith carry p` runs `p` with every call carried out by a program over lower calls, which
may keep a memory from one call to the next. The memory is lost when the run is cut, and then a
state below may stand for several states above: `view` is the set of those that can be found in it.

The programs of `carry` retrace an environment when each state found after a call, finished or cut,
is one that the call leads to from a state found before it. The state above is so chosen only when
it is looked at, and a program does below what it does above from all the states that it may have
started in.
-/

namespace Interaction

variable {σ τ M C D : Type} {A : C → Type} {B : D → Type} {α : Type}

def interpretWith (carry : M → (c : C) → Program D B (A c × M)) :
    Program C A α → M → Program D B (α × M)
  | .pure a, m => .pure (a, m)
  | .request c next, m => carry m c >>= fun r => interpretWith carry (next r.1) r.2

/-- The states found in `u` are those that the call may have led to, where some state above
that is found before the call has only good successors. -/
structure Retraces (host : Environment τ D B) (inv : M → τ → Prop) (view : τ → Set σ)
    (good : σ → Prop) (carry : M → (c : C) → Program D B (A c × M)) (env : Environment σ C A) :
    Prop where
  call : ∀ c m t, inv m t → (∀ s ∈ view t, ∀ s', Reaches env s c s' → good s') →
    Spec host (fun u => ∀ s' ∈ view u, ∃ s ∈ view t, Reaches env s c s') (carry m c)
      (fun r u => inv r.2 u ∧ ∀ s' ∈ view u, ∃ s ∈ view t, env s c r.1 s') t

namespace Retraces

variable {host : Environment τ D B} {inv : M → τ → Prop} {view : τ → Set σ} {good : σ → Prop}
  {carry : M → (c : C) → Program D B (A c × M)} {env : Environment σ C A} {p : Program C A α}
  {m : M} {t : τ}

/-- A program does below what it does above, when it only meets good states. -/
theorem spec (h : Retraces host inv view good carry env) {crash : σ → Prop} {post : α → σ → Prop}
    (hgood : ∀ s, crash s → good s) (hinv : inv m t)
    (hspec : ∀ s ∈ view t, Spec env crash p post s) :
    Spec host (fun u => ∀ s ∈ view u, crash s) (interpretWith carry p m)
      (fun r u => inv r.2 u ∧ ∀ s ∈ view u, post r.1 s) t := by
  induction p generalizing m t with
  | pure a => exact ⟨fun s hs => (hspec s hs).1, hinv, fun s hs => (hspec s hs).2⟩
  | request c next ih =>
      have hreaches : ∀ s ∈ view t, ∀ s', Reaches env s c s' → crash s' := by
        rintro s hs s' (rfl | ⟨answer, step⟩)
        · exact (hspec s' hs).1
        · exact ((hspec s hs).2 answer s' step).crash_of
      have hcall := h.call c m t hinv fun s hs s' hs' => hgood s' (hreaches s hs s' hs')
      refine (Spec.bind_iff _ _ _ _).2 ((hcall.mono_crash ?_).mono ?_)
      · intro u hu s' hs'
        obtain ⟨s, hs, hreach⟩ := hu s' hs'
        exact hreaches s hs s' hreach
      · rintro ⟨answer, m'⟩ u ⟨hinv', hu⟩
        refine ih answer hinv' fun s' hs' => ?_
        obtain ⟨s, hs, step⟩ := hu s' hs'
        exact (hspec s hs).2 answer s' step

/-- What is found below is what runs above left that started in a state found before. -/
theorem spec_runs (h : Retraces host inv view good carry env) (hinv : inv m t)
    (hspec : ∀ s ∈ view t, Spec env good p (fun _ _ => True) s) :
    Spec host (fun u => ∀ s' ∈ view u, ∃ s ∈ view t, ∃ above, Runs env p s above none s')
      (interpretWith carry p m)
      (fun r u => inv r.2 u ∧
        ∀ s' ∈ view u, ∃ s ∈ view t, ∃ above, Runs env p s above (some r.1) s') t := by
  have hruns : ∀ s ∈ view t, Spec env
      (fun s' => (∃ s ∈ view t, ∃ above, Runs env p s above none s') ∧ good s') p
      (fun a s' => (∃ s ∈ view t, ∃ above, Runs env p s above (some a) s') ∧ True) s :=
    fun s hs => (((Spec.runs env p s).mono_crash fun s' hs' => ⟨s, hs, hs'⟩).mono
      fun a s' hs' => ⟨s, hs, hs'⟩).both (hspec s hs)
  refine ((h.spec (fun s hs => hs.2) hinv hruns).mono_crash fun u hu s' hs' => (hu s' hs').1).mono
    fun r u hu => ⟨hu.1, fun s' hs' => (hu.2 s' hs').1⟩

/-- What is found after a run below, finished or cut, is what a run above left that started in
a state found before. -/
theorem simulates (h : Retraces host inv view good carry env) (hinv : inv m t)
    (hspec : ∀ s ∈ view t, Spec env good p (fun _ _ => True) s) {trace : List (Event D B)}
    {r : Option (α × M)} {u : τ} (run : Runs host (interpretWith carry p m) t trace r u) :
    ∀ s' ∈ view u, ∃ s ∈ view t, ∃ above, Runs env p s above (r.map Prod.fst) s' := by
  obtain ⟨hcut, hdone⟩ := (h.spec_runs hinv hspec).sound run
  cases r with
  | none => exact hcut
  | some r => exact (hdone r rfl).2

end Retraces

/-- What is carried out makes only the calls that it is carried out by. -/
theorem Confined.interpret {allowed : D → Prop} {carry : (c : C) → Program D B (A c)}
    {post : α → Prop} {calls : C → Prop} {p : Program C A α} (hp : Confined calls post p)
    (h : ∀ c, calls c → Confined allowed (fun _ => True) (carry c)) :
    Confined allowed post (interpret carry p) := by
  induction p with
  | pure a => exact hp
  | request c next ih => exact (h c hp.1).bind fun answer _ => ih answer (hp.2 answer)

theorem Confined.interpretWith {allowed : D → Prop} {keeps : M → Prop}
    {carry : M → (c : C) → Program D B (A c × M)} {p : Program C A α} {m : M} (hm : keeps m)
    (h : ∀ m c, keeps m → Confined allowed (fun r => keeps r.2) (carry m c)) :
    Confined allowed (fun r => keeps r.2) (interpretWith carry p m) := by
  induction p generalizing m with
  | pure a => exact hm
  | request c next ih => exact (h m c hm).bind fun r hr => ih r.1 hr

end Interaction
