import DarkReNamer.Workbench.Staging

/-!
# Refused reservations

A staging computation gives up at the first reservation that is refused. `Allocates granted
refused p` says both halves of this: with every reservation granted `p` returns a value in
`granted`, and as soon as one is refused nothing but a value in `refused` can come of it.
-/

namespace DarkReNamer

open Interaction

variable {α β ε : Type}

def Allocates (granted refused : α → Prop) : Program Reservation Granted α → Prop
  | .pure a => granted a
  | .request _ next =>
      Allocates granted refused (next true) ∧ Confined (fun _ => True) refused (next false)

/-- The same for a computation that fails with `failed` when a reservation is refused. -/
abbrev AllocatesOr (failed : ε) (granted : Except ε α → Prop) (p : Staging ε α) : Prop :=
  Allocates granted (fun r => r = .error failed) p.run

namespace Allocates

variable {granted granted' refused : α → Prop} {p : Program Reservation Granted α}

theorem bind {granted' refused' : β → Prop} {f : α → Program Reservation Granted β}
    (h : Allocates granted refused p)
    (hgranted : ∀ a, granted a → Allocates granted' refused' (f a))
    (hrefused : ∀ a, refused a → Confined (fun _ => True) refused' (f a)) :
    Allocates granted' refused' (p >>= f) := by
  induction p with
  | pure a => exact hgranted a h
  | request c next ih => exact ⟨ih true h.1, Confined.bind h.2 hrefused⟩

theorem mono (h : Allocates granted refused p) (weaker : ∀ a, granted a → granted' a) :
    Allocates granted' refused p := by
  induction p with
  | pure a => exact weaker a h
  | request c next ih => exact ⟨ih true h.1, h.2⟩

theorem mono_refused {refused' : α → Prop} (h : Allocates granted refused p)
    (weaker : ∀ a, refused a → refused' a) : Allocates granted refused' p := by
  induction p with
  | pure a => exact h
  | request c next ih => exact ⟨ih true h.1, h.2.mono weaker⟩

/-- Whatever is granted. -/
theorem confined (h : Allocates granted refused p) :
    Confined (fun _ => True) (fun a => granted a ∨ refused a) p := by
  induction p with
  | pure a => exact .inl h
  | request c next ih =>
      refine ⟨trivial, fun answer => ?_⟩
      cases answer with
      | true => exact ih true h.1
      | false => exact h.2.mono fun _ => .inr

/-- With everything granted. -/
theorem run (h : Allocates granted refused p) :
    granted (p.run (fun _ _ => (true, ())) ()).1 := by
  induction p with
  | pure a => exact h
  | request c next ih => exact ih true h.1

end Allocates

namespace AllocatesOr

variable {failed : ε} {post : Except ε β → Prop}

theorem ofExcept {granted : Except ε α → Prop} {r : Except ε α} (h : granted r) :
    AllocatesOr failed granted (liftM r : Staging ε α) := h

theorem pure {granted : Except ε α → Prop} {a : α} (h : granted (.ok a)) :
    AllocatesOr failed granted (Pure.pure a : Staging ε α) := h

theorem reserving (reservation : Reservation) :
    AllocatesOr failed (· = .ok ()) (DarkReNamer.reserving failed reservation) := ⟨rfl, rfl⟩

theorem bind {g : Except ε α → Prop} {p : Staging ε α} {f : α → Staging ε β}
    (h : AllocatesOr failed g p)
    (hok : ∀ a, g (.ok a) → AllocatesOr failed post (f a))
    (herror : ∀ e, g (.error e) → post (.error e)) : AllocatesOr failed post (p >>= f) := by
  unfold AllocatesOr at *
  rw [ExceptT.run_bind]
  refine Allocates.bind h (fun r hr => ?_) ?_
  · cases r with
    | ok a => exact hok a hr
    | error e => exact herror e hr
  · rintro r rfl
    exact rfl

/-- After a reservation. -/
theorem reserving_bind {reservation : Reservation} {f : Unit → Staging ε β}
    (h : AllocatesOr failed post (f ())) :
    AllocatesOr failed post (DarkReNamer.reserving failed reservation >>= f) :=
  bind (reserving reservation) (fun _ _ => h) (by rintro e ⟨⟩)

/-- A computation whose value is known, in front of another. -/
theorem bind_ok {p : Staging ε α} {f : α → Staging ε β} {q : α → Prop}
    (h : AllocatesOr failed (fun r => ∃ a, r = .ok a ∧ q a) p)
    (hok : ∀ a, q a → AllocatesOr failed post (f a)) : AllocatesOr failed post (p >>= f) := by
  refine bind h ?_ ?_
  · rintro a ⟨b, hb, h⟩
    cases hb
    exact hok _ h
  · rintro e ⟨b, hb, -⟩
    cases hb

end AllocatesOr

end DarkReNamer
