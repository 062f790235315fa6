import DarkReNamer.Core.ListItem
import DarkReNamer.Core.MachineInteger
import DarkReNamer.Core.Results
import DarkReNamer.Core.WindowsLeafName
import DarkReNamer.Interaction.Confined

/-!
# Staging a change of the list

Every fallible command of the list workbench computes its whole result before it touches a
row (`darknamer-core`). What is computed on the way may be refused: by a budget, by checked
arithmetic, or by the allocator, which may turn down any reservation and is asked each time.
-/

namespace DarkReNamer

open Interaction

/-- Maximum UTF-16 length retained for one proposed Windows leaf name. -/
def maxProposedNameUtf16Units : ℕ := maxWindowsLeafNameUtf16Units

/-- Aggregate UTF-16 units retained for all proposed names in one model. -/
def maxTotalProposedNameUtf16Units : ℕ := 2 * 1024 * 1024

/-- Maximum UTF-16 length retained for one proposed destination parent. -/
def maxDestinationParentUtf16Units : ℕ := 32767

/-- Aggregate UTF-16 units retained by distinct destination-parent proposals. -/
def maxTotalDestinationParentUtf16Units : ℕ := 2 * 1024 * 1024

/-- Aggregate UTF-16 units represented by every planned destination path. -/
def maxTotalPlannedPathUtf16Units : ℕ := 2 * 1024 * 1024

/-- Invalid dialog values rejected by the original command handler. -/
inductive LegacyInputError where
  | nonPositiveWidth
  | reversedPositionRange
  | emptyDelimiter
  deriving DecidableEq, Repr

/-- A proposal mutation rejected before any model row was changed. -/
inductive ProposalMutationError where
  | invalidInput (error : LegacyInputError)
  | nameBudgetExceeded (row requestedUnits maximumUnits : ℕ)
  | aggregateBudgetExceeded (requestedUnits maximumUnits : ℕ)
  | plannedPathAggregateBudgetExceeded (requestedUnits maximumUnits : ℕ)
  | arithmeticOverflow
  | allocationFailed
  deriving DecidableEq, Repr

/-- A destination-parent proposal rejected before any model row was changed. -/
inductive DestinationParentMutationError where
  | parentBudgetExceeded (requestedUnits maximumUnits : ℕ)
  | aggregateBudgetExceeded (requestedUnits maximumUnits : ℕ)
  | plannedPathAggregateBudgetExceeded (requestedUnits maximumUnits : ℕ)
  | arithmeticOverflow
  | allocationFailed
  deriving DecidableEq, Repr

/-- A request for room for `additional` more elements, granted or not. -/
inductive Reservation where
  | tryReserve (additional : ℕ)
  | tryReserveExact (additional : ℕ)

abbrev Granted (_ : Reservation) : Type := Bool

/-- A computation that asks the allocator and may be refused. -/
abbrev Staging (ε α : Type) : Type := ExceptT ε (Program Reservation Granted) α

def reserving {ε : Type} (failed : ε) (reservation : Reservation) : Staging ε Unit := do
  let granted ← liftM (Program.ask reservation (A := Granted))
  if granted then pure () else throw failed

def validateProposalUnits (row requestedUnits : ℕ) : Except ProposalMutationError Unit :=
  if requestedUnits > maxProposedNameUtf16Units then
    .error (.nameBudgetExceeded row requestedUnits maxProposedNameUtf16Units)
  else
    .ok ()

/-- Builds a proposal of `requestedUnits` units; `units` is what `fill` writes. -/
def tryBuildProposal (row requestedUnits : ℕ) (units : List UInt16) :
    Staging ProposalMutationError LegacyText := do
  validateProposalUnits row requestedUnits
  reserving .allocationFailed (.tryReserveExact requestedUnits)
  return ⟨units⟩

def checkedSum (parts : List ℕ) : Except ProposalMutationError ℕ :=
  parts.foldlM (fun total part => okOr .arithmeticOverflow (checkedAdd usizeMax total part)) 0

def tryCloneText (text : LegacyText) : Staging ProposalMutationError LegacyText := do
  reserving .allocationFailed (.tryReserveExact text.len)
  return text

def validateDestinationParentUnits (requestedUnits : ℕ) :
    Except DestinationParentMutationError Unit :=
  if requestedUnits > maxDestinationParentUtf16Units then
    .error (.parentBudgetExceeded requestedUnits maxDestinationParentUtf16Units)
  else
    .ok ()

def tryCloneDestinationParentUnits (units : List UInt16) :
    Staging DestinationParentMutationError LegacyText := do
  reserving .allocationFailed (.tryReserveExact units.length)
  return ⟨units⟩

def tryCloneDestinationParent (text : LegacyText) :
    Staging DestinationParentMutationError LegacyText :=
  tryCloneDestinationParentUnits text.units

/-- The length of a planned path, unless it does not fit a `usize`. -/
def checkedPlannedPathUnits (parent : List UInt16) (proposedNameUnits : ℕ) : Option ℕ := do
  let units ← checkedAdd usizeMax parent.length (destinationSeparatorUnits parent)
  checkedAdd usizeMax units proposedNameUnits

/-- The length of the path that puts a name of the given length below a parent. -/
def plannedPathUnits (parent : List UInt16) (proposedNameUnits : ℕ) : ℕ :=
  parent.length + destinationSeparatorUnits parent + proposedNameUnits

theorem checkedPlannedPathUnits_eq_some {parent : List UInt16} {name units : ℕ}
    (h : checkedPlannedPathUnits parent name = some units) :
    units = plannedPathUnits parent name := by
  simp only [checkedPlannedPathUnits, Option.bind_eq_bind, Option.bind_eq_some_iff,
    checkedAdd_eq_some] at h
  obtain ⟨_, ⟨-, rfl⟩, -, rfl⟩ := h
  rfl

theorem LegacyListItem.plannedPath_len (item : LegacyListItem) :
    item.plannedPath.len =
      plannedPathUnits item.destinationParent.units item.proposedName.len := by
  unfold LegacyListItem.plannedPath plannedPathUnits destinationSeparatorUnits
  split
  · simp [LegacyText.len]
    omega
  · simp [LegacyText.len]

theorem validateProposalUnits_eq_ok {row units : ℕ} :
    validateProposalUnits row units = .ok () ↔ units ≤ maxProposedNameUtf16Units := by
  unfold validateProposalUnits
  split
  · rename_i h
    simpa using h
  · rename_i h
    simpa using h

/-! ### What a staging computation can end with -/

section Rules

variable {ε α β : Type}

/-- Every value it returns is in `ok`, whatever is granted. -/
abbrev Stages (ok : α → Prop) (p : Staging ε α) : Prop := Tries (fun _ => True) ok p

theorem Stages.ofExcept {q : α → Prop} {r : Except ε α} (h : ∀ a, r = .ok a → q a) :
    Stages q (liftM r : Staging ε α) := Tries.ofExcept h

theorem Stages.okOr {q : α → Prop} {error : ε} {o : Option α} (h : ∀ a, o = some a → q a) :
    Stages q (liftM (DarkReNamer.okOr error o) : Staging ε α) :=
  Stages.ofExcept fun a ha => h a (okOr_eq_ok_iff.1 ha)

/-- What is computed behind a check that throws. -/
theorem Stages.unless {ok : α → Prop} {c : Prop} [Decidable c] {error : ε}
    {next : PUnit → Staging ε α} {p : Staging ε α} (h : ¬c → Stages ok p) :
    Stages ok (if c then throw error >>= next else p) := by
  split
  · exact Tries.bind (m := fun _ => False) (Tries.throw error) fun _ hfalse => hfalse.elim
  · rename_i hc
    exact h hc

/-- Every computation ends somehow. -/
theorem stages_any (p : Staging ε α) : Stages (fun _ => True) p := by
  have hconfined (q : Program Reservation Granted (Except ε α)) :
      Confined (fun _ => True) (fun r => ∀ a, r = .ok a → True) q := by
    induction q with
    | pure r => exact fun _ _ => trivial
    | request c next ih => exact ⟨trivial, ih⟩
  exact hconfined p.run

end Rules

end DarkReNamer
