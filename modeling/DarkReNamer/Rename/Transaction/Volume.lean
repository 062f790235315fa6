import DarkReNamer.Rename.Transaction
import DarkReNamer.Rename.Volume

/-!
# Journalled moves over a volume

A manifest whose moves can be executed from an occupancy carries the occupancy after
each number of steps: a rename that succeeds goes from one to the next, a reverse
rename goes back.
-/

namespace DarkReNamer

open Interaction Occupancy

namespace Volume

variable (V : Volume)

/-- The move of a journalled step, by entry keys. -/
def journalMove (step : JournalStep) : KeyMove :=
  V.operationMove (Recovery.forwardOperation step)

/-- The occupancy after the first `k` steps of a manifest. -/
def occupancyAfter (o : VolumeState) (steps : List JournalStep) (k : ℕ) : VolumeState :=
  afterMoves o ((steps.map V.journalMove).take k)

variable {V} {o b b' : VolumeState} {steps : List JournalStep}

@[simp] theorem occupancyAfter_zero : V.occupancyAfter o steps 0 = o := rfl

theorem operationMove_reverseOperation (step : JournalStep) :
    V.operationMove (Recovery.reverseOperation step) = (V.journalMove step).reverse := by
  simp only [journalMove, operationMove, Move.reverse, Recovery.reverseOperation,
    Recovery.forwardOperation, Recovery.operation]
  cases step.kind <;> rfl

/-- A rename takes its move or leaves the occupancy alone, and an error with certainty
leaves it alone. -/
theorem moved_of_rename {op : RenameOperation} {answer : Except BackendError Unit}
    (h : V.backendRel b (.renameNoReplace op) answer b') :
    Moved (fun o => o = b) (fun o => o = (V.operationMove op).apply b) answer b' := by
  cases answer with
  | ok value => exact h.2
  | error error =>
      rcases h with hsame | ⟨hmay, -, hmoved⟩
      · exact .inl hsame
      · exact .inr ⟨hmay, hmoved⟩

/-- An executable manifest carries the occupancy after its steps. -/
theorem carries (h : Executable o (steps.map V.journalMove)) :
    Carries V.backendRel (fun k b => b = V.occupancyAfter o steps k) steps where
  read hread hrel hb := by
    rw [eq_of_read hrel hread, hb]
  forward {i step b answer b'} hstep hb hrel := by
    have hmove : (steps.map V.journalMove)[i]? = some (V.journalMove step) := by
      rw [List.getElem?_map, hstep]
      rfl
    have hmoved := moved_of_rename hrel
    subst hb
    rwa [occupancyAfter, show V.operationMove (Recovery.forwardOperation step) =
      V.journalMove step from rfl, ← afterMoves_take_succ hmove] at hmoved
  reverse {i step b answer b'} hstep hb hrel := by
    have hmove : (steps.map V.journalMove)[i]? = some (V.journalMove step) := by
      rw [List.getElem?_map, hstep]
      rfl
    have hmoved := moved_of_rename hrel
    subst hb
    rwa [occupancyAfter, operationMove_reverseOperation, h.reverse_apply hmove] at hmoved

end Volume

end DarkReNamer
