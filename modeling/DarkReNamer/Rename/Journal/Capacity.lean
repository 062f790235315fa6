import DarkReNamer.Rename.Journal.Record

/-!
# Journal capacity

The limits of the journal format and the check of a manifest against them before a
transaction begins (`journal_requirements`). Sizes are natural numbers; the source
saturates them at the machine word, far above every limit.
-/

namespace DarkReNamer

/-- Maximum primitive steps stored in one intent manifest. -/
def maxJournalSteps : ℕ := 10000

/-- Maximum append-only frames in one transaction. -/
def maxJournalFrames : ℕ := maxJournalSteps * 4 + 4

/-- Maximum payload bytes in one frame. -/
def maxJournalFrameBytes : ℕ := 16 * 1024 * 1024

/-- Maximum complete journal bytes accepted or produced. -/
def maxJournalFileBytes : ℕ := 64 * 1024 * 1024

/-- Maximum UTF-16 code units in one exact journal path. -/
def maxPathUnits : ℕ := 32767

inductive JournalCapacityKind where
  | primitiveSteps
  | intentFrameBytes
  deriving DecidableEq, Repr

/-- Structured refusal of an intent that cannot fit the journal. -/
structure JournalCapacityError where
  kind : JournalCapacityKind
  required : ℕ
  maximum : ℕ
  deriving DecidableEq, Repr

/-- Exact journal resources of a manifest. -/
structure JournalRequirements where
  primitiveSteps : ℕ
  intentFrameBytes : ℕ
  deriving DecidableEq, Repr

def intentFixedBytes : ℕ := 8 + 4

def intentStepFixedBytes : ℕ := 4 + 4 + 4 + (8 + 16) * 3 + 3

/-- Payload bytes of the intent frame of a manifest. -/
def intentFrameBytes (steps : List JournalStep) : ℕ :=
  steps.foldl (fun required step => required + intentStepFixedBytes +
    step.source.units.length * 2 + step.destination.units.length * 2) intentFixedBytes

def journalRequirements (steps : List JournalStep) :
    Except JournalCapacityError JournalRequirements :=
  if steps.length > maxJournalSteps then
    .error ⟨.primitiveSteps, steps.length, maxJournalSteps⟩
  else if intentFrameBytes steps > maxJournalFrameBytes then
    .error ⟨.intentFrameBytes, intentFrameBytes steps, maxJournalFrameBytes⟩
  else
    .ok ⟨steps.length, intentFrameBytes steps⟩

end DarkReNamer
