import DarkReNamer.Rename.Journal.Codec.Frame
import Mathlib.Algebra.BigOperators.Group.List.Basic
import Mathlib.Algebra.Ring.Nat

/-!
# The capacity preflight

The preflight counts the bytes of an intent before a transaction begins, the encoder writes
them. The count is exact, but the encoder also limits every single path, which the preflight
does not look at. So the two agree unless a manifest fits as a whole and one of its paths does
not.
-/

namespace DarkReNamer

open Bytes

/-- No path of the steps is over the limit of one path. -/
def PathsFit (steps : List JournalStep) : Prop :=
  ∀ step ∈ steps, step.source.len ≤ maxPathUnits ∧ step.destination.len ≤ maxPathUnits

/-- More steps, or more bytes in all, than an intent may have. -/
def Oversized (steps : List JournalStep) : Prop :=
  maxJournalSteps < steps.length ∨ maxJournalFrameBytes < intentFixedBytes +
    (steps.map fun step =>
      intentStepFixedBytes + 2 * (step.source.len + step.destination.len)).sum

/-- The preflight accepts what the encoder does, and counts its bytes. -/
structure PreflightAgrees (plan : PlanId) (steps : List JournalStep) (sequence frame : ℕ) :
    Prop where
  accepts : (∃ bytes, encodeFrame sequence (.intent plan steps) frame = .ok bytes) ↔
    ∃ requirements, journalRequirements steps = .ok requirements
  counts : ∀ kind payload, encodeRecord (.intent plan steps) frame = .ok (kind, payload) →
    ∃ requirements, journalRequirements steps = .ok requirements ∧
      payload.length = requirements.intentFrameBytes

section Requirements

variable {plan : PlanId} {steps : List JournalStep} {sequence frame : ℕ}

theorem intentFrameBytes_eq_sum (steps : List JournalStep) : intentFrameBytes steps =
    intentFixedBytes + (steps.map fun step =>
      intentStepFixedBytes + 2 * (step.source.len + step.destination.len)).sum := by
  rw [intentFrameBytes, foldl_intentFrameBytes]
  congr 1
  induction steps with
  | nil => rfl
  | cons step steps ih =>
      rw [List.flatMap_cons, List.length_append, ih, step.length_bytes, List.map_cons,
        List.sum_cons]
      omega

theorem journalRequirements_eq_ok_iff {requirements : JournalRequirements} :
    journalRequirements steps = .ok requirements ↔
      ¬Oversized steps ∧ requirements = ⟨steps.length, intentFrameBytes steps⟩ := by
  rw [journalRequirements, Oversized, ← intentFrameBytes_eq_sum]
  split
  · rename_i hsteps
    simp [hsteps]
  · rename_i hsteps
    split
    · rename_i hbytes
      simp [hbytes]
    · rename_i hbytes
      simp [hsteps, hbytes, eq_comm]

/-- An intent that fits a frame is not refused by the preflight. -/
theorem not_oversized_of_storable (h : (JournalRecord.intent plan steps).Storable) :
    ¬Oversized steps := by
  have hlength := h.formed.1
  have hpayload := h.payload_le
  rw [Oversized, ← intentFrameBytes_eq_sum, intentFrameBytes_eq plan]
  omega

theorem storable_intent_iff (hkind : ∀ step ∈ steps, step.kind.isSome) :
    (JournalRecord.intent plan steps).Storable ↔ ¬Oversized steps ∧ PathsFit steps := by
  constructor
  · intro h
    exact ⟨not_oversized_of_storable h, fun step hstep =>
      ⟨(h.formed.2 step hstep).source, (h.formed.2 step hstep).destination⟩⟩
  · rintro ⟨hfits, hpaths⟩
    rw [Oversized, ← intentFrameBytes_eq_sum, intentFrameBytes_eq plan] at hfits
    exact ⟨⟨by omega, fun step hstep =>
      ⟨(hpaths step hstep).1, (hpaths step hstep).2, hkind step hstep⟩⟩, by omega⟩

/-- What is encoded of an intent fits a frame. -/
theorem length_le_of_encodeRecord {r : UInt8 × List UInt8}
    (h : encodeRecord (.intent plan steps) frame = .ok r) :
    r.2.length ≤ maxJournalFrameBytes := by
  simp only [encodeRecord, bind_eq_ok_iff, putU32Len_eq_ok_iff] at h
  obtain ⟨_, -, _, ⟨-, rfl⟩, _, hsteps, ⟨⟩⟩ := h
  refine ((encodeSteps_eq_ok_iff ?_).1 hsteps).2.2
  simp only [putU64, List.nil_append, List.length_append, length_leBytes]
  decide

theorem encodeRecord_intent_counts {kind : UInt8} {payload : List UInt8}
    (h : encodeRecord (.intent plan steps) frame = .ok (kind, payload)) :
    ∃ requirements, journalRequirements steps = .ok requirements ∧
      payload.length = requirements.intentFrameBytes := by
  obtain ⟨hstorable, hsame⟩ := encodeRecord_eq_ok_iff.1 ⟨h, length_le_of_encodeRecord h⟩
  obtain ⟨-, rfl⟩ := Prod.mk.inj hsame
  exact ⟨_, journalRequirements_eq_ok_iff.2 ⟨not_oversized_of_storable hstorable, rfl⟩,
    (intentFrameBytes_eq plan steps).symm⟩

/-- The preflight agrees with the encoder exactly when no path is too long, or the manifest is
refused anyway. -/
theorem preflightAgrees_iff (plan : PlanId) (steps : List JournalStep) (sequence frame : ℕ)
    (hkind : ∀ step ∈ steps, step.kind.isSome) :
    PreflightAgrees plan steps sequence frame ↔ PathsFit steps ∨ Oversized steps := by
  have hencode : (∃ bytes, encodeFrame sequence (.intent plan steps) frame = .ok bytes) ↔
      ¬Oversized steps ∧ PathsFit steps := by
    simp only [encodeFrame_eq_ok_iff, exists_and_left, exists_eq, and_true,
      storable_intent_iff hkind]
  have hrequirements : (∃ requirements, journalRequirements steps = .ok requirements) ↔
      ¬Oversized steps := by
    simp only [journalRequirements_eq_ok_iff, exists_and_left, exists_eq, and_true]
  constructor
  · intro h
    have haccepts := h.accepts
    rw [hencode, hrequirements] at haccepts
    by_cases hoversized : Oversized steps
    · exact .inr hoversized
    · exact .inl (haccepts.2 hoversized).2
  · intro h
    refine ⟨?_, fun kind payload => encodeRecord_intent_counts⟩
    rw [hencode, hrequirements]
    exact ⟨And.left, fun hfits => ⟨hfits, h.resolve_right hfits⟩⟩

/-- A path on the drive with a name of `n` letters. -/
def pathOfLetters (n : ℕ) : LegacyText := ⟨[67, 58, 92] ++ List.replicate n 97⟩

theorem len_pathOfLetters (n : ℕ) : (pathOfLetters n).len = n + 3 := by
  simp [pathOfLetters, LegacyText.len]

/-- One rename to a path of one unit more than a path may have. -/
def longStep : JournalStep :=
  (JournalStep.new ⟨0⟩ (.ofAscii "C:\\a") (pathOfLetters 32765) ⟨7, 10⟩ ⟨7, 1⟩ ⟨7, 1⟩
    .none).withMoveAuthorization .file .sameParent

theorem destination_longStep : longStep.destination.len = 32768 := len_pathOfLetters 32765

/-- The preflight accepts it, the encoder refuses the path. -/
theorem preflight_longStep :
    longStep.kind.isSome ∧ journalRequirements [longStep] = .ok ⟨1, 65643⟩ ∧
      ∀ sequence bytes, encodeFrame sequence (.intent ⟨0⟩ [longStep]) 0 ≠ .ok bytes := by
  have hsource : longStep.source.len = 4 := rfl
  have hsum : intentFrameBytes [longStep] = 65643 := by
    rw [intentFrameBytes_eq_sum]
    simp [hsource, destination_longStep, intentFixedBytes, intentStepFixedBytes]
  have hlong : maxPathUnits < 32768 := by decide
  refine ⟨rfl, ?_, fun sequence bytes hencode => ?_⟩
  · rw [journalRequirements, hsum]
    decide
  · obtain ⟨hstorable, -⟩ := encodeFrame_eq_ok_iff.1 hencode
    have hdestination := (hstorable.formed.2 longStep (by simp)).destination
    rw [destination_longStep] at hdestination
    omega

theorem preflightAgrees_iff_short : PreflightAgrees ⟨0⟩ [(JournalStep.new ⟨0⟩ (.ofAscii "C:\\a")
    (.ofAscii "C:\\b") ⟨7, 10⟩ ⟨7, 1⟩ ⟨7, 1⟩ .none).withMoveAuthorization .file .sameParent] 0 0 :=
  (preflightAgrees_iff ⟨0⟩ _ 0 0 (by decide)).2 (.inl (by unfold PathsFit; decide))

end Requirements

end DarkReNamer
