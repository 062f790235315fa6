import DarkReNamer.Rename.Schedule.Preparation
import DarkReNamer.Rename.Volume

/-!
# Temporary names

The leaf of a temporary candidate has no separator, so its path is read back as
that leaf below the parent of the pivot. Over a volume, a candidate that the probe
returns has a key that was not reserved and is free.
-/

namespace DarkReNamer

open Std Interaction

theorem isSeparator_hexDigit (digit : ℕ) (h : digit < 16) :
    isSeparator (hexDigit digit) = false := by
  revert h digit
  decide

theorem isSeparator_of_mem_hexUnits {width value : ℕ} {unit : UInt16}
    (h : unit ∈ hexUnits width value) : isSeparator unit = false := by
  induction width generalizing value with
  | zero => simp [hexUnits] at h
  | succ width ih =>
      rw [hexUnits, List.mem_append, List.mem_singleton] at h
      rcases h with h | rfl
      · exact ih h
      · exact isSeparator_hexDigit _ (Nat.mod_lt _ (by decide))

theorem isSeparator_of_mem_temporaryLeaf {plan : PlanId} {nonce : BitVec 128}
    {pivot : EntryId} {ordinal : ℕ} {unit : UInt16}
    (h : unit ∈ (temporaryLeaf plan nonce pivot ordinal).units) :
    isSeparator unit = false := by
  have hnone : ((LegacyText.ofAscii ".__darknamer_").units ++
      (LegacyText.ofAscii "_").units ++ (LegacyText.ofAscii ".tmp").units).all
        (fun u => !isSeparator u) = true := by decide
  have hliterals : ∀ u ∈ (LegacyText.ofAscii ".__darknamer_").units ++
      (LegacyText.ofAscii "_").units ++ (LegacyText.ofAscii ".tmp").units,
      isSeparator u = false := fun u hu => by simpa using List.all_eq_true.1 hnone u hu
  simp only [List.mem_append] at hliterals
  simp only [temporaryLeaf, List.mem_append] at h
  rcases h with (((((((h | h) | h) | h) | h) | h) | h) | h) | h
  · exact hliterals unit (.inl (.inl h))
  · exact isSeparator_of_mem_hexUnits h
  · exact hliterals unit (.inl (.inr h))
  · exact isSeparator_of_mem_hexUnits h
  · exact hliterals unit (.inl (.inr h))
  · exact isSeparator_of_mem_hexUnits h
  · exact hliterals unit (.inl (.inr h))
  · exact isSeparator_of_mem_hexUnits h
  · exact hliterals unit (.inr h)

namespace Schedule

theorem pathLeaf_temporaryPath (pivot : PlanRow) (plan : PlanId) (nonce : BitVec 128)
    (id : EntryId) (ordinal : ℕ) :
    pathLeaf (temporaryPath pivot (temporaryLeaf plan nonce id ordinal)) =
      temporaryLeaf plan nonce id ordinal := by
  refine LegacyText.ext ?_
  exact afterLastSeparator_append (fun _ => isSeparator_of_mem_temporaryLeaf) rfl

/-- The key of one temporary candidate. -/
def candidateKey (V : Volume) (plan : RenamePlan) (pivot : PlanRow) (nonce : BitVec 128)
    (ordinal : ℕ) : PathKey :=
  V.entryKey pivot.sourceSnapshot.parent (temporaryLeaf plan.id nonce pivot.id ordinal)

/-- The keys a schedule may have reserved: those of the plan and temporary ones. -/
def KnownKey (V : Volume) (plan : RenamePlan) (key : PathKey) : Prop :=
  (∃ row ∈ plan.entries, key = row.sourceEntryKey ∨ key = row.destinationEntryKey) ∨
    ∃ row ∈ plan.entries, ∃ nonce ordinal, key = candidateKey V plan row nonce ordinal

/-- What the probe promises about the path and the reserved keys it returns. -/
structure FreshTemporary (V : Volume) (plan : RenamePlan) (o : VolumeState)
    (pivot : PlanRow) (reserved : ExtTreeSet PathKey)
    (r : LegacyText × ExtTreeSet PathKey) : Prop where
  candidate : ∃ nonce ordinal,
    r.1 = temporaryPath pivot (temporaryLeaf plan.id nonce pivot.id ordinal)
  unreserved : V.entryKey pivot.sourceSnapshot.parent (pathLeaf r.1) ∉ reserved
  free : o (V.entryKey pivot.sourceSnapshot.parent (pathLeaf r.1)) = none
  reserves : r.2 = reserved.insert (V.entryKey pivot.sourceSnapshot.parent (pathLeaf r.1))
  parent : V.parent r.1 = pivot.sourceSnapshot.parent

/-- The reads of the probe are truthful, and their errors are admitted. -/
structure Probes {σ : Type} (V : Volume) (o : VolumeState) (env : Environment σ Call Answer)
    (s : σ) (E : ScheduleError → Prop) : Prop where
  polls : Polls env s (E .cancelled)
  nonce : ∀ a t, env s (.backend .nextTransactionNonce) a t →
    t = s ∧ ∀ error, a = .error error → E (.backend error)
  key : ∀ parent leaf a t, env s (.backend (.plannedEntryKey parent leaf)) a t →
    t = s ∧ ExceptPost (fun key => key = V.entryKey parent leaf)
      (fun error => E (.backend error)) a
  observe : ∀ path a t, env s (.backend (.observe path)) a t →
    t = s ∧ ExceptPost (fun snapshot => snapshot = V.snapshot o path)
      (fun error => E (.backend error)) a

section Probe

variable {σ : Type} {V : Volume} {o : VolumeState} {env : Environment σ Call Answer}
  {s : σ} {E : ScheduleError → Prop} {plan : RenamePlan} {pivot : PlanRow}

/-- All candidates of a pivot under one nonce are reserved or occupied. -/
def Exhausted (V : Volume) (o : VolumeState) (plan : RenamePlan) (pivot : PlanRow)
    (nonce : BitVec 128) (reserved : ExtTreeSet PathKey) (ordinals : ℕ → Prop) : Prop :=
  ∀ ordinal, ordinals ordinal → candidateKey V plan pivot nonce ordinal ∈ reserved ∨
    o (candidateKey V plan pivot nonce ordinal) ≠ none

theorem checks_probeTemporary (h : Probes V o env s E) (nonce : BitVec 128)
    (reserved : ExtTreeSet PathKey) (ordinal count : ℕ)
    (hstale : ∀ ordinal, V.parent (temporaryPath pivot
      (temporaryLeaf plan.id nonce pivot.id ordinal)) ≠ pivot.sourceSnapshot.parent →
        E (.staleParent pivot.id))
    (hexhausted : Exhausted V o plan pivot nonce reserved (· < ordinal + count) →
      E (.temporaryExhausted pivot.id))
    (hsofar : Exhausted V o plan pivot nonce reserved (· < ordinal)) :
    Checks env (probeTemporary plan pivot nonce reserved ordinal count) s
      (FreshTemporary V plan o pivot reserved) E := by
  induction count generalizing ordinal with
  | zero => exact Checks.throw (hexhausted hsofar)
  | succ count ih =>
      have hnext : candidateKey V plan pivot nonce ordinal ∈ reserved ∨
          o (candidateKey V plan pivot nonce ordinal) ≠ none →
          Checks env (probeTemporary plan pivot nonce reserved (ordinal + 1) count) s
            (FreshTemporary V plan o pivot reserved) E := by
        intro htaken
        refine ih (ordinal + 1) (fun he => hexhausted ?_) ?_
        · rwa [show ordinal + (count + 1) = ordinal + 1 + count by omega]
        · intro m hm
          rcases Nat.lt_succ_iff_lt_or_eq.1 hm with hlt | rfl
          · exact hsofar m hlt
          · exact htaken
      have hleaf := pathLeaf_temporaryPath pivot plan.id nonce pivot.id ordinal
      refine Checks.bind (checks_checkCancelled h.polls) fun _ _ => ?_
      refine Checks.bind (Checks.lift (Reads.ask (h.key _ _))) fun a ha => ?_
      cases a with
      | error error => exact Checks.throw ha
      | ok key =>
          obtain rfl : key = candidateKey V plan pivot nonce ordinal := ha
          by_cases hreserved : candidateKey V plan pivot nonce ordinal ∈ reserved
          · simp only [ExtTreeSet.contains_iff_mem, hreserved, if_true]
            exact hnext (.inl hreserved)
          · simp only [ExtTreeSet.contains_iff_mem, hreserved, if_false]
            refine Checks.bind (Checks.lift (Reads.ask (h.observe _))) fun a ha => ?_
            cases a with
            | error error => exact Checks.throw ha
            | ok snapshot =>
                obtain rfl : snapshot = _ := ha
                by_cases hparent : (V.snapshot o (temporaryPath pivot
                    (temporaryLeaf plan.id nonce pivot.id ordinal))).parent =
                      pivot.sourceSnapshot.parent
                · have hkey : V.key (temporaryPath pivot
                      (temporaryLeaf plan.id nonce pivot.id ordinal)) =
                      candidateKey V plan pivot nonce ordinal := by
                    rw [Volume.key, hleaf, show V.parent _ = _ from hparent]
                    rfl
                  simp only [ne_eq, hparent, not_true_eq_false, if_false]
                  cases hentry : o (candidateKey V plan pivot nonce ordinal) with
                  | none =>
                      simp only [Volume.snapshot, Volume.observed, hkey, hentry,
                        Option.map_none, Option.isNone_none, if_true]
                      refine Checks.pure ⟨⟨nonce, ordinal, rfl⟩, ?_, ?_, ?_, hparent⟩
                      · rw [hleaf]
                        exact hreserved
                      · rw [hleaf]
                        exact hentry
                      · rw [hleaf]
                        rfl
                  | some identity =>
                      simp only [Volume.snapshot, Volume.observed, hkey, hentry,
                        Option.map_some, Option.isNone_some, Bool.false_eq_true, if_false]
                      exact hnext (.inr (by simp [hentry]))
                · simp only [ne_eq, hparent, not_false_eq_true, if_true]
                  exact Checks.throw (hstale ordinal hparent)

/-- The temporary path of a pivot is fresh; only stale parents and exhausted candidates
refuse it, besides the errors of the environment. -/
theorem checks_uniqueTemporaryPath (h : Probes V o env s E)
    (reserved : ExtTreeSet PathKey)
    (hstale : ∀ nonce ordinal, V.parent (temporaryPath pivot
      (temporaryLeaf plan.id nonce pivot.id ordinal)) ≠ pivot.sourceSnapshot.parent →
        E (.staleParent pivot.id))
    (hexhausted : ∀ nonce, Exhausted V o plan pivot nonce reserved (· < maxTempCandidates) →
      E (.temporaryExhausted pivot.id)) :
    Checks env (uniqueTemporaryPath plan pivot reserved) s
      (FreshTemporary V plan o pivot reserved) E := by
  refine Checks.bind (checks_checkCancelled h.polls) fun _ _ => ?_
  refine Checks.bind (Checks.lift (Reads.ask h.nonce)) fun a ha => ?_
  cases a with
  | error error => exact Checks.throw (ha error rfl)
  | ok nonce =>
      refine checks_probeTemporary h nonce reserved 0 maxTempCandidates (hstale nonce)
        (fun he => hexhausted nonce ?_) (by simp [Exhausted])
      simpa using he

end Probe

end Schedule

end DarkReNamer
