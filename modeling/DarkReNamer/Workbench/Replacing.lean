import DarkReNamer.Slices.Replace
import DarkReNamer.Workbench.Budgets

/-!
# Replacing in complete names

Replacing makes every proposed name the result of one scan from the left. The length that is
counted before anything is built is the length of what is built, and since it only grows, the
check behind every segment refuses no result that is within the budget.
-/

namespace DarkReNamer

open Interaction Slices

theorem replaced_replacedOutput {needle : List UInt16} (hneedle : needle ≠ [])
    (replacement source : List UInt16) :
    Replaced needle replacement source (replacedOutput needle replacement source) := by
  fun_induction replacedOutput needle replacement source with
  | case1 => exact .nil
  | case2 unit rest hfound ih =>
      obtain ⟨back, hback⟩ := List.isPrefixOf_iff_prefix.1 hfound
      have hdrop : rest.drop (needle.length - 1) = back := by
        cases needle with
        | nil => exact absurd rfl hneedle
        | cons first needle =>
            rw [List.cons_append, List.cons.injEq] at hback
            rw [← hback.2, List.length_cons, Nat.add_sub_cancel, List.drop_left]
      rw [hdrop] at ih ⊢
      rw [← hback]
      exact .hit hneedle ih
  | case3 unit rest hfound ih =>
      refine .skip hneedle (fun hstarts => hfound ?_) ih
      exact List.isPrefixOf_iff_prefix.2 hstarts

/-- The counted length is that of the output, and without a match the output is the source. -/
theorem decides_replacedLength (row : ℕ) (needle replacement source : List UInt16) (units : ℕ)
    (isMatched : Bool) (hunits : units ≤ maxProposedNameUtf16Units) :
    Decides
      (units + (replacedOutput needle replacement source).length ≤ maxProposedNameUtf16Units)
      (fun r => r.1 = units + (replacedOutput needle replacement source).length ∧
        (r.2 = false → isMatched = false ∧ replacedOutput needle replacement source = source))
      (replacedLength row needle replacement source units isMatched) := by
  have hbudget : maxProposedNameUtf16Units ≤ usizeMax := by decide
  fun_induction replacedOutput needle replacement source generalizing units isMatched with
  | case1 =>
      rw [replacedLength]
      exact ⟨hunits, rfl, fun h => ⟨h, rfl⟩⟩
  | case2 unit rest hfound ih =>
      rw [replacedLength, if_pos hfound, List.length_append]
      refine (decides_checkedAdd units replacement.length).bind (fun h => by omega) ?_
      rintro _ - rfl
      refine (decides_validateProposalUnits row _).bind (fun h => by omega) fun _ hle _ => ?_
      refine (ih (units + replacement.length) true hle).mono (by rw [Nat.add_assoc]) ?_
      rintro r ⟨hr, hmatched⟩
      refine ⟨by rw [hr, Nat.add_assoc], fun h => ?_⟩
      cases (hmatched h).1
  | case3 unit rest hfound ih =>
      rw [replacedLength, if_neg hfound, List.length_cons]
      refine (decides_checkedAdd units 1).bind (fun h => by omega) ?_
      rintro _ - rfl
      refine (decides_validateProposalUnits row _).bind (fun h => by omega) fun _ hle _ => ?_
      refine (ih (units + 1) isMatched hle).mono (by omega) ?_
      rintro r ⟨hr, hmatched⟩
      refine ⟨by omega, fun h => ⟨(hmatched h).1, ?_⟩⟩
      rw [(hmatched h).2]

/-- The proposed name with the occurrences of a text replaced. -/
def replacedName (source target : LegacyText) (item : LegacyListItem) : LegacyText :=
  if source.units.isEmpty then item.proposedName
  else ⟨replacedOutput source.units target.units item.proposedName.units⟩

theorem replaced_replacedName (source target : LegacyText) (item : LegacyListItem) :
    Replaced source.units target.units item.proposedName.units
      (replacedName source target item).units := by
  unfold replacedName
  split
  · next hempty => exact .empty (List.isEmpty_iff.1 hempty)
  · next hempty => exact replaced_replacedOutput (mt List.isEmpty_iff.2 hempty) _ _

/-- The proposal of a row is the result of the scan, unless that is too long. -/
theorem allocates_replacedUnits (source target : LegacyText) (row : ℕ) (item : LegacyListItem) :
    AllocatesOr .allocationFailed (fun r => Names item (replacedName source target item) ()
        (r.map fun next => (next, ())))
      (replacedUnits row item.proposedName.units source.units target.units) := by
  have hreplaced := replaced_replacedName source target item
  have hsame (h : (replacedName source target item).units = item.proposedName.units) :
      Names item (replacedName source target item) () (.ok (none, ())) :=
    ⟨(LegacyText.ext h).symm, rfl⟩
  unfold replacedUnits
  split
  · next hidle =>
      refine .pure (hsame ?_)
      rcases hidle with hempty | hlong
      · rw [replacedName, if_pos hempty]
      · exact hreplaced.eq_of_length_lt hlong
  · next hidle =>
      rw [not_or] at hidle
      have houtput : replacedName source target item =
          ⟨replacedOutput source.units target.units item.proposedName.units⟩ := if_neg hidle.1
      have hlength := decides_replacedLength row source.units target.units
        item.proposedName.units 0 false (Nat.zero_le _)
      rw [Nat.zero_add] at hlength
      refine .bind (.ofExcept hlength) ?_ fun _ hlong => ?_
      · rintro ⟨requestedUnits, isMatched⟩ ⟨hle, hunits, hmatched⟩
        dsimp only at hunits hmatched ⊢
        split
        · next hnone =>
            refine .pure (hsame ?_)
            rcases hnone with hnone | hsame
            · rw [houtput, (hmatched (by simpa using hnone)).2]
            · rw [← hsame] at hreplaced
              exact hreplaced.self
        · have hbuild : AllocatesOr .allocationFailed
              (fun r => r = .ok (replacedName source target item))
              (tryBuildProposal row requestedUnits
                (replacedOutput source.units target.units item.proposedName.units)) := by
            rw [houtput, hunits]
            exact allocates_tryBuildProposal hle
          refine .bind hbuild ?_ (by rintro _ ⟨⟩)
          rintro _ ⟨⟩
          exact .pure ⟨rfl, rfl⟩
      · rw [houtput]
        exact Nat.not_le.1 hlong

/-- Replacing returns exactly when the results of the scans are within the budgets, and then
makes them the proposed names; otherwise, and when the allocator refuses, the list is left
alone. -/
theorem replaceCompleteChanged_exact (list : LegacyList) (source target : LegacyText) :
    ∃ names : List LegacyText,
      List.Forall₂ (fun item name =>
        Replaced source.units target.units item.proposedName.units name.units)
        list.items names ∧
      (∀ item ∈ list.items, ∀ row units isMatched,
        replacedLength row source.units target.units item.proposedName.units 0 false =
            .ok (units, isMatched) →
          units = (replacedOutput source.units target.units item.proposedName.units).length) ∧
      Allocates
        (fun r => Decides (WithinBudgets (withNames list.items names))
            (· = differingRows (·.proposedName) list.items (withNames list.items names)) r.1 ∧
          r.2 = if r.1.isOk then list.withItems (withNames list.items names) else list)
        (fun r => r = (.error .allocationFailed, list))
        (list.replaceCompleteChanged source target) := by
  refine ⟨list.items.map (replacedName source target), ?_, ?_, ?_⟩
  · rw [List.forall₂_map_right_iff]
    exact List.forall₂_same.2 fun item _ => replaced_replacedName source target item
  · intro item _ row units isMatched hunits
    have hlength := decides_replacedLength row source.units target.units
      item.proposedName.units 0 false (Nat.zero_le _)
    rw [hunits] at hlength
    simpa using hlength.2.1
  · refine LegacyList.tryChangedProposalsOptional_allocates (proposes_map (fun row item => ?_) _ _)
    refine .bind (allocates_replacedUnits source target row item) ?_ fun _ hlong => hlong
    rintro next ⟨hnext, -⟩
    exact .pure ⟨hnext, rfl⟩

end DarkReNamer
