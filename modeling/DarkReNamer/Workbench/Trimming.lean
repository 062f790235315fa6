import DarkReNamer.Workbench.Names

/-!
# Trimmed lines

A line is white space only, or it is a part that begins and ends with other units, between white
space. The import keeps that part.
-/

namespace DarkReNamer

/-- Only units that trimming takes away. -/
def Blank (units : List UInt16) : Prop := ∀ unit ∈ units, isTrimUnit unit = true

/-- Trimming takes nothing away, and something is left. -/
structure Untrimmed (units : List UInt16) : Prop where
  head : ∃ unit rest, units = unit :: rest ∧ isTrimUnit unit = false
  last : ∃ front unit, units = front ++ [unit] ∧ isTrimUnit unit = false

theorem Untrimmed.not_blank {units : List UInt16} (h : Untrimmed units) : ¬Blank units := by
  obtain ⟨unit, rest, rfl, hunit⟩ := h.head
  intro hblank
  rw [hblank unit (by simp)] at hunit
  cases hunit

section Line

variable {before core after units : List UInt16}

theorem findIdx?_blank (h : Blank units) :
    units.findIdx? (fun unit => !isTrimUnit unit) = none :=
  List.findIdx?_eq_none_iff.2 fun unit hunit => by simp [h unit hunit]

theorem rposition_blank (h : Blank units) :
    rposition (fun unit => !isTrimUnit unit) units = none :=
  rposition_eq_none.2 fun unit hunit => by simp [h unit hunit]

/-- The first and the last position of what is left. -/
theorem findIdx?_trimmed (hbefore : Blank before) (hcore : Untrimmed core) :
    (before ++ core ++ after).findIdx? (fun unit => !isTrimUnit unit) = some before.length := by
  obtain ⟨unit, rest, rfl, hunit⟩ := hcore.head
  rw [List.append_assoc, List.findIdx?_append, findIdx?_blank hbefore,
    List.cons_append, List.findIdx?_cons, if_pos (by simp [hunit])]
  simp

theorem rposition_trimmed (hcore : Untrimmed core) (hafter : Blank after) :
    rposition (fun unit => !isTrimUnit unit) (before ++ core ++ after) =
      some (before.length + core.length - 1) := by
  obtain ⟨front, unit, rfl, hunit⟩ := hcore.last
  have hsplit : before ++ (front ++ [unit]) ++ after = (before ++ front) ++ unit :: after := by
    simp
  rw [hsplit, rposition_append _ (by simp [hunit]) fun unit hunit => by simp [hafter unit hunit]]
  simp

theorem trimmedSlice_of_blank (h : Blank units) : trimmedSlice units = none := by
  simp [trimmedSlice, findIdx?_blank h, rposition_blank h]

theorem Untrimmed.length_pos (h : Untrimmed core) : 0 < core.length := by
  obtain ⟨unit, rest, rfl, -⟩ := h.head
  simp

/-- The units between the first and the last position. -/
theorem take_drop_trimmed (hcore : Untrimmed core) :
    ((before ++ core ++ after).take (before.length + core.length - 1 + 1)).drop before.length =
      core := by
  have hpos := hcore.length_pos
  have hlength : before.length + core.length - 1 + 1 = (before ++ core).length := by
    rw [List.length_append]
    omega
  rw [hlength, List.take_left, List.drop_left]

theorem trimmedSlice_eq (hbefore : Blank before) (hcore : Untrimmed core) (hafter : Blank after) :
    trimmedSlice (before ++ core ++ after) = some core := by
  have hpos := hcore.length_pos
  have hlt : before.length < before.length + core.length - 1 + 1 := by omega
  simp only [trimmedSlice, findIdx?_trimmed hbefore hcore, rposition_trimmed hcore hafter,
    Option.getD_some, take_drop_trimmed hcore]
  exact if_pos hlt

theorem exists_blank_append (units : List UInt16) : ∃ before rest,
    units = before ++ rest ∧ Blank before ∧
      (rest = [] ∨ ∃ unit back, rest = unit :: back ∧ isTrimUnit unit = false) := by
  induction units with
  | nil => exact ⟨[], [], rfl, by simp [Blank], .inl rfl⟩
  | cons unit units ih =>
      cases hunit : isTrimUnit unit with
      | true =>
          obtain ⟨before, rest, rfl, hbefore, hrest⟩ := ih
          refine ⟨unit :: before, rest, rfl, ?_, hrest⟩
          exact List.forall_mem_cons.2 ⟨hunit, hbefore⟩
      | false => exact ⟨[], unit :: units, rfl, by simp [Blank], .inr ⟨unit, units, rfl, hunit⟩⟩

/-- Every line is white space only or has something between white space. -/
theorem blank_or_exists_untrimmed (units : List UInt16) : Blank units ∨
    ∃ before core after, units = before ++ core ++ after ∧ Blank before ∧ Untrimmed core ∧
      Blank after := by
  obtain ⟨before, rest, rfl, hbefore, rfl | ⟨unit, back, rfl, hunit⟩⟩ := exists_blank_append units
  · rw [List.append_nil]
    exact .inl hbefore
  · obtain ⟨after, core, hcore, hafter, hend⟩ := exists_blank_append (unit :: back).reverse
    have hsplit : unit :: back = core.reverse ++ after.reverse := by
      rw [← List.reverse_append, ← hcore, List.reverse_reverse]
    have hblank : Blank after.reverse := fun unit hmem => hafter unit (List.mem_reverse.1 hmem)
    refine .inr ⟨before, core.reverse, after.reverse, by rw [hsplit, List.append_assoc], hbefore,
      ⟨?_, ?_⟩, hblank⟩
    · cases hreverse : core.reverse with
      | nil =>
          rw [hreverse, List.nil_append] at hsplit
          rw [hblank unit (hsplit ▸ List.mem_cons_self)] at hunit
          cases hunit
      | cons first rest =>
          rw [hreverse, List.cons_append, List.cons.injEq] at hsplit
          exact ⟨first, rest, rfl, hsplit.1 ▸ hunit⟩
    · rcases hend with rfl | ⟨last, rest, rfl, hlast⟩
      · rw [List.reverse_nil, List.nil_append] at hsplit
        rw [hblank unit (hsplit ▸ List.mem_cons_self)] at hunit
        cases hunit
      · exact ⟨rest.reverse, last, List.reverse_cons, hlast⟩

end Line

theorem trimmedSlice_eq_none_iff {units : List UInt16} :
    trimmedSlice units = none ↔ Blank units := by
  refine ⟨fun hnone => ?_, trimmedSlice_of_blank⟩
  rcases blank_or_exists_untrimmed units with hblank | ⟨before, core, after, rfl, hbefore, hcore,
    hafter⟩
  · exact hblank
  · rw [trimmedSlice_eq hbefore hcore hafter] at hnone
    cases hnone

/-- What is left of a line is not trimmed again. -/
theorem untrimmed_of_trimmedSlice {units core : List UInt16} (h : trimmedSlice units = some core) :
    Untrimmed core := by
  rcases blank_or_exists_untrimmed units with hblank | ⟨before, core', after, rfl, hbefore, hcore,
    hafter⟩
  · rw [trimmedSlice_of_blank hblank] at h
    cases h
  · rw [trimmedSlice_eq hbefore hcore hafter] at h
    cases h
    exact hcore

theorem Untrimmed.trimmedSlice_eq_self {core : List UInt16} (h : Untrimmed core) :
    trimmedSlice core = some core := by
  have hnil : Blank [] := by simp [Blank]
  simpa using trimmedSlice_eq hnil h hnil

/-- White space behind a line is trimmed with it. -/
theorem trimmedSlice_append {units after : List UInt16} (hafter : Blank after) :
    trimmedSlice (units ++ after) = trimmedSlice units := by
  rcases blank_or_exists_untrimmed units with hblank | ⟨before, core, rest, rfl, hbefore, hcore,
    hrest⟩
  · rw [trimmedSlice_of_blank hblank, trimmedSlice_of_blank]
    exact List.forall_mem_append.2 ⟨hblank, hafter⟩
  · rw [trimmedSlice_eq hbefore hcore hrest, List.append_assoc]
    exact trimmedSlice_eq hbefore hcore (List.forall_mem_append.2 ⟨hrest, hafter⟩)

end DarkReNamer
