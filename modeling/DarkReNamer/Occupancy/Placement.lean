import DarkReNamer.Occupancy.Move

/-!
# Placements

A family of occupants with a place for each, over a fixed rest of the world. A
move of one member to a free place is possible and gives the placement with that
place updated, so a list of moves is followed by following the places alone.
-/

namespace Occupancy

variable {K V I : Type*}

/-- The members of the family are at `place`, everything else is as in `base`. -/
structure Placed (base : State K V) (value : I → V) (place : I → K) (o : State K V) :
    Prop where
  occupied : ∀ i, o (place i) = some (value i)
  elsewhere : ∀ k, (∀ i, place i ≠ k) → o k = base k

/-- A placement determines the state. -/
theorem Placed.unique {base o o' : State K V} {value : I → V} {place : I → K}
    (h : Placed base value place o) (h' : Placed base value place o') : o = o' := by
  funext k
  by_cases hk : ∃ i, place i = k
  · obtain ⟨i, rfl⟩ := hk
    rw [h.occupied, h'.occupied]
  · have hne : ∀ i, place i ≠ k := fun i hi => hk ⟨i, hi⟩
    rw [h.elsewhere k hne, h'.elsewhere k hne]

section Relocate

variable {base o : State K V} {value : I → V} {place : I → K} {i : I} {b : K}

/-- The move of the member `i` to `b`. -/
def relocate (value : I → V) (place : I → K) (i : I) (b : K) : Move K V :=
  ⟨place i, b, value i⟩

theorem Placed.enabled (h : Placed base value place o) (hfree : ∀ j, place j ≠ b)
    (hbase : base b = none) : (relocate value place i b).Enabled o :=
  ⟨h.occupied i, (h.elsewhere b hfree).trans hbase⟩

variable [DecidableEq I]

theorem injective_update (hplace : Function.Injective place) (hfree : ∀ j, place j ≠ b) :
    Function.Injective (Function.update place i b) := by
  intro j k hjk
  by_cases hj : j = i <;> by_cases hk : k = i
  · rw [hj, hk]
  · subst hj
    simp [hk] at hjk
    exact absurd hjk.symm (hfree k)
  · subst hk
    simp [hj] at hjk
    exact absurd hjk (hfree j)
  · simp [hj, hk] at hjk
    exact hplace hjk

variable [DecidableEq K]

/-- A member moves to a free place; the place it leaves belongs to the family alone. -/
theorem Placed.relocate (h : Placed base value place o) (hplace : Function.Injective place)
    (hfree : ∀ j, place j ≠ b) (hleft : base (place i) = none) :
    Placed base value (Function.update place i b)
      ((Occupancy.relocate value place i b).apply o) := by
  refine ⟨fun j => ?_, fun k hk => ?_⟩
  · by_cases hj : j = i
    · subst hj
      simp [Occupancy.relocate, Move.apply]
    · have h₁ : place j ≠ place i := fun heq => hj (hplace heq)
      simp only [Function.update_of_ne hj]
      rw [Move.apply_of_ne h₁ (hfree j)]
      exact h.occupied j
  · have hkb : k ≠ b := by
      rintro rfl
      exact hk i (by simp)
    by_cases hki : k = place i
    · subst hki
      rw [hleft]
      simp [Occupancy.relocate, Move.apply, hkb]
    · rw [Move.apply_of_ne hki hkb]
      refine h.elsewhere k fun j hj => ?_
      by_cases hji : j = i
      · exact hki (by rw [← hj, hji])
      · exact hk j (by rw [Function.update_of_ne hji, hj])

/-- The places after a list of relocations. -/
def placesAfter (place : I → K) (rs : List (I × K)) : I → K :=
  rs.foldl (fun place r => Function.update place r.1 r.2) place

/-- The moves of a list of relocations. -/
def relocations (value : I → V) : (I → K) → List (I × K) → List (Move K V)
  | _, [] => []
  | place, (i, b) :: rs =>
      Occupancy.relocate value place i b :: relocations value (Function.update place i b) rs

/-- Every relocation goes to a place that is free when its turn comes. -/
def Admissible (base : State K V) : (I → K) → List (I × K) → Prop
  | _, [] => True
  | place, (i, b) :: rs =>
      (∀ j, place j ≠ b) ∧ base b = none ∧ base (place i) = none ∧
        Admissible base (Function.update place i b) rs

variable {rs rs' : List (I × K)}

omit [DecidableEq K] in
theorem placesAfter_append (place : I → K) (rs rs' : List (I × K)) :
    placesAfter place (rs ++ rs') = placesAfter (placesAfter place rs) rs' :=
  List.foldl_append

omit [DecidableEq K] in
/-- A member that no longer is where it was has been relocated a first time. -/
theorem exists_first_of_placesAfter_ne {i : I} (h : placesAfter place rs i ≠ place i) :
    ∃ front b back, rs = front ++ (i, b) :: back ∧ ∀ r ∈ front, r.1 ≠ i := by
  induction rs generalizing place with
  | nil => exact absurd rfl h
  | cons r rs ih =>
      by_cases hr : r.1 = i
      · subst hr
        exact ⟨[], r.2, rs, rfl, by simp⟩
      · have hrest : placesAfter (Function.update place r.1 r.2) rs i ≠
            Function.update place r.1 r.2 i := by
          rwa [Function.update_of_ne (Ne.symm hr)]
        obtain ⟨front, b, back, rfl, hfront⟩ := ih hrest
        refine ⟨r :: front, b, back, rfl, ?_⟩
        rintro s (_ | ⟨_, hs⟩)
        · exact hr
        · exact hfront s hs

omit [DecidableEq K] in
theorem placesAfter_of_forall_ne {i : I} (h : ∀ r ∈ rs, r.1 ≠ i) :
    placesAfter place rs i = place i := by
  by_contra hne
  obtain ⟨front, b, back, rfl, -⟩ := exists_first_of_placesAfter_ne hne
  exact h (i, b) (by simp) rfl

omit [DecidableEq K] in
theorem admissible_append :
    Admissible base place (rs ++ rs') ↔
      Admissible base place rs ∧ Admissible base (placesAfter place rs) rs' := by
  induction rs generalizing place with
  | nil => simp [Admissible, placesAfter]
  | cons r rs ih => simp [Admissible, placesAfter, ih, and_assoc]

/-- Admissible relocations can be executed, and they lead to the placement that
follows the places. -/
theorem Placed.executable (h : Placed base value place o) (hplace : Function.Injective place)
    (hrs : Admissible base place rs) :
    Executable o (relocations value place rs) ∧
      Placed base value (placesAfter place rs)
        (afterMoves o (relocations value place rs)) := by
  induction rs generalizing place o with
  | nil => exact ⟨trivial, h⟩
  | cons r rs ih =>
      obtain ⟨i, b⟩ := r
      obtain ⟨hfree, hb, hleft, hrest⟩ := hrs
      have hmoved := h.relocate hplace hfree hleft
      obtain ⟨hexecutable, hplaced⟩ := ih hmoved (injective_update hplace hfree) hrest
      exact ⟨⟨h.enabled hfree hb, hexecutable⟩, hplaced⟩

omit [DecidableEq K] in
theorem relocations_take (value : I → V) (place : I → K) (rs : List (I × K)) (k : ℕ) :
    (relocations value place rs).take k = relocations value place (rs.take k) := by
  induction rs generalizing place k with
  | nil => simp [relocations]
  | cons r rs ih =>
      cases k with
      | zero => rfl
      | succ k => simp [relocations, ih]

end Relocate

end Occupancy
