import DarkReNamer.Workbench.Rows

/-!
# Moving selected rows

One command moves the selected rows one place up, in ascending order of their positions; the
row in front of a run of them is carried past the whole run. The other command makes the same
swaps in the opposite order, so each takes back what the other has done.
-/

namespace DarkReNamer

section Shift

variable {α β : Type}

/-- The rows that are not selected, in their order; `start` is the position of the first row. -/
def unselectedFrom (start : ℕ) (selected : List ℕ) : List α → List α
  | [] => []
  | a :: items =>
    if start ∈ selected then unselectedFrom (start + 1) selected items
    else a :: unselectedFrom (start + 1) selected items

/-- Every selected row stands where `place` puts it, and the others stand in the order they
stood in. -/
structure Shifted (place : ℕ → ℕ) (selected : List ℕ) (items items' : List α) : Prop where
  perm : items'.Perm items
  placed : ∀ i ∈ selected, items'[place i]? = items[i]?
  others : unselectedFrom 0 (selected.map place) items' = unselectedFrom 0 selected items

theorem unselectedFrom_congr {start : ℕ} {selected selected' : List ℕ} {items : List α}
    (h : ∀ i, start ≤ i → (i ∈ selected ↔ i ∈ selected')) :
    unselectedFrom start selected items = unselectedFrom start selected' items := by
  induction items generalizing start with
  | nil => rfl
  | cons a items ih =>
      have hrest := ih fun i hi => h i (Nat.le_of_succ_le hi)
      simp only [unselectedFrom, h start le_rfl, hrest]

theorem unselectedFrom_nil (start : ℕ) (items : List α) :
    unselectedFrom start [] items = items := by
  induction items generalizing start with
  | nil => rfl
  | cons a items ih => simp [unselectedFrom, ih]

/-! ### Swaps -/

/-- A swap is taken back by itself. -/
theorem swapRows_swapRows {items items' : List α} {i j : ℕ}
    (h : swapRows items i j = some items') : swapRows items' i j = some items := by
  obtain ⟨a, b, ha, hb, rfl⟩ := swapRows_eq_some.1 h
  obtain ⟨hi, rfl⟩ := List.getElem?_eq_some_iff.1 ha
  obtain ⟨hj, rfl⟩ := List.getElem?_eq_some_iff.1 hb
  refine swapRows_eq_some.2 ⟨items[j], items[i], ?_, ?_, ?_⟩
  · rcases eq_or_ne i j with rfl | hne
    · simp [hi]
    · rw [List.getElem?_set_ne hne.symm, List.getElem?_set_self hi]
  · simp [hj]
  · rcases eq_or_ne i j with rfl | hne
    · simp
    · rw [List.set_comm _ _ hne, List.set_set, List.set_comm _ _ hne.symm, List.set_set,
        List.set_getElem_self, List.set_getElem_self]

/-- A fold of steps that take themselves back is taken back in the opposite order. -/
theorem foldlM_reverse {f : β → α → Option β} (hf : ∀ b a b', f b a = some b' → f b' a = some b)
    {l : List α} {b b' : β} (h : l.foldlM f b = some b') : l.reverse.foldlM f b' = some b := by
  induction l generalizing b with
  | nil =>
      cases h
      rfl
  | cons a l ih =>
      rw [List.foldlM_cons, Option.bind_eq_bind, Option.bind_eq_some_iff] at h
      obtain ⟨b₁, hb₁, hrest⟩ := h
      rw [List.reverse_cons, List.foldlM_append, ih hrest]
      simpa using hf b a b₁ hb₁

theorem foldlM_congr {f g : β → α → Option β} {l : List α} (h : ∀ b, ∀ a ∈ l, f b a = g b a)
    (b : β) : l.foldlM f b = l.foldlM g b := by
  induction l generalizing b with
  | nil => rfl
  | cons a l ih =>
      have hrest := ih fun b a' ha' => h b a' (List.mem_cons_of_mem a ha')
      simp only [List.foldlM_cons, h b a List.mem_cons_self, hrest]

theorem mapM_eq_map {f : α → Option β} {g : α → β} {l : List α}
    (h : ∀ a ∈ l, f a = some (g a)) : l.mapM f = some (l.map g) := by
  induction l with
  | nil => rfl
  | cons a l ih =>
      have hrest := ih fun a' ha' => h a' (List.mem_cons_of_mem a ha')
      simp [h a List.mem_cons_self, hrest]

/-! ### Carrying a row past the selected ones -/

/-- The rows behind `a`, the first of them at position `start`, with every row that is not
selected carried past the run of selected rows behind it. -/
def carryRow (a : α) : ℕ → List α → List ℕ → List α
  | _, [], _ => [a]
  | start, b :: items, selected =>
    if selected.head? = some start then b :: carryRow a (start + 1) items selected.tail
    else a :: carryRow b (start + 1) items selected

theorem carryRow_nil (a : α) (start : ℕ) (items : List α) :
    carryRow a start items [] = a :: items := by
  induction items generalizing a start with
  | nil => rfl
  | cons b items ih => simp [carryRow, ih]

theorem swapRows_append (front : List α) (a b : α) (items : List α) :
    swapRows (front ++ a :: b :: items) front.length (front.length + 1) =
      some (front ++ b :: a :: items) := by
  refine swapRows_eq_some.2 ⟨a, b, by simp, by simp, ?_⟩
  rw [List.set_append_right _ _ le_rfl, List.set_append_right _ _ (Nat.le_succ _)]
  simp

/-- The swap that moves a row up. -/
def swapUp (items : List α) (i : ℕ) : Option (List α) := swapRows items (i - 1) i

theorem foldlM_swapUp (front : List α) (a : α) (items : List α) {selected : List ℕ}
    (hsorted : selected.Pairwise (· < ·)) (hlow : ∀ i ∈ selected, front.length < i)
    (hhigh : ∀ i ∈ selected, i ≤ front.length + items.length) :
    selected.foldlM swapUp (front ++ a :: items) =
      some (front ++ carryRow a (front.length + 1) items selected) := by
  induction items generalizing front a selected with
  | nil =>
      cases selected with
      | nil => rfl
      | cons i selected =>
          have := hlow i (by simp)
          have := hhigh i (by simp)
          simp at this
          omega
  | cons b items ih =>
      cases selected with
      | nil => rw [carryRow_nil]; rfl
      | cons i selected =>
          obtain ⟨hafter, hrest⟩ := List.pairwise_cons.1 hsorted
          have hi := hlow i List.mem_cons_self
          by_cases hfirst : i = front.length + 1
          · subst hfirst
            have hswap : swapUp (front ++ a :: b :: items) (front.length + 1) =
                some (front ++ [b] ++ a :: items) := by
              rw [swapUp, Nat.add_sub_cancel, swapRows_append, List.append_cons]
            have hfold := ih (front ++ [b]) a hrest
              (fun j hj => by simpa using hafter j hj)
              (fun j hj => by
                have := hhigh j (List.mem_cons_of_mem _ hj)
                simp at this ⊢
                omega)
            rw [List.foldlM_cons, hswap, Option.bind_eq_bind, Option.bind_some, hfold]
            simp [carryRow]
          · have hlater (j : ℕ) (hj : j ∈ i :: selected) : front.length + 1 < j := by
              rcases List.mem_cons.1 hj with rfl | hj
              · omega
              · have := hafter j hj
                omega
            have hfold := ih (front ++ [a]) b hsorted
              (fun j hj => by simpa using hlater j hj)
              (fun j hj => by
                have := hhigh j hj
                simp at this ⊢
                omega)
            rw [List.append_cons, hfold]
            simp [carryRow, hfirst]

/-- Every selected row is one place up. -/
theorem getElem?_carryRow (a : α) (start : ℕ) (items : List α) {selected : List ℕ}
    (hsorted : selected.Pairwise (· < ·)) (hlow : ∀ i ∈ selected, start ≤ i) {i : ℕ}
    (hi : i ∈ selected) (hhigh : i < start + items.length) :
    (carryRow a start items selected)[i - start]? = items[i - start]? := by
  induction items generalizing a start selected with
  | nil =>
      have := hlow i hi
      simp at hhigh
      omega
  | cons b items ih =>
      cases selected with
      | nil => cases hi
      | cons j selected =>
          obtain ⟨hafter, hrest⟩ := List.pairwise_cons.1 hsorted
          have hj := hlow j List.mem_cons_self
          have hlength : i < start + 1 + items.length := by
            simp at hhigh
            omega
          by_cases hfirst : j = start
          · subst hfirst
            rcases List.mem_cons.1 hi with rfl | hi
            · simp [carryRow]
            · have hlt := hafter i hi
              obtain ⟨k, rfl⟩ := Nat.exists_eq_add_of_lt hlt
              have hplaced := ih a (j + 1) hrest hafter hi hlength
              have hsub : j + k + 1 - j = k + 1 := by omega
              have hsub' : j + k + 1 - (j + 1) = k := by omega
              rw [hsub'] at hplaced
              simpa [carryRow, hsub] using hplaced
          · have hlater (j' : ℕ) (hj' : j' ∈ j :: selected) : start + 1 ≤ j' := by
              rcases List.mem_cons.1 hj' with rfl | hj'
              · omega
              · have := hafter j' hj'
                omega
            obtain ⟨k, rfl⟩ := Nat.exists_eq_add_of_le (hlater i hi)
            have hplaced := ih b (start + 1) hsorted hlater hi hlength
            have hsub : start + 1 + k - start = k + 1 := by omega
            have hsub' : start + 1 + k - (start + 1) = k := by omega
            rw [hsub'] at hplaced
            simpa [carryRow, hfirst, hsub] using hplaced

/-- The other rows keep their order. -/
theorem unselectedFrom_carryRow (a : α) (start : ℕ) (items : List α) {selected : List ℕ}
    (hsorted : selected.Pairwise (· < ·)) (hlow : ∀ i ∈ selected, start < i)
    (hhigh : ∀ i ∈ selected, i ≤ start + items.length) :
    unselectedFrom start (selected.map (· - 1)) (carryRow a (start + 1) items selected) =
      a :: unselectedFrom (start + 1) selected items := by
  induction items generalizing a start selected with
  | nil =>
      cases selected with
      | nil => rfl
      | cons i selected =>
          have := hlow i (by simp)
          have := hhigh i (by simp)
          simp at this
          omega
  | cons b items ih =>
      cases selected with
      | nil => simp [carryRow_nil, unselectedFrom_nil]
      | cons j selected =>
          obtain ⟨hafter, hrest⟩ := List.pairwise_cons.1 hsorted
          have hbound (i : ℕ) (hi : i ∈ j :: selected) : i ≤ start + 1 + items.length := by
            have := hhigh i hi
            simp at this
            omega
          by_cases hfirst : j = start + 1
          · subst hfirst
            have hcongr : unselectedFrom (start + 1) (((start + 1) :: selected).map (· - 1))
                (carryRow a (start + 1 + 1) items selected) =
                  unselectedFrom (start + 1) (selected.map (· - 1))
                    (carryRow a (start + 1 + 1) items selected) :=
              unselectedFrom_congr fun i hi => by
                rw [List.map_cons, List.mem_cons, Nat.add_sub_cancel, or_iff_right]
                omega
            have hcongr' : unselectedFrom (start + 1 + 1) ((start + 1) :: selected) items =
                unselectedFrom (start + 1 + 1) selected items :=
              unselectedFrom_congr fun i hi => by
                rw [List.mem_cons, or_iff_right]
                omega
            have hothers := ih a (start + 1) hrest hafter
              fun i hi => hbound i (List.mem_cons_of_mem _ hi)
            rw [carryRow, if_pos (by simp), List.tail_cons, unselectedFrom, if_pos (by simp),
              hcongr, hothers, unselectedFrom, if_pos (by simp), hcongr']
          · have hlater (i : ℕ) (hi : i ∈ j :: selected) : start + 1 < i := by
              have hj := hlow j List.mem_cons_self
              rcases List.mem_cons.1 hi with rfl | hi
              · omega
              · have := hafter i hi
                omega
            have hothers := ih b (start + 1) hsorted hlater hbound
            have hnot : start ∉ (j :: selected).map (· - 1) := by
              intro hmem
              obtain ⟨i, hi, heq⟩ := List.mem_map.1 hmem
              have := hlater i hi
              omega
            rw [carryRow, if_neg (by simpa using hfirst), unselectedFrom, if_neg hnot, hothers,
              unselectedFrom, if_neg fun hmem => Nat.lt_irrefl _ (hlater _ hmem)]

/-- The swaps of the selected rows, none of which is the first, move them one place up. -/
theorem exists_shiftedUp (items : List α) {selected : List ℕ}
    (hsorted : selected.Pairwise (· < ·)) (hlow : ∀ i ∈ selected, 0 < i)
    (hhigh : ∀ i ∈ selected, i < items.length) :
    ∃ items', selected.foldlM swapUp items = some items' ∧
      Shifted (· - 1) selected items items' := by
  obtain ⟨items', hfold, hperm⟩ : ∃ items', selected.foldlM swapUp items = some items' ∧
      items'.Perm items := by
    refine exists_foldlM (fun items' hperm i hi => ?_) (.refl items)
    have hi := hhigh i hi
    rw [← hperm.length_eq] at hi
    obtain ⟨items'', hswap, hperm'⟩ := exists_swapRows items' (Nat.sub_lt_of_lt hi) hi
    exact ⟨items'', hswap, hperm'.trans hperm⟩
  obtain ⟨hplaced, hothers⟩ : (∀ i ∈ selected, items'[i - 1]? = items[i]?) ∧
      unselectedFrom 0 (selected.map (· - 1)) items' = unselectedFrom 0 selected items := by
    cases items with
    | nil =>
        obtain rfl : selected = [] :=
          List.eq_nil_iff_forall_not_mem.2 fun i hi => Nat.not_lt_zero _ (hhigh i hi)
        cases hfold
        exact ⟨by simp, rfl⟩
    | cons a items =>
        have hbound (i : ℕ) (hi : i ∈ selected) : i ≤ 0 + items.length := by
          have := hhigh i hi
          simp at this
          omega
        have hcarry := foldlM_swapUp [] a items hsorted hlow hbound
        obtain rfl : items' = carryRow a 1 items selected := by
          simpa using hfold.symm.trans hcarry
        refine ⟨fun i hi => ?_, ?_⟩
        · obtain ⟨k, rfl⟩ := Nat.exists_eq_succ_of_ne_zero (Nat.ne_of_gt (hlow i hi))
          have := hbound _ hi
          exact getElem?_carryRow a 1 items hsorted hlow hi (by omega)
        · rw [unselectedFrom_carryRow a 0 items hsorted hlow hbound, unselectedFrom,
            if_neg fun hzero => Nat.lt_irrefl 0 (hlow 0 hzero)]
  exact ⟨items', hfold, hperm, hplaced, hothers⟩

/-- What the opposite swaps take back they move one place down. -/
theorem Shifted.reverse {items items' : List α} {selected : List ℕ}
    (h : Shifted (· - 1) (selected.map (· + 1)) items' items) :
    Shifted (· + 1) selected items items' where
  perm := h.perm.symm
  placed i hi := by
    have hplaced := h.placed (i + 1) (List.mem_map_of_mem hi)
    exact hplaced.symm
  others := by
    have hback : (selected.map (· + 1)).map (· - 1) = selected := by
      simp [Function.comp_def]
    have hothers := h.others
    rw [hback] at hothers
    exact hothers.symm

theorem exists_shiftedDown {items : List α} {selected : List ℕ}
    (hsorted : selected.Pairwise (· < ·)) (hhigh : ∀ i ∈ selected, i + 1 < items.length) :
    ∃ items', (selected.map (· + 1)).reverse.foldlM swapUp items = some items' ∧
      Shifted (· + 1) selected items items' := by
  obtain ⟨items', hfold, hperm⟩ : ∃ items',
      (selected.map (· + 1)).reverse.foldlM swapUp items = some items' ∧ items'.Perm items := by
    refine exists_foldlM (fun items' hperm i hi => ?_) (.refl items)
    obtain ⟨j, hj, rfl⟩ := List.mem_map.1 (List.mem_reverse.1 hi)
    have hj := hhigh j hj
    rw [← hperm.length_eq] at hj
    obtain ⟨items'', hswap, hperm'⟩ := exists_swapRows items' (Nat.lt_of_succ_lt hj) hj
    exact ⟨items'', hswap, hperm'.trans hperm⟩
  have hback := foldlM_reverse (f := swapUp) (fun _ _ _ => swapRows_swapRows) hfold
  rw [List.reverse_reverse] at hback
  obtain ⟨items'', hfold', hshifted⟩ := exists_shiftedUp items'
    (List.pairwise_map.2 (hsorted.imp fun hlt => Nat.succ_lt_succ hlt))
    (fun i hi => by
      obtain ⟨j, -, rfl⟩ := List.mem_map.1 hi
      exact Nat.succ_pos j)
    (fun i hi => by
      obtain ⟨j, hj, rfl⟩ := List.mem_map.1 hi
      rw [hperm.length_eq]
      exact hhigh j hj)
  obtain rfl : items'' = items := Option.some_inj.1 (hfold'.symm.trans hback)
  exact ⟨items', hfold, hshifted.reverse⟩

end Shift

/-! ### The commands -/

namespace LegacyList

variable (list : LegacyList) (selected : List ℕ)

theorem moveRowsEarlierChanged_blocked
    (h : normalizedIndices selected list.items.length = [] ∨
      0 ∈ normalizedIndices selected list.items.length) :
    list.moveRowsEarlierChanged selected =
      some (⟨normalizedIndices selected list.items.length, false⟩, list) := by
  unfold moveRowsEarlierChanged
  dsimp only
  split
  · rfl
  · rename_i hfirst
    rcases h with hnil | hzero
    · rw [hnil]
      rfl
    · exact absurd (pos_of_mem_normalizedIndices hfirst hzero) (Nat.lt_irrefl 0)

/-- With no first row among them, the selected rows are swapped up one by one. -/
theorem moveRowsEarlierChanged_eq
    (h : 0 ∉ normalizedIndices selected list.items.length) :
    list.moveRowsEarlierChanged selected =
      ((normalizedIndices selected list.items.length).foldlM swapUp list.items).map fun items =>
        (⟨(normalizedIndices selected list.items.length).map (· - 1),
          !(normalizedIndices selected list.items.length).isEmpty⟩,
          { list with items := items }) := by
  have hfirst : ¬(normalizedIndices selected list.items.length).head? = some 0 :=
    fun hhead => h (List.mem_of_head? hhead)
  have hsub (i : ℕ) (hi : i ∈ normalizedIndices selected list.items.length) :
      checkedSub i 1 = some (i - 1) :=
    checkedSub_eq_some.2 ⟨pos_of_mem_normalizedIndices hfirst hi, rfl⟩
  unfold moveRowsEarlierChanged
  dsimp only
  rw [if_neg hfirst, mapM_eq_map hsub, foldlM_congr (g := swapUp) fun items i hi => by
    simp [hsub i hi, swapUp]]
  cases (normalizedIndices selected list.items.length).foldlM swapUp list.items with
  | none => rfl
  | some items => rfl

theorem moveRowsLaterChanged_blocked
    (h : normalizedIndices selected list.items.length = [] ∨
      ∃ i ∈ normalizedIndices selected list.items.length, i + 1 = list.items.length) :
    list.moveRowsLaterChanged selected =
      some (⟨normalizedIndices selected list.items.length, false⟩, list) := by
  unfold moveRowsLaterChanged
  dsimp only
  split
  · rfl
  · rename_i hlast
    rcases h with hnil | ⟨i, hi, heq⟩
    · rw [hnil]
      rfl
    · exact absurd (succ_lt_of_mem_normalizedIndices hlast hi) (heq ▸ Nat.lt_irrefl _)

/-- With no last row among them, the selected rows are swapped down, the last one first. -/
theorem moveRowsLaterChanged_eq
    (h : ∀ i ∈ normalizedIndices selected list.items.length, i + 1 ≠ list.items.length) :
    list.moveRowsLaterChanged selected =
      (((normalizedIndices selected list.items.length).map (· + 1)).reverse.foldlM swapUp
        list.items).map fun items =>
        (⟨(normalizedIndices selected list.items.length).map (· + 1),
          !(normalizedIndices selected list.items.length).isEmpty⟩,
          { list with items := items }) := by
  have hlast : ¬(normalizedIndices selected list.items.length).getLast?.any
      fun index => index + 1 = list.items.length := by
    cases hrows : (normalizedIndices selected list.items.length).getLast? with
    | none => simp
    | some last => simpa using h last (List.mem_of_getLast? hrows)
  unfold moveRowsLaterChanged
  dsimp only
  rw [if_neg hlast, ← List.map_reverse, List.foldlM_map]
  have hswap : (fun (items : List LegacyListItem) (i : ℕ) => swapRows items i (i + 1)) =
      fun items i => swapUp items (i + 1) := rfl
  rw [hswap]
  cases (normalizedIndices selected list.items.length).reverse.foldlM
      (fun items i => swapUp items (i + 1)) list.items with
  | none => rfl
  | some items => rfl

/-- A selection in order, without duplicates and within the rows, is as it should be. -/
theorem normalizedIndices_eq_self {rows : List ℕ} {length : ℕ} (hsorted : rows.Pairwise (· < ·))
    (hlt : ∀ i ∈ rows, i < length) : normalizedIndices rows length = rows := by
  have hnormalized := normalizedIndices_pairwise rows length
  have hmem (i : ℕ) : i ∈ normalizedIndices rows length ↔ i ∈ rows :=
    mem_normalizedIndices.trans (and_iff_left_of_imp (hlt i))
  have hperm : (normalizedIndices rows length).Perm rows :=
    (List.perm_ext_iff_of_nodup (hnormalized.imp fun hlt => Nat.ne_of_lt hlt)
      (hsorted.imp fun hlt => Nat.ne_of_lt hlt)).2 hmem
  exact List.Perm.eq_of_pairwise
    (fun a b _ _ hab hba => absurd hab (Nat.lt_asymm hba)) hnormalized hsorted hperm

/-- A move up, and the move down of the rows it returns. -/
theorem moveRowsEarlierChanged_spec (list : LegacyList) {selected rows : List ℕ}
    (hrows : normalizedIndices selected list.items.length = rows) (hne : rows ≠ [])
    (hzero : 0 ∉ rows) :
    ∃ items, Shifted (· - 1) rows list.items items ∧
      list.moveRowsEarlierChanged selected =
        some (⟨rows.map (· - 1), true⟩, { list with items := items }) ∧
      moveRowsLaterChanged { list with items := items } (rows.map (· - 1)) =
        some (⟨rows, true⟩, list) := by
  have hsorted := normalizedIndices_pairwise selected list.items.length
  have hlt (i : ℕ) (hi : i ∈ rows) : i < list.items.length :=
    (mem_normalizedIndices.1 (hrows ▸ hi)).2
  have hpos (i : ℕ) (hi : i ∈ rows) : 0 < i := by
    rcases Nat.eq_zero_or_pos i with rfl | hi'
    · exact absurd hi hzero
    · exact hi'
  rw [hrows] at hsorted
  obtain ⟨items, hfold, hshifted⟩ := exists_shiftedUp list.items hsorted hpos hlt
  have hlength := hshifted.perm.length_eq
  have hisEmpty : rows.isEmpty = false := by simpa using hne
  -- The returned rows are a selection as it should be.
  have hback : normalizedIndices (rows.map (· - 1)) items.length = rows.map (· - 1) := by
    refine normalizedIndices_eq_self ?_ fun i hi => ?_
    · refine List.pairwise_map.2 (hsorted.imp_of_mem fun {a b} ha hb hab => ?_)
      have := hpos a ha
      omega
    · obtain ⟨j, hj, rfl⟩ := List.mem_map.1 hi
      have := hlt j hj
      omega
  have hrestored : (rows.map (· - 1)).map (· + 1) = rows := by
    rw [List.map_map]
    exact (List.map_congr_left fun i hi => Nat.sub_add_cancel (hpos i hi)).trans (List.map_id rows)
  refine ⟨items, hshifted, ?_, ?_⟩
  · rw [moveRowsEarlierChanged_eq list selected (by rwa [hrows]), hrows, hfold, hisEmpty]
    rfl
  · have hopen (i : ℕ) (hi : i ∈ normalizedIndices (rows.map (· - 1)) items.length) :
        i + 1 ≠ items.length := by
      rw [hback] at hi
      obtain ⟨j, hj, rfl⟩ := List.mem_map.1 hi
      have := hlt j hj
      have := hpos j hj
      omega
    have htaken := foldlM_reverse (f := swapUp) (fun _ _ _ => swapRows_swapRows) hfold
    rw [moveRowsLaterChanged_eq { list with items := items } _ hopen]
    simp only [hback, hrestored, htaken, Option.map_some]
    simp [hne]

/-- A move down, and the move up of the rows it returns. -/
theorem moveRowsLaterChanged_spec (list : LegacyList) {selected rows : List ℕ}
    (hrows : normalizedIndices selected list.items.length = rows) (hne : rows ≠ [])
    (hopen : ∀ i ∈ rows, i + 1 ≠ list.items.length) :
    ∃ items, Shifted (· + 1) rows list.items items ∧
      list.moveRowsLaterChanged selected =
        some (⟨rows.map (· + 1), true⟩, { list with items := items }) ∧
      moveRowsEarlierChanged { list with items := items } (rows.map (· + 1)) =
        some (⟨rows, true⟩, list) := by
  have hsorted := normalizedIndices_pairwise selected list.items.length
  have hlt (i : ℕ) (hi : i ∈ rows) : i + 1 < list.items.length :=
    Nat.lt_of_le_of_ne (mem_normalizedIndices.1 (hrows ▸ hi)).2 (hopen i hi)
  rw [hrows] at hsorted
  obtain ⟨items, hfold, hshifted⟩ := exists_shiftedDown hsorted hlt
  have hlength := hshifted.perm.length_eq
  have hisEmpty : rows.isEmpty = false := by simpa using hne
  have hback : normalizedIndices (rows.map (· + 1)) items.length = rows.map (· + 1) := by
    refine normalizedIndices_eq_self ?_ fun i hi => ?_
    · exact List.pairwise_map.2 (hsorted.imp fun hab => Nat.succ_lt_succ hab)
    · obtain ⟨j, hj, rfl⟩ := List.mem_map.1 hi
      rw [hlength]
      exact hlt j hj
  have hrestored : (rows.map (· + 1)).map (· - 1) = rows := by
    simp [Function.comp_def]
  refine ⟨items, hshifted, ?_, ?_⟩
  · rw [moveRowsLaterChanged_eq list selected (by rwa [hrows]), hrows, hfold, hisEmpty]
    rfl
  · have hzero : 0 ∉ normalizedIndices (rows.map (· + 1)) items.length := by
      rw [hback]
      simp
    have htaken := foldlM_reverse (f := swapUp) (fun _ _ _ => swapRows_swapRows) hfold
    rw [List.reverse_reverse] at htaken
    rw [moveRowsEarlierChanged_eq { list with items := items } _ hzero]
    simp only [hback, hrestored, htaken, Option.map_some]
    simp [hne]

/-- In any case the rows are permuted. -/
theorem moveRowsEarlierChanged_perm :
    ∃ outcome items, items.Perm list.items ∧
      list.moveRowsEarlierChanged selected = some (outcome, { list with items := items }) := by
  by_cases hblocked : normalizedIndices selected list.items.length = [] ∨
      0 ∈ normalizedIndices selected list.items.length
  · exact ⟨_, list.items, .refl _, moveRowsEarlierChanged_blocked list selected hblocked⟩
  · obtain ⟨hne, hzero⟩ := not_or.1 hblocked
    obtain ⟨items, hshifted, hmoved, -⟩ := list.moveRowsEarlierChanged_spec rfl hne hzero
    exact ⟨_, items, hshifted.perm, hmoved⟩

theorem moveRowsLaterChanged_perm :
    ∃ outcome items, items.Perm list.items ∧
      list.moveRowsLaterChanged selected = some (outcome, { list with items := items }) := by
  by_cases hblocked : normalizedIndices selected list.items.length = [] ∨
      ∃ i ∈ normalizedIndices selected list.items.length, i + 1 = list.items.length
  · exact ⟨_, list.items, .refl _, moveRowsLaterChanged_blocked list selected hblocked⟩
  · obtain ⟨hne, hopen⟩ := not_or.1 hblocked
    obtain ⟨items, hshifted, hmoved, -⟩ := list.moveRowsLaterChanged_spec rfl hne
      fun i hi heq => hopen ⟨i, hi, heq⟩
    exact ⟨_, items, hshifted.perm, hmoved⟩

end LegacyList

/-- A move in either direction does nothing when nothing is selected or the selection touches
the end it would leave; else it puts every selected row one place further, keeps the order of
the others, and the opposite move of the returned rows takes it back. -/
theorem moveRows_exact (list : LegacyList) (selected : List ℕ) :
    ∃ rows : List ℕ, rows.Pairwise (· < ·) ∧
      (∀ i, i ∈ rows ↔ i ∈ selected ∧ i < list.items.length) ∧
      (rows = [] ∨ 0 ∈ rows →
        list.moveRowsEarlierChanged selected = some (⟨rows, false⟩, list)) ∧
      (rows ≠ [] → 0 ∉ rows → ∃ items, Shifted (· - 1) rows list.items items ∧
        list.moveRowsEarlierChanged selected =
          some (⟨rows.map (· - 1), true⟩, { list with items := items }) ∧
        LegacyList.moveRowsLaterChanged { list with items := items } (rows.map (· - 1)) =
          some (⟨rows, true⟩, list)) ∧
      (rows = [] ∨ (∃ i ∈ rows, i + 1 = list.items.length) →
        list.moveRowsLaterChanged selected = some (⟨rows, false⟩, list)) ∧
      (rows ≠ [] → (∀ i ∈ rows, i + 1 ≠ list.items.length) → ∃ items,
        Shifted (· + 1) rows list.items items ∧
        list.moveRowsLaterChanged selected =
          some (⟨rows.map (· + 1), true⟩, { list with items := items }) ∧
        LegacyList.moveRowsEarlierChanged { list with items := items } (rows.map (· + 1)) =
          some (⟨rows, true⟩, list)) :=
  ⟨LegacyList.normalizedIndices selected list.items.length,
    LegacyList.normalizedIndices_pairwise _ _, fun _ => LegacyList.mem_normalizedIndices,
    list.moveRowsEarlierChanged_blocked selected, list.moveRowsEarlierChanged_spec rfl,
    list.moveRowsLaterChanged_blocked selected, list.moveRowsLaterChanged_spec rfl⟩

end DarkReNamer
