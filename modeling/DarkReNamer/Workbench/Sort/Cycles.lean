import DarkReNamer.Workbench.Rows
import DarkReNamer.Workbench.Sort

/-!
# Placing rows in place

While a cycle is followed, the row that stood at its start travels along: it stands at the
current position, and the position that is to get it in the end still points to the start.
Every other place is to get the row that its position points to, and no two places point to the
same one. So each step puts one row into its place, and the cycle closes.
-/

namespace DarkReNamer

variable {α : Type} {t : ℕ → Option α} {start current next : ℕ} {order : List ℕ}
  {items items' : List α}

/-- Positions and rows belong together: every position is one of a row. -/
structure Placing (order : List ℕ) (items : List α) : Prop where
  length_eq : order.length = items.length
  lt_length : ∀ position ∈ order, position < items.length

theorem Placing.mark (h : Placing order items) (hcurrent : current < items.length) :
    Placing (order.set current current) items := by
  refine ⟨by simpa using h.length_eq, fun position hposition => ?_⟩
  rcases List.mem_or_eq_of_mem_set hposition with hposition | rfl
  · exact h.lt_length position hposition
  · exact hcurrent

theorem Placing.perm (h : Placing order items) (hperm : items'.Perm items) :
    Placing order items' :=
  ⟨h.length_eq.trans hperm.length_eq.symm, by rw [hperm.length_eq]; exact h.lt_length⟩

/-- Between two cycles: place `i` is to get `t i`, and its position points to it. -/
structure Pointing (t : ℕ → Option α) (order : List ℕ) (items : List α) : Prop where
  placing : Placing order items
  injective : ∀ i j k : ℕ, order[i]? = some k → order[j]? = some k → i = j
  aims : ∀ i k : ℕ, order[i]? = some k → items[k]? = t i

/-- On a cycle: the row from its start stands at `current`. -/
structure OnCycle (t : ℕ → Option α) (start current : ℕ) (order : List ℕ) (items : List α) :
    Prop where
  placing : Placing order items
  ne : current ≠ start
  lt : current < items.length
  marked : order[start]? = some start
  injective : ∀ i j k : ℕ, i ≠ start → j ≠ start →
    order[i]? = some k → order[j]? = some k → i = j
  free : ∀ i : ℕ, i ≠ start → order[i]? ≠ some current
  carried : ∀ i : ℕ, i ≠ start → order[i]? = some start → items[current]? = t i
  aims : ∀ i k : ℕ, order[i]? = some k → (k = start → i = start) → items[k]? = t i

/-! ### Marks and swaps -/

/-- A mark keeps the marks. -/
theorem getElem?_mark {i : ℕ} (hi : order[i]? = some i) (current : ℕ) :
    (order.set current current)[i]? = some i := by
  by_cases heq : current = i
  · subst heq
    rw [List.getElem?_set_self (List.getElem?_eq_some_iff.1 hi).1]
  · rwa [List.getElem?_set_ne heq]

theorem getElem?_set_mark {i k : ℕ} (h : (order.set current current)[i]? = some k) :
    current = i ∧ current = k ∨ i ≠ current ∧ order[i]? = some k := by
  by_cases heq : current = i
  · subst heq
    have hlt : current < order.length := by
      have := (List.getElem?_eq_some_iff.1 h).1
      simpa using this
    rw [List.getElem?_set_self hlt] at h
    exact .inl ⟨rfl, Option.some_inj.1 h⟩
  · rw [List.getElem?_set_ne heq] at h
    exact .inr ⟨fun h' => heq h'.symm, h⟩

section Swapped

variable {i j : ℕ} (h : swapRows items i j = some items')

include h

theorem getElem?_swapRows_right : items'[j]? = items[i]? := by
  obtain ⟨a, b, ha, hb, rfl⟩ := swapRows_eq_some.1 h
  rw [List.getElem?_set_self (by simpa using (List.getElem?_eq_some_iff.1 hb).1), ha]

theorem getElem?_swapRows_left : items'[i]? = items[j]? := by
  obtain ⟨a, b, ha, hb, rfl⟩ := swapRows_eq_some.1 h
  by_cases heq : j = i
  · subst heq
    rw [List.getElem?_set_self (by simpa using (List.getElem?_eq_some_iff.1 hb).1), ha]
  · rw [List.getElem?_set_ne heq,
      List.getElem?_set_self (List.getElem?_eq_some_iff.1 ha).1, hb]

theorem getElem?_swapRows_ne {k : ℕ} (hi : k ≠ i) (hj : k ≠ j) : items'[k]? = items[k]? := by
  obtain ⟨a, b, -, -, rfl⟩ := swapRows_eq_some.1 h
  rw [List.getElem?_set_ne hj.symm, List.getElem?_set_ne hi.symm]

end Swapped

/-! ### One step -/

/-- The first row of a cycle is put into its place, and the one that stood there sets out. -/
theorem Pointing.enter (h : Pointing t order items) (hnext : order[start]? = some next)
    (hne : next ≠ start) (hswap : swapRows items start next = some items')
    (hperm : items'.Perm items) : OnCycle t start next (order.set start start) items' where
  placing := (h.placing.mark (h.placing.length_eq ▸ (List.getElem?_eq_some_iff.1 hnext).1)).perm
    hperm
  ne := hne
  lt := hperm.length_eq ▸ h.placing.lt_length next (List.mem_of_getElem? hnext)
  marked := List.getElem?_set_self (List.getElem?_eq_some_iff.1 hnext).1
  injective i j k hi hj hik hjk := by
    rw [List.getElem?_set_ne hi.symm] at hik
    rw [List.getElem?_set_ne hj.symm] at hjk
    exact h.injective i j k hik hjk
  free i hi hpoints := by
    rw [List.getElem?_set_ne hi.symm] at hpoints
    exact hi (h.injective i start next hpoints hnext)
  carried i hi hpoints := by
    rw [List.getElem?_set_ne hi.symm] at hpoints
    rw [getElem?_swapRows_right hswap]
    exact h.aims i start hpoints
  aims i k hik hstart := by
    rcases getElem?_set_mark hik with ⟨rfl, rfl⟩ | ⟨hi, hik⟩
    · rw [getElem?_swapRows_left hswap]
      exact h.aims start next hnext
    · have hk : k ≠ start := fun hk => hi (hstart hk)
      have hk' : k ≠ next := by
        rintro rfl
        exact hi (h.injective i start k hik hnext)
      rw [getElem?_swapRows_ne hswap hk hk']
      exact h.aims i k hik

namespace OnCycle

/-- No other place points to the row that travels. -/
theorem ne_of_getElem? (h : OnCycle t start current order items) {i k : ℕ}
    (hik : order[i]? = some k) (hi : i ≠ current) : k ≠ current := by
  by_cases heq : i = start
  · subst heq
    obtain rfl : i = k := Option.some_inj.1 (h.marked.symm.trans hik)
    exact hi
  · intro hk
    exact h.free i heq (hk ▸ hik)

theorem eq_of_getElem? (h : OnCycle t start current order items) {i j k : ℕ}
    (hik : order[i]? = some k) (hjk : order[j]? = some k) (hk : k ≠ start) : i = j := by
  have hne : ∀ i : ℕ, order[i]? = some k → i ≠ start := by
    intro i hik heq
    rw [heq, h.marked] at hik
    exact hk (Option.some_inj.1 hik).symm
  exact h.injective i j k (hne i hik) (hne j hjk) hik hjk

/-- Besides the start itself only the end of the cycle points to the start. -/
theorem eq_start (h : OnCycle t start current order items) {i : ℕ}
    (hi : order[i]? = some start) (hnext : order[current]? = some start) (hne : i ≠ current) :
    i = start := by
  by_contra hstart
  exact hne (h.injective i current start hstart h.ne hi hnext)

/-- The next row is put into its place. -/
theorem step (h : OnCycle t start current order items) (hnext : order[current]? = some next)
    (hstart : next ≠ start) (hswap : swapRows items current next = some items')
    (hperm : items'.Perm items) : OnCycle t start next (order.set current current) items' where
  placing := (h.placing.mark h.lt).perm hperm
  ne := hstart
  lt := hperm.length_eq ▸ h.placing.lt_length next (List.mem_of_getElem? hnext)
  marked := getElem?_mark h.marked current
  injective i j k hi hj hik hjk := by
    rcases getElem?_set_mark hik with ⟨rfl, rfl⟩ | ⟨-, hik⟩
    · rcases getElem?_set_mark hjk with ⟨rfl, -⟩ | ⟨-, hjk⟩
      · rfl
      · exact absurd hjk (h.free j hj)
    · rcases getElem?_set_mark hjk with ⟨rfl, rfl⟩ | ⟨-, hjk⟩
      · exact absurd hik (h.free i hi)
      · exact h.injective i j k hi hj hik hjk
  free i hi hpoints := by
    rcases getElem?_set_mark hpoints with ⟨-, rfl⟩ | ⟨hcurrent, hpoints⟩
    · exact h.free current h.ne hnext
    · exact hcurrent (h.injective i current next hi h.ne hpoints hnext)
  carried i hi hpoints := by
    rcases getElem?_set_mark hpoints with ⟨-, hcurrent⟩ | ⟨-, hpoints⟩
    · exact absurd hcurrent h.ne
    · rw [getElem?_swapRows_right hswap]
      exact h.carried i hi hpoints
  aims i k hik hk := by
    rcases getElem?_set_mark hik with ⟨rfl, rfl⟩ | ⟨hi, hik⟩
    · rw [getElem?_swapRows_left hswap]
      exact h.aims current next hnext fun heq => absurd heq hstart
    · rw [getElem?_swapRows_ne hswap (h.ne_of_getElem? hik hi) ?_]
      · exact h.aims i k hik hk
      · rintro rfl
        exact hi (h.eq_of_getElem? hik hnext hstart)

/-- The cycle closes: the row from its start is where it belongs. -/
theorem close (h : OnCycle t start current order items) (hnext : order[current]? = some start) :
    Pointing t (order.set current current) items where
  placing := h.placing.mark h.lt
  injective i j k hik hjk := by
    rcases getElem?_set_mark hik with ⟨rfl, rfl⟩ | ⟨hi, hik'⟩
    · rcases getElem?_set_mark hjk with ⟨rfl, -⟩ | ⟨hj, hjk'⟩
      · rfl
      · exact absurd rfl (h.ne_of_getElem? hjk' hj)
    · rcases getElem?_set_mark hjk with ⟨rfl, rfl⟩ | ⟨hj, hjk'⟩
      · exact absurd rfl (h.ne_of_getElem? hik' hi)
      · by_cases hk : k = start
        · subst hk
          rw [h.eq_start hik' hnext hi, h.eq_start hjk' hnext hj]
        · exact h.eq_of_getElem? hik' hjk' hk
  aims i k hik := by
    rcases getElem?_set_mark hik with ⟨rfl, rfl⟩ | ⟨hi, hik⟩
    · exact h.carried current h.ne hnext
    · refine h.aims i k hik ?_
      rintro rfl
      exact h.eq_start hik hnext hi

end OnCycle

/-! ### Cycles -/

/-- A cycle that is followed to its end leaves its start, and what was filled before, filled. -/
structure Followed (t : ℕ → Option α) (start : ℕ) (order : List ℕ) (items : List α)
    (order' : List ℕ) (items' : List α) : Prop where
  pointing : Pointing t order' items'
  perm : items'.Perm items
  filled : ∀ i : ℕ, order[i]? = some i → order'[i]? = some i
  start : order'[start]? = some start

theorem OnCycle.followCycle (h : OnCycle t start current order items) :
    ∃ order' items', followCycle start order items current = some (order', items') ∧
      Followed t start order items order' items' := by
  induction order, items, current using DarkReNamer.followCycle.induct start with
  | case1 order items current hnone =>
      have := List.getElem?_eq_none_iff.1 hnone
      have := h.placing.length_eq
      have := h.lt
      omega
  | case2 order items current hself => exact absurd hself (h.free current h.ne)
  | case3 order items current hnext hne =>
      refine ⟨order.set current current, items, ?_, h.close hnext, .refl items, ?_, ?_⟩
      · simp [followCycle_eq hnext, hne]
      · exact fun i hi => getElem?_mark hi current
      · exact getElem?_mark h.marked current
  | case4 order items current next hnext hne hstart ih =>
      have hlt := h.placing.lt_length next (List.mem_of_getElem? hnext)
      obtain ⟨items', hswap, hperm⟩ := exists_swapRows items h.lt hlt
      obtain ⟨order', items'', hrest, hfollowed⟩ := ih items' (h.step hnext hstart hswap hperm)
      refine ⟨order', items'', ?_, hfollowed.pointing, hfollowed.perm.trans hperm, ?_,
        hfollowed.start⟩
      · simp [followCycle_eq hnext, hne, hstart, hswap, hrest]
      · exact fun i hi => hfollowed.filled i (getElem?_mark hi current)

theorem Pointing.followCycle (h : Pointing t order items) (hstart : start < items.length) :
    ∃ order' items', followCycle start order items start = some (order', items') ∧
      Followed t start order items order' items' := by
  obtain ⟨next, hnext⟩ : ∃ next, order[start]? = some next :=
    ⟨_, List.getElem?_eq_getElem (h.placing.length_eq ▸ hstart)⟩
  by_cases hne : next = start
  · subst hne
    refine ⟨order, items, ?_, h, .refl items, fun _ hi => hi, hnext⟩
    simp [followCycle_eq hnext]
  · have hlt := h.placing.lt_length next (List.mem_of_getElem? hnext)
    obtain ⟨items', hswap, hperm⟩ := exists_swapRows items hstart hlt
    obtain ⟨order', items'', hrest, hfollowed⟩ := (h.enter hnext hne hswap hperm).followCycle
    refine ⟨order', items'', ?_, hfollowed.pointing, hfollowed.perm.trans hperm, ?_,
      hfollowed.start⟩
    · simp [followCycle_eq hnext, hne, hswap, hrest]
    · exact fun i hi => hfollowed.filled i (getElem?_mark hi start)

/-- After the cycles from the first `n` positions, these are filled. -/
theorem Pointing.foldlM_followCycle (h : Pointing t order items) {n : ℕ}
    (hn : n ≤ items.length) :
    ∃ order' items', (List.range n).foldlM
        (fun (state : List ℕ × List α) start =>
          DarkReNamer.followCycle start state.1 state.2 start) (order, items) =
        some (order', items') ∧
      Pointing t order' items' ∧ items'.Perm items ∧ ∀ i < n, order'[i]? = some i := by
  induction n with
  | zero => exact ⟨order, items, rfl, h, .refl items, fun i hi => absurd hi (Nat.not_lt_zero i)⟩
  | succ n ih =>
      obtain ⟨order', items', hfold, hpointing, hperm, hfilled⟩ := ih (Nat.le_of_succ_le hn)
      obtain ⟨order'', items'', hcycle, hfollowed⟩ :=
        hpointing.followCycle (hperm.length_eq ▸ hn)
      refine ⟨order'', items'', ?_, hfollowed.pointing, hfollowed.perm.trans hperm, ?_⟩
      · rw [List.range_succ, List.foldlM_append, hfold]
        simp [hcycle]
      · intro i hi
        rcases Nat.lt_succ_iff_lt_or_eq.1 hi with hi | rfl
        · exact hfollowed.filled i (hfilled i hi)
        · exact hfollowed.start

/-- Every place gets the row that its position points to. -/
theorem placeRows_spec {order : List ℕ} {items : List α}
    (hperm : order.Perm (List.range items.length)) :
    ∃ items', placeRows order items = some items' ∧ items'.Perm items ∧
      items'.map some = order.map (items[·]?) := by
  have hlength : order.length = items.length := by rw [hperm.length_eq, List.length_range]
  have hlt : ∀ position ∈ order, position < items.length := fun position hposition =>
    List.mem_range.1 (hperm.mem_iff.1 hposition)
  have hnodup : order.Nodup := hperm.nodup_iff.2 List.nodup_range
  have hpointing : Pointing (fun i => order[i]?.bind (items[·]?)) order items := by
    refine ⟨⟨hlength, hlt⟩, fun i j k hik hjk => ?_, fun i k hik => ?_⟩
    · have hi : i < order.length := (List.getElem?_eq_some_iff.1 hik).1
      exact (List.getElem?_inj hi hnodup).1 (hik.trans hjk.symm)
    · simp [hik]
  obtain ⟨order', items', hfold, hpointing', hperm', hfilled⟩ :=
    hpointing.foldlM_followCycle (Nat.le_of_eq hlength)
  refine ⟨items', by simp [placeRows, hfold], hperm', List.ext_getElem? fun i => ?_⟩
  rw [List.getElem?_map, List.getElem?_map]
  by_cases hi : i < order.length
  · have hitem := hpointing'.aims i i (hfilled i (hlength ▸ hi))
    have hposition : order[i] < items.length := hlt order[i] (List.getElem_mem hi)
    rw [hitem]
    simp [hi, hposition]
  · simp [hi, hperm'.length_eq, ← hlength]

end DarkReNamer
