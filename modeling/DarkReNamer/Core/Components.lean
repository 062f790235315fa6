import Mathlib.Data.List.TakeWhile
import Mathlib.Tactic.Common

/-!
# Components of a list

A list cut by separators into its components, the nonempty runs between them. `cuts p l` are
the beginnings of `l` that end right before a separator, the longest first. For each proper
beginning of the components there is a cut that has just these; among the first `n` cuts there
is one for each exactly when what follows the first component has fewer than `n` separators.
-/

namespace DarkReNamer

variable {α : Type} {p : α → Bool} {front back l q : List α} {a : α}

/-- The nonempty runs between separators. -/
def components (p : α → Bool) (l : List α) : List (List α) :=
  (l.splitOnP p).filter fun run => !run.isEmpty

theorem components_append_cons (front back : List α) (ha : p a = true) :
    components p (front ++ a :: back) = components p front ++ components p back := by
  rw [components, List.splitOnP_append_cons front back ha, List.filter_append]
  rfl

theorem components_cons (back : List α) (ha : p a = true) :
    components p (a :: back) = components p back :=
  components_append_cons [] back ha

@[simp] theorem components_nil : components p [] = [] := rfl

/-- A list without separators is one component. -/
theorem components_of_forall_not (hne : l ≠ []) (h : ∀ a ∈ l, p a = false) :
    components p l = [l] := by
  rw [components, List.splitOnP_eq_singleton h]
  simp [hne]

/-- Separators have no components. -/
theorem components_append_of_forall (front : List α) (h : ∀ a ∈ back, p a = true) :
    components p (front ++ back) = components p front := by
  induction back generalizing front with
  | nil => rw [List.append_nil]
  | cons a back ih =>
      have hback := ih [] fun b hb => h b (List.mem_cons_of_mem _ hb)
      rw [components_append_cons front back (h a List.mem_cons_self), ← List.nil_append back,
        hback, components_nil, List.append_nil]

theorem components_of_forall_append (back : List α) (h : ∀ a ∈ front, p a = true) :
    components p (front ++ back) = components p back := by
  induction front with
  | nil => rfl
  | cons a front ih =>
      rw [List.cons_append, components_cons _ (h a List.mem_cons_self)]
      exact ih fun b hb => h b (List.mem_cons_of_mem _ hb)

theorem components_ne_nil (ha : a ∈ l) (hnot : p a = false) : components p l ≠ [] := by
  induction l with
  | nil => cases ha
  | cons b l ih =>
      cases hb : p b with
      | true =>
          rcases List.mem_cons.1 ha with rfl | ha
          · rw [hnot] at hb
            cases hb
          · rw [components_cons l hb]
            exact ih ha
      | false =>
          obtain ⟨run, runs, hruns⟩ := List.exists_cons_of_ne_nil (List.splitOnP_ne_nil p l)
          simp [components, List.splitOnP_cons_eq_if_modifyHead, hb, hruns]

/-- The beginnings that end right before a separator, the longest first. -/
def cuts (p : α → Bool) : List α → List (List α)
  | [] => []
  | a :: l => (cuts p l).map (a :: ·) ++ if p a then [[]] else []

theorem cuts_append (front back : List α) :
    cuts p (front ++ back) = (cuts p back).map (front ++ ·) ++ cuts p front := by
  induction front with
  | nil => simp [cuts]
  | cons a front ih =>
      rw [List.cons_append, cuts, cuts, ih]
      simp [Function.comp_def]

theorem length_cuts (l : List α) : (cuts p l).length = l.countP p := by
  induction l with
  | nil => rfl
  | cons a l ih =>
      rw [cuts, List.length_append, List.length_map, ih, List.countP_cons]
      split <;> rfl

theorem cuts_of_forall_not (h : ∀ a ∈ l, p a = false) : cuts p l = [] := by
  rw [← List.length_eq_zero_iff, length_cuts, List.countP_eq_zero]
  simpa using h

/-- The cuts behind a separator come first. -/
theorem cuts_append_cons (front back : List α) (ha : p a = true) :
    cuts p (front ++ a :: back) =
      (cuts p back).map (fun b => front ++ a :: b) ++ front :: cuts p front := by
  rw [cuts_append, cuts, if_pos ha]
  simp [Function.comp_def]

/-- The longest cut ends before the last separator, and the others are its cuts. -/
theorem cuts_append_cons_of_forall_not (front : List α) (ha : p a = true)
    (h : ∀ b ∈ back, p b = false) :
    cuts p (front ++ a :: back) = front :: cuts p front := by
  rw [cuts_append_cons front back ha, cuts_of_forall_not h]
  rfl

theorem exists_of_mem_cuts (h : q ∈ cuts p l) : ∃ a back, l = q ++ a :: back ∧ p a = true := by
  induction l generalizing q with
  | nil => cases h
  | cons a l ih =>
      rw [cuts, List.mem_append, List.mem_map] at h
      rcases h with ⟨q, hq, rfl⟩ | h
      · obtain ⟨b, back, rfl, hb⟩ := ih hq
        exact ⟨b, back, rfl, hb⟩
      · split at h
        · next ha =>
            obtain rfl := List.mem_singleton.1 h
            exact ⟨a, l, rfl, ha⟩
        · cases h

/-- What follows the first component and the separators behind it. -/
def belowFirst (p : α → Bool) (l : List α) : List α :=
  ((l.dropWhile p).dropWhile fun a => !p a).dropWhile p

section BelowFirst

theorem head_belowFirst (h : belowFirst p l ≠ []) :
    ∃ a back, belowFirst p l = a :: back ∧ p a = false :=
  ⟨_, _, (List.cons_head_tail h).symm, List.head_dropWhile_not p h⟩

/-- What is left after `dropWhile` begins with a run of the others. -/
theorem dropWhile_eq_nil_of_takeWhile {q : α → Bool}
    (h : (l.dropWhile q).takeWhile (fun a => !q a) = []) : l.dropWhile q = [] := by
  induction l with
  | nil => rfl
  | cons a l ih =>
      cases ha : q a with
      | true =>
          rw [List.dropWhile_cons, if_pos ha] at h ⊢
          exact ih h
      | false => simp [ha] at h

/-- A list is a run of separators, its first component, the gap behind it, and the rest. -/
theorem exists_runs (p : α → Bool) (l : List α) : ∃ lead first gap,
    l = lead ++ (first ++ (gap ++ belowFirst p l)) ∧ (∀ a ∈ lead, p a = true) ∧
      (∀ a ∈ first, p a = false) ∧ (∀ a ∈ gap, p a = true) ∧
      (first = [] → gap ++ belowFirst p l = []) ∧ (gap = [] → belowFirst p l = []) := by
  refine ⟨l.takeWhile p, (l.dropWhile p).takeWhile fun a => !p a,
    ((l.dropWhile p).dropWhile fun a => !p a).takeWhile p, ?_, ?_, ?_, ?_, ?_, ?_⟩
  · simp only [belowFirst, List.takeWhile_append_dropWhile]
  · exact fun a ha => List.mem_takeWhile_imp ha
  · exact fun a ha => by simpa using List.mem_takeWhile_imp ha
  · exact fun a ha => List.mem_takeWhile_imp ha
  · intro hfirst
    rw [belowFirst, List.takeWhile_append_dropWhile, dropWhile_eq_nil_of_takeWhile hfirst]
    rfl
  · intro hgap
    have hnil : (l.dropWhile p).dropWhile (fun a => !p a) = [] :=
      dropWhile_eq_nil_of_takeWhile (by simpa using hgap)
    rw [belowFirst, hnil]
    rfl

theorem length_components_le_one (h : belowFirst p l = []) : (components p l).length ≤ 1 := by
  obtain ⟨lead, first, gap, hl, hlead, hfirst, hgap, -, -⟩ := exists_runs p l
  rw [hl, h, List.append_nil, components_of_forall_append _ hlead,
    components_append_of_forall _ hgap]
  by_cases hnil : first = []
  · simp [hnil]
  · simp [components_of_forall_not hnil hfirst]

/-- The separator before what is below the first component. -/
theorem exists_belowFirst (h : belowFirst p l ≠ []) : ∃ front a,
    l = front ++ a :: belowFirst p l ∧ p a = true ∧ (components p front).length = 1 := by
  obtain ⟨lead, first, gap, hl, hlead, hfirst, hgap, hfirst_ne, hgap_ne⟩ := exists_runs p l
  rcases List.eq_nil_or_concat gap with hnil | ⟨gap, a, rfl⟩
  · exact absurd (hgap_ne hnil) h
  have hne : first ≠ [] := fun hnil => h (List.append_eq_nil_iff.1 (hfirst_ne hnil)).2
  refine ⟨lead ++ (first ++ gap), a, ?_, hgap a (by simp), ?_⟩
  · conv_lhs => rw [hl]
    simp
  · rw [components_of_forall_append _ hlead,
      components_append_of_forall _ fun b hb => hgap b (by simp [hb]),
      components_of_forall_not hne hfirst]
    rfl

end BelowFirst

/-- A cut below the first component has a component. -/
theorem components_ne_nil_of_cut (h : q ∈ cuts p (belowFirst p l)) : components p q ≠ [] := by
  obtain ⟨c, back, hbelow, hc⟩ := exists_of_mem_cuts h
  have hne : belowFirst p l ≠ [] := by simp [hbelow]
  obtain ⟨b, rest, hhead, hb⟩ := head_belowFirst hne
  rw [hhead] at hbelow
  cases q with
  | nil =>
      obtain ⟨rfl, -⟩ := List.cons.inj hbelow
      rw [hb] at hc
      cases hc
  | cons d q =>
      obtain ⟨rfl, -⟩ := List.cons.inj hbelow
      exact components_ne_nil List.mem_cons_self hb

/-- For each proper beginning of the components there is a cut with just these, and what is
behind it is below the first component. -/
theorem exists_componentsCut {k : ℕ} (hpos : 0 < k) (hk : k < (components p l).length) :
    ∃ front a back, l = front ++ a :: back ∧ p a = true ∧
      components p front = (components p l).take k ∧ back <:+ belowFirst p l := by
  induction k generalizing l with
  | zero => cases hpos
  | succ k ih =>
      have hbelow : belowFirst p l ≠ [] := by
        intro hnil
        have hle := length_components_le_one hnil
        omega
      obtain ⟨front, a, hl, ha, hone⟩ := exists_belowFirst hbelow
      have hsplit : components p l = components p front ++ components p (belowFirst p l) := by
        conv_lhs => rw [hl]
        exact components_append_cons _ _ ha
      rcases Nat.eq_zero_or_pos k with rfl | hk_pos
      · refine ⟨front, a, belowFirst p l, hl, ha, ?_, List.suffix_refl _⟩
        rw [hsplit, List.take_left' hone]
      · rw [hsplit, List.length_append, hone] at hk
        obtain ⟨front', b, back, hback, hb, hcomponents, hsuffix⟩ :=
          ih (l := belowFirst p l) hk_pos (by omega)
        refine ⟨front ++ a :: front', b, back, ?_, hb, ?_, ?_⟩
        · conv_lhs => rw [hl, hback]
          simp
        · rw [components_append_cons _ _ ha, hcomponents, hsplit, List.take_append, hone]
          rw [List.take_of_length_le (by omega : (components p front).length ≤ k + 1)]
          rfl
        · exact ⟨front' ++ [b], by simp [hback]⟩

/-- Among the first `n` cuts there is one for each proper beginning of the components exactly
when fewer than `n` separators come below the first component. -/
theorem forall_exists_cut_iff {n : ℕ} (hn : 0 < n) :
    (∀ k, 0 < k → k < (components p l).length →
      ∃ q ∈ (cuts p l).take n, components p q = (components p l).take k) ↔
      (belowFirst p l).countP p < n := by
  constructor
  · intro h
    by_contra hmany
    have hbelow : belowFirst p l ≠ [] := by
      intro hnil
      rw [hnil] at hmany
      exact hmany hn
    obtain ⟨front, a, hl, ha, hone⟩ := exists_belowFirst hbelow
    obtain ⟨b, back, hhead, hb⟩ := head_belowFirst hbelow
    have hsplit : components p l = components p front ++ components p (belowFirst p l) := by
      conv_lhs => rw [hl]
      exact components_append_cons _ _ ha
    have hrest : components p (belowFirst p l) ≠ [] :=
      components_ne_nil (hhead ▸ List.mem_cons_self) hb
    have htwo := List.length_pos_iff.2 hrest
    obtain ⟨q, hq, hcomponents⟩ := h 1 Nat.one_pos (by rw [hsplit, List.length_append]; omega)
    -- the first cuts all reach below the first component
    rw [hl, cuts_append_cons _ _ ha, List.take_append_of_le_length (by
      rw [List.length_map, length_cuts]
      omega)] at hq
    obtain ⟨q, hcut, rfl⟩ := List.mem_map.1 (List.mem_of_mem_take hq)
    have hq_ne := components_ne_nil_of_cut hcut
    have hlength := congrArg List.length hcomponents
    rw [components_append_cons _ _ ha, List.length_append, hone, List.length_take] at hlength
    have hpos := List.length_pos_iff.2 hq_ne
    omega
  · intro hcount k hpos hk
    obtain ⟨front, a, back, hl, ha, hcomponents, hsuffix⟩ := exists_componentsCut hpos hk
    refine ⟨front, ?_, hcomponents⟩
    have hback : (cuts p back).length < n := by
      rw [length_cuts]
      exact (hsuffix.sublist.countP_le).trans_lt hcount
    rw [hl, cuts_append_cons _ _ ha, List.take_append, List.length_map]
    obtain ⟨m, hm⟩ : ∃ m, n - (cuts p back).length = m + 1 :=
      ⟨n - (cuts p back).length - 1, by omega⟩
    rw [hm, List.take_succ_cons]
    simp

end DarkReNamer
