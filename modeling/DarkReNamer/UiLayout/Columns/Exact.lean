import DarkReNamer.UiLayout.Columns
import Mathlib.Algebra.Order.BigOperators.Group.List
import Mathlib.Algebra.Order.Ring.Int

/-!
# The allocation is exact

Where the starting widths fit, each stage of the allocation moves pixels from what remains to
the automatic columns and nowhere else, so that at the end all of the budget is in the widths.
-/

namespace DarkReNamer

namespace UiLayout

theorem plain_eq {n : ℤ} (hmin : i32Min ≤ n) (hmax : n ≤ i32Max) : plain n = some n :=
  if_pos (clampI32_eq hmin hmax)

/-- The scaled minima and preferred widths, where the sum of the minima is in range. -/
structure Measures (dpi : ℕ) : Prop where
  minimum_nonneg : ∀ index, 0 ≤ minimumWidths dpi index
  minimum_le : ∀ index, minimumWidths dpi index ≤ preferredWidths dpi index
  preferred_le : ∀ index, preferredWidths dpi index ≤ i32Max
  lack_le : ∀ index, 2 * (preferredWidths dpi index - minimumWidths dpi index) ≤ i32Max

theorem measures_of_sum_le {dpi : ℕ}
    (h : minimumWidths dpi .current + minimumWidths dpi .proposed +
      minimumWidths dpi .location ≤ i32Max) :
    Measures dpi := by
  have hname : minimumWidths dpi .current = min ((120 * (dpi : ℤ) + 48) / 96) i32Max :=
    scaleDip_of_nonneg (by decide) dpi
  have hname' : minimumWidths dpi .proposed = min ((120 * (dpi : ℤ) + 48) / 96) i32Max :=
    scaleDip_of_nonneg (by decide) dpi
  have hlocation : minimumWidths dpi .location = min ((80 * (dpi : ℤ) + 48) / 96) i32Max :=
    scaleDip_of_nonneg (by decide) dpi
  have pname : preferredWidths dpi .current = min ((150 * (dpi : ℤ) + 48) / 96) i32Max :=
    scaleDip_of_nonneg (by decide) dpi
  have pname' : preferredWidths dpi .proposed = min ((150 * (dpi : ℤ) + 48) / 96) i32Max :=
    scaleDip_of_nonneg (by decide) dpi
  have plocation : preferredWidths dpi .location = min ((100 * (dpi : ℤ) + 48) / 96) i32Max :=
    scaleDip_of_nonneg (by decide) dpi
  have hmax : i32Max = 2147483647 := rfl
  constructor <;> intro index
  all_goals
    cases index with
    | current => omega
    | proposed => omega
    | location => omega

/-- What has been given out and what remains make the budget; resized columns keep their widths and
the others are not below their minima. -/
structure Spread (dpi : ℕ) (columns : ColumnStates) (budget : ℤ) (widths : PrimaryWidths)
    (remaining : ℤ) : Prop where
  total : widths .current + widths .proposed + widths .location + remaining = budget
  nonneg : ∀ index, 0 ≤ widths index
  remaining_nonneg : 0 ≤ remaining
  resized : ∀ index, (columns.primary index).userResized = true →
    widths index = (columns.primary index).widthPx dpi
  automatic : ∀ index, (columns.primary index).userResized = false →
    minimumWidths dpi index ≤ widths index

section Stages

variable {dpi : ℕ} {columns : ColumnStates} {budget remaining : ℤ}
  {widths widths' : PrimaryWidths} {automatic : PrimaryColumn → Bool}

theorem plain_eq_of_nonneg {n : ℤ} (h : 0 ≤ n) (hmax : n ≤ i32Max) : plain n = some n :=
  plain_eq (Int.le_trans (by decide) h) hmax

theorem plainSum_singleton {a : ℤ} (ha : 0 ≤ a) (hmax : a ≤ i32Max) :
    plainSum [a] = some a := by
  rw [plainSum, List.foldlM_cons, Int.zero_add, plain_eq_of_nonneg ha hmax]
  rfl

theorem plainSum_pair {a b : ℤ} (ha : 0 ≤ a) (hb : 0 ≤ b) (hmax : a + b ≤ i32Max) :
    plainSum [a, b] = some (a + b) := by
  rw [plainSum, List.foldlM_cons, Int.zero_add, plain_eq_of_nonneg ha (by omega)]
  change List.foldlM (fun total term => plain (total + term)) a [b] = some (a + b)
  rw [List.foldlM_cons, plain_eq_of_nonneg (Int.add_nonneg ha hb) hmax]
  rfl

theorem plainSum_triple {a b c : ℤ} (ha : 0 ≤ a) (hb : 0 ≤ b) (hc : 0 ≤ c)
    (hmax : a + b + c ≤ i32Max) : plainSum [a, b, c] = some (a + b + c) := by
  rw [plainSum, List.foldlM_cons, Int.zero_add, plain_eq_of_nonneg ha (by omega)]
  change List.foldlM (fun total term => plain (total + term)) a [b, c] = some (a + b + c)
  rw [List.foldlM_cons, plain_eq_of_nonneg (Int.add_nonneg ha hb) (by omega)]
  change List.foldlM (fun total term => plain (total + term)) (a + b) [c] = some (a + b + c)
  rw [List.foldlM_cons, plain_eq_of_nonneg (by omega) hmax]
  rfl

/-- One name gets its share, and one pixel more while there is a remainder. -/
theorem giveEach_cons {each remainder : ℤ} {index : PrimaryColumn} (names : List PrimaryColumn)
    (heach : 0 ≤ each) (hnonneg : 0 ≤ widths index)
    (hmax : widths index + (each + if remainder > 0 then 1 else 0) ≤ i32Max)
    (hremainder : -1 ≤ remainder) (hsmall : remainder ≤ i32Max) :
    giveEach each (index :: names) widths remainder = giveEach each names
      (Function.update widths index (widths index + (each + if remainder > 0 then 1 else 0)))
      (remainder - 1) := by
  have hmin : i32Min ≤ -2 := by decide
  have hextra : 0 ≤ each + (if remainder > 0 then 1 else 0) := by
    split <;> omega
  rw [giveEach, plain_eq_of_nonneg hextra (by omega)]
  change giveEach each names (Function.update widths index (saturatingAdd clampI32 (widths index)
    (each + if remainder > 0 then 1 else 0))) (saturatingSub clampI32 remainder 1) = _
  rw [saturatingAdd_eq_of_le hnonneg hextra hmax]
  congr 1
  exact clampI32_eq (by omega) (by omega)

/-- What one name alone gets. -/
theorem distributeNames_one {preferred : PrimaryWidths} {index : PrimaryColumn}
    (hnames : [PrimaryColumn.current, .proposed].filter automatic = [index])
    (hremaining : 0 < remaining)
    (hnonneg : 0 ≤ widths index) (hmax : widths index + remaining ≤ i32Max)
    (hpreferred : preferred index ≤ i32Max) (hle : widths index ≤ preferred index) :
    distributeNames automatic preferred widths remaining =
      some (Function.update widths index
          (widths index + min remaining (preferred index - widths index)),
        remaining - min remaining (preferred index - widths index)) := by
  obtain ⟨x, hx⟩ : ∃ x, x = min remaining (preferred index - widths index) := ⟨_, rfl⟩
  have hlack := saturatingSub_eq_of_le hnonneg hle hpreferred
  have hsum : plainSum ([index].map fun index =>
      saturatingSub clampI32 (preferred index) (widths index)) =
        some (preferred index - widths index) := by
    rw [List.map_singleton, hlack]
    exact plainSum_singleton (by omega) (by omega)
  have heach : giveEach x [index] widths 0 =
      some (Function.update widths index (widths index + x)) := by
    rw [giveEach_cons [] (by omega) hnonneg (by simp; omega) (by decide) (by decide)]
    simp [giveEach]
  rw [distributeNames, hnames, if_neg (by simpa using hremaining), hsum]
  simp only [Option.bind_eq_bind, Option.bind_some, List.length_singleton, Nat.cast_one,
    Int.tdiv_one, Int.tmod_one, ← hx, heach]
  rw [plain_eq_of_nonneg (by omega) (by omega)]
  rfl

/-- What the two names get together; the pixel that cannot be shared goes to the current name. -/
theorem distributeNames_two {preferred : PrimaryWidths} {x : ℤ}
    (hnames : [PrimaryColumn.current, .proposed].filter automatic = [.current, .proposed])
    (hremaining : 0 < remaining)
    (hnonneg : ∀ index, 0 ≤ widths index) (hmax : ∀ index, widths index + remaining ≤ i32Max)
    (hpreferred : ∀ index, preferred index ≤ i32Max)
    (hroom : ∀ index, automatic index = true → widths index ≤ preferred index ∧
      2 * (preferred index - widths index) ≤ i32Max)
    (hx : x = min remaining (preferred .current - widths .current +
      (preferred .proposed - widths .proposed))) :
    distributeNames automatic preferred widths remaining =
      some (Function.update (Function.update widths .current (widths .current + (x + 1) / 2))
        .proposed
        (widths .proposed + x / 2), remaining - x) := by
  have hmem (index : PrimaryColumn) (h : index ∈ [PrimaryColumn.current, .proposed]) :
      automatic index = true :=
    (List.mem_filter.1 (hnames ▸ h)).2
  obtain ⟨hle, hhalf⟩ := hroom .current (hmem .current (by simp))
  obtain ⟨hle', hhalf'⟩ := hroom .proposed (hmem .proposed (by simp))
  have w0 := hnonneg .current
  have w1 := hnonneg .proposed
  have m0 := hmax .current
  have m1 := hmax .proposed
  have hsum : plainSum ([PrimaryColumn.current, .proposed].map fun index =>
      saturatingSub clampI32 (preferred index) (widths index)) =
        some (preferred .current - widths .current + (preferred .proposed - widths .proposed)) := by
    rw [List.map_cons, List.map_singleton, saturatingSub_eq_of_le w0 hle (hpreferred .current),
      saturatingSub_eq_of_le w1 hle' (hpreferred .proposed)]
    exact plainSum_pair (by omega) (by omega) (by omega)
  have hshare : x.tdiv 2 = x / 2 := Int.tdiv_eq_ediv_of_nonneg (by omega)
  have hrest : x.tmod 2 = x % 2 := Int.tmod_eq_emod_of_nonneg (by omega)
  have hfirst : x / 2 + (if x % 2 > 0 then 1 else 0) = (x + 1) / 2 := by
    split <;> omega
  have hsecond : x / 2 + (if x % 2 - 1 > 0 then 1 else 0) = x / 2 := by
    split <;> omega
  have heach : giveEach (x / 2) [.current, .proposed] widths (x % 2) =
      some (Function.update (Function.update widths .current (widths .current + (x + 1) / 2))
        .proposed
        (widths .proposed + x / 2)) := by
    have hbound : i32Max = 2147483647 := rfl
    obtain ⟨widths', hwidths'⟩ :
        ∃ widths', widths' = Function.update widths .current (widths .current + (x + 1) / 2) :=
      ⟨_, rfl⟩
    have hother : widths' .proposed = widths .proposed := by
      rw [hwidths']
      exact Function.update_of_ne (by decide) _ _
    rw [giveEach_cons [.proposed] (by omega) w0 (by omega) (by omega) (by omega), hfirst,
      ← hwidths',
      giveEach_cons [] (by omega) (by omega) (by omega) (by omega) (by omega), hsecond, hother,
      giveEach]
  rw [distributeNames, hnames, if_neg (by simpa using hremaining), hsum]
  simp only [Option.bind_eq_bind, Option.bind_some, ← hx]
  have hlength : (([PrimaryColumn.current, .proposed].length : ℕ) : ℤ) = 2 := rfl
  rw [hlength, hshare, hrest, heach, Option.bind_some, plain_eq_of_nonneg (by omega) (by omega)]
  rfl

/-- The columns that were not resized. -/
def automaticColumns (columns : ColumnStates) (index : PrimaryColumn) : Bool :=
  !(columns.primary index).userResized

theorem Spread.le_budget (h : Spread dpi columns budget widths remaining) (index : PrimaryColumn) :
    widths index + remaining ≤ budget := by
  have htotal := h.total
  have h0 := h.nonneg .current
  have h1 := h.nonneg .proposed
  have h2 := h.nonneg .location
  cases index with
  | current => omega
  | proposed => omega
  | location => omega

theorem total_update (widths : PrimaryWidths) (index : PrimaryColumn) (x : ℤ) :
    Function.update widths index (widths index + x) .current +
      Function.update widths index (widths index + x) .proposed +
      Function.update widths index (widths index + x) .location =
        widths .current + widths .proposed + widths .location + x := by
  cases index with
  | current =>
    rw [Function.update_self, Function.update_of_ne (by decide), Function.update_of_ne (by decide)]
    omega
  | proposed =>
    rw [Function.update_self, Function.update_of_ne (by decide), Function.update_of_ne (by decide)]
    omega
  | location =>
    rw [Function.update_self, Function.update_of_ne (by decide), Function.update_of_ne (by decide)]
    omega

/-- An automatic column gets some of what remains. -/
theorem Spread.give {index : PrimaryColumn} {x : ℤ} (h : Spread dpi columns budget widths remaining)
    (hautomatic : automaticColumns columns index = true) (hx : 0 ≤ x) (hle : x ≤ remaining) :
    Spread dpi columns budget (Function.update widths index (widths index + x))
      (remaining - x) := by
  have hresized : (columns.primary index).userResized = false := by
    simpa [automaticColumns] using hautomatic
  refine ⟨?_, fun other => ?_, by omega, fun other hother => ?_, fun other hother => ?_⟩
  · have htotal := h.total
    rw [total_update]
    omega
  · have hnonneg := h.nonneg other
    by_cases heq : other = index
    · subst heq
      rw [Function.update_self]
      omega
    · rwa [Function.update_of_ne heq]
  · have hne : other ≠ index := by
      rintro rfl
      rw [hresized] at hother
      cases hother
    rw [Function.update_of_ne hne, h.resized other hother]
  · have hminimum := h.automatic other hother
    by_cases heq : other = index
    · subst heq
      rw [Function.update_self]
      omega
    · rwa [Function.update_of_ne heq]

/-- The names are given pixels of what remains. -/
theorem Spread.distributeNames (hmeasures : Measures dpi) (hbudget : budget ≤ i32Max)
    (h : Spread dpi columns budget widths remaining)
    (hstart : ∀ index, automaticColumns columns index = true →
      widths index = minimumWidths dpi index) :
    ∃ widths' remaining', UiLayout.distributeNames (automaticColumns columns)
        (preferredWidths dpi) widths remaining = some (widths', remaining') ∧
      Spread dpi columns budget widths' remaining' ∧ widths' .location = widths .location := by
  have hmax (index : PrimaryColumn) : widths index + remaining ≤ i32Max :=
    (h.le_budget index).trans hbudget
  have hroom (index : PrimaryColumn) (hautomatic : automaticColumns columns index = true) :
      widths index ≤ preferredWidths dpi index ∧
        2 * (preferredWidths dpi index - widths index) ≤ i32Max := by
    rw [hstart index hautomatic]
    exact ⟨hmeasures.minimum_le index, hmeasures.lack_le index⟩
  have hone (index : PrimaryColumn) (hindex : index ≠ .location) (hpos : 0 < remaining)
      (hautomatic : automaticColumns columns index = true)
      (hnames : [PrimaryColumn.current, .proposed].filter (automaticColumns columns) = [index]) :
      ∃ widths' remaining', UiLayout.distributeNames (automaticColumns columns)
          (preferredWidths dpi) widths remaining = some (widths', remaining') ∧
        Spread dpi columns budget widths' remaining' ∧ widths' .location = widths .location := by
    have hle := (hroom index hautomatic).1
    refine ⟨_, _, distributeNames_one hnames hpos (h.nonneg index) (hmax index)
      (hmeasures.preferred_le index) hle, h.give hautomatic (by omega) (by omega), ?_⟩
    exact Function.update_of_ne hindex.symm _ _
  by_cases hnone : remaining ≤ 0
  · exact ⟨widths, remaining, by simp [UiLayout.distributeNames, hnone], h, rfl⟩
  have hpos : 0 < remaining := by omega
  cases h0 : automaticColumns columns .current with
  | false =>
      cases h1 : automaticColumns columns .proposed with
      | false => exact ⟨widths, remaining, by simp [UiLayout.distributeNames, h0, h1], h, rfl⟩
      | true => exact hone .proposed (by decide) hpos h1 (by simp [h0, h1])
  | true =>
      cases h1 : automaticColumns columns .proposed with
      | false => exact hone .current (by decide) hpos h0 (by simp [h0, h1])
      | true =>
          have hle := (hroom .current h0).1
          have hle' := (hroom .proposed h1).1
          obtain ⟨x, hx⟩ : ∃ x, x = min remaining (preferredWidths dpi .current - widths .current +
            (preferredWidths dpi .proposed - widths .proposed)) := ⟨_, rfl⟩
          have hfirst := h.give h0 (x := (x + 1) / 2) (by omega) (by omega)
          have hsecond := hfirst.give h1 (x := x / 2) (by omega) (by omega)
          have hother : Function.update widths .current (widths .current + (x + 1) / 2)
              .proposed = widths .proposed :=
            Function.update_of_ne (by decide) _ _
          have hrest : remaining - (x + 1) / 2 - x / 2 = remaining - x := by omega
          rw [hother, hrest] at hsecond
          refine ⟨_, _, distributeNames_two (by simp [h0, h1]) hpos h.nonneg hmax
            hmeasures.preferred_le hroom hx, hsecond, ?_⟩
          rw [Function.update_of_ne (by decide), Function.update_of_ne (by decide)]

/-- The location is given pixels of what remains. -/
theorem Spread.distributeLocation (hmeasures : Measures dpi) (hbudget : budget ≤ i32Max)
    (h : Spread dpi columns budget widths remaining)
    (hstart : automaticColumns columns .location = true →
      widths .location = minimumWidths dpi .location) :
    ∃ widths' remaining', UiLayout.distributeLocation (automaticColumns columns)
        (preferredWidths dpi) widths remaining = some (widths', remaining') ∧
      Spread dpi columns budget widths' remaining' := by
  have hmax := h.le_budget .location
  have hnonneg := h.nonneg .location
  by_cases hnone : remaining ≤ 0
  · exact ⟨widths, remaining, by simp [UiLayout.distributeLocation, hnone], h⟩
  cases h2 : automaticColumns columns .location with
  | false => exact ⟨widths, remaining, by simp [UiLayout.distributeLocation, h2], h⟩
  | true =>
      have hle := hmeasures.minimum_le .location
      have hpreferred := hmeasures.preferred_le .location
      rw [← hstart h2] at hle
      obtain ⟨x, hx⟩ :
          ∃ x, x = min remaining (preferredWidths dpi .location - widths .location) :=
        ⟨_, rfl⟩
      refine ⟨Function.update widths .location (widths .location + x), remaining - x, ?_,
        h.give h2 (by omega) (by omega)⟩
      rw [UiLayout.distributeLocation, if_neg (by simp [h2, hnone])]
      rw [saturatingSub_eq_of_le hnonneg hle hpreferred]
      simp only [← hx]
      rw [saturatingAdd_eq_of_le hnonneg (by omega) (by omega),
        plain_eq_of_nonneg (by omega) (by omega)]
      rfl

/-- What is left goes to the last automatic column. -/
theorem Spread.distributeRest (hbudget : budget ≤ i32Max)
    (h : Spread dpi columns budget widths remaining)
    (hsome : ∃ index, automaticColumns columns index = true) :
    Spread dpi columns budget
      (UiLayout.distributeRest (automaticColumns columns) widths remaining) 0 := by
  rw [UiLayout.distributeRest]
  split
  · have hzero : remaining = 0 := le_antisymm ‹_› h.remaining_nonneg
    exact hzero ▸ h
  · split
    · next hnone =>
        obtain ⟨index, hindex⟩ := hsome
        rw [List.find?_eq_none] at hnone
        exact absurd hindex (hnone index (by cases index <;> simp [primaryColumns]))
    · next index hfound =>
        have hgive := h.give (List.find?_some hfound) h.remaining_nonneg le_rfl
        rw [sub_self] at hgive
        rwa [saturatingAdd_eq_of_le (h.nonneg index) h.remaining_nonneg
          ((h.le_budget index).trans hbudget)]

end Stages

/-! ### The default layout -/

/-- One pixel for each index of the list. -/
theorem addOnes_eq {indices : List PrimaryColumn} {widths : PrimaryWidths}
    (hnonneg : ∀ index, 0 ≤ widths index)
    (hmax : widths .current + widths .proposed + widths .location + indices.length ≤ i32Max) :
    ∃ widths', indices.foldlM (fun widths index => do
        return Function.update widths index (← plain (widths index + 1))) widths = some widths' ∧
      widths' .current + widths' .proposed + widths' .location =
        widths .current + widths .proposed + widths .location + indices.length ∧
      ∀ index, widths index ≤ widths' index := by
  induction indices generalizing widths with
  | nil => exact ⟨widths, rfl, by simp, fun _ => le_rfl⟩
  | cons index indices ih =>
      rw [List.length_cons, Nat.cast_succ] at hmax ⊢
      have hle : widths index ≤ widths .current + widths .proposed + widths .location := by
        have h0 := hnonneg .current
        have h1 := hnonneg .proposed
        have h2 := hnonneg .location
        cases index with
        | current => omega
        | proposed => omega
        | location => omega
      obtain ⟨next, hnext⟩ : ∃ next, next = Function.update widths index (widths index + 1) :=
        ⟨_, rfl⟩
      have htotal := total_update widths index 1
      rw [← hnext] at htotal
      have hgrows (other : PrimaryColumn) : widths other ≤ next other := by
        rw [hnext]
        by_cases heq : other = index
        · subst heq
          rw [Function.update_self]
          omega
        · rw [Function.update_of_ne heq]
      obtain ⟨widths', hresult, hsum, hlater⟩ := ih
        (fun other => (hnonneg other).trans (hgrows other)) (by omega)
      refine ⟨widths', ?_, by omega, fun other => (hgrows other).trans (hlater other)⟩
      have hnonneg' := hnonneg index
      rw [List.foldlM_cons, plain_eq_of_nonneg (by omega) (by omega)]
      simp only [Option.bind_eq_bind, Option.bind_some, Option.pure_def, ← hnext]
      exact hresult

theorem adaptivePrimaryColumnWidths_eq {budget : ℤ} {dpi : ℕ} (hmeasures : Measures dpi)
    (hbudget : budget ≤ i32Max)
    (hroom : minimumWidths dpi .current + minimumWidths dpi .proposed +
      minimumWidths dpi .location ≤ budget) :
    ∃ widths, adaptivePrimaryColumnWidths budget dpi = some widths ∧
      widths .current + widths .proposed + widths .location = budget ∧
      ∀ index, minimumWidths dpi index ≤ widths index := by
  have m0 := hmeasures.minimum_nonneg .current
  have m1 := hmeasures.minimum_nonneg .proposed
  have m2 := hmeasures.minimum_nonneg .location
  obtain ⟨r, hr⟩ : ∃ r, r = budget -
    (minimumWidths dpi .current + minimumWidths dpi .proposed + minimumWidths dpi .location) :=
    ⟨_, rfl⟩
  have hshare : r.tdiv 5 = r / 5 := Int.tdiv_eq_ediv_of_nonneg (by omega)
  have hrest : r.tmod 5 = r % 5 := Int.tmod_eq_emod_of_nonneg (by omega)
  have hbound : i32Max = 2147483647 := rfl
  obtain ⟨shared, hshared⟩ : ∃ shared : PrimaryWidths, shared = widthsOf
    (minimumWidths dpi .current + r / 5 * 2) (minimumWidths dpi .proposed + r / 5 * 2)
    (minimumWidths dpi .location + r / 5) := ⟨_, rfl⟩
  have s0 : shared .current = minimumWidths dpi .current + r / 5 * 2 := by rw [hshared]; rfl
  have s1 : shared .proposed = minimumWidths dpi .proposed + r / 5 * 2 := by rw [hshared]; rfl
  have s2 : shared .location = minimumWidths dpi .location + r / 5 := by rw [hshared]; rfl
  have hgrows (index : PrimaryColumn) : minimumWidths dpi index ≤ shared index := by
    cases index with
    | current => omega
    | proposed => omega
    | location => omega
  have hlength : (([PrimaryColumn.current, .proposed, .location, .current, .proposed].take
      (r % 5).toNat).length : ℤ) = r % 5 := by
    rw [List.length_take]
    simp only [List.length_cons, List.length_nil]
    omega
  obtain ⟨widths, hresult, hsum, hlater⟩ := addOnes_eq
    (fun index => (hmeasures.minimum_nonneg index).trans (hgrows index))
    (by rw [hlength]; omega)
  refine ⟨widths, ?_, by rw [hsum, hlength]; omega,
    fun index => (hgrows index).trans (hlater index)⟩
  have havailable : max budget 0 = budget := by omega
  have hchecked : checked clampI32 r = some r := plain_eq_of_nonneg (by omega) (by omega)
  rw [adaptivePrimaryColumnWidths]
  simp only [havailable, ← hr]
  rw [if_neg (by omega), hchecked, Option.getD_some, hshare, hrest,
    plain_eq_of_nonneg (by omega) (by omega)]
  simp only [Option.bind_eq_bind, Option.bind_some]
  rw [plain_eq_of_nonneg (by omega) (by omega), plain_eq_of_nonneg (by omega) (by omega),
    plain_eq_of_nonneg (by omega) (by omega)]
  simp only [Option.bind_some, ← hshared]
  exact hresult

/-! ### The budget -/

/-- No stored width is negative. -/
structure ColumnStates.Stored (columns : ColumnStates) : Prop where
  primary : ∀ index, 0 ≤ (columns.primary index).widthDip.val
  optional : ∀ index, 0 ≤ (columns.optional index).widthDip.val

/-- The budget as an integer: what status, optional columns and gutter leave. -/
def budgetLeft (clientWidth statusWidth : I32) (dpi : ℕ) (columns : ColumnStates) : ℤ :=
  max (clientWidth : ℤ) 0 - max (statusWidth : ℤ) 0 -
    ((optionalColumns columns).map (·.widthPx dpi)).sum - gutter dpi columns

/-- The user-resized widths and the automatic minima together. -/
def requiredWidth (dpi : ℕ) (columns : ColumnStates) : ℤ :=
  startingWidths dpi columns .current + startingWidths dpi columns .proposed +
    startingWidths dpi columns .location

/-- Widths that are not negative saturate at the end or not at all. -/
theorem foldl_saturatingAdd {terms : List ℤ} {total : ℤ} (hterms : ∀ term ∈ terms, 0 ≤ term)
    (htotal : 0 ≤ total) (hmax : total ≤ i32Max) :
    terms.foldl (saturatingAdd clampI32) total = min (total + terms.sum) i32Max := by
  induction terms generalizing total with
  | nil => simp [hmax]
  | cons term terms ih =>
      have hterm := hterms term (by simp)
      have hrest : ∀ other ∈ terms, 0 ≤ other := fun other hother => hterms other (by simp [hother])
      have hsum : 0 ≤ terms.sum := List.sum_nonneg hrest
      have hadd : saturatingAdd clampI32 total term = min (total + term) i32Max := by
        have hmin : i32Min ≤ 0 := by decide
        rw [saturatingAdd, clampI32]
        omega
      have hbound : i32Max = 2147483647 := rfl
      rw [List.foldl_cons, hadd, ih hrest (by omega) (by omega), List.sum_cons]
      omega

section Budget

variable {dpi : ℕ} {columns : ColumnStates}

theorem widthPx_nonneg {column : ColumnState} (h : 0 ≤ column.widthDip.val) (dpi : ℕ) :
    0 ≤ column.widthPx dpi :=
  clampI32_nonneg (scaled_nonneg h dpi)

theorem startingWidths_nonneg (hmeasures : Measures dpi)
    (hstored : columns.Stored) (index : PrimaryColumn) :
    0 ≤ startingWidths dpi columns index := by
  rw [startingWidths]
  split
  · exact widthPx_nonneg (hstored.primary _) dpi
  · exact hmeasures.minimum_nonneg index

theorem gutter_nonneg (dpi : ℕ) (columns : ColumnStates) :
    0 ≤ gutter dpi columns ∧ gutter dpi columns ≤ i32Max := by
  rw [gutter]
  split
  · exact ⟨Int.le_trans (by decide) (Int.le_max_right _ _),
      Int.max_le.2 ⟨clampI32_le_max _, by decide⟩⟩
  · decide

/-- Where the columns fit the budget of the source is the exact one, and nowhere else does it seem
that they fit. -/
theorem primaryBudget_eq (clientWidth statusWidth : I32)
    (hstored : columns.Stored)
    {required : ℤ} (hrequired : 0 ≤ required)
    (hscaled : 0 < required ∨
      ((optionalColumns columns).map (·.widthPx dpi)).sum ≤ i32Max) :
    (required ≤ primaryBudget clientWidth statusWidth dpi columns ↔
      required ≤ budgetLeft clientWidth statusWidth dpi columns) ∧
    (required ≤ primaryBudget clientWidth statusWidth dpi columns →
      primaryBudget clientWidth statusWidth dpi columns =
        budgetLeft clientWidth statusWidth dpi columns) := by
  have hoptional : ∀ width ∈ (optionalColumns columns).map (·.widthPx dpi), 0 ≤ width := by
    intro width hwidth
    obtain ⟨column, hcolumn, rfl⟩ := List.mem_map.1 hwidth
    obtain ⟨index, rfl⟩ := List.mem_ofFn.1 (List.mem_filter.1 hcolumn).1
    exact widthPx_nonneg (hstored.optional index) dpi
  have hclient := clientWidth.2
  have hstatus := statusWidth.2
  obtain ⟨hgutter, hgutterMax⟩ := gutter_nonneg dpi columns
  rw [primaryBudget, budgetLeft]
  simp only [foldl_saturatingAdd hoptional le_rfl (by decide), Int.zero_add]
  have hsum := List.sum_nonneg hoptional
  generalize ((optionalColumns columns).map (·.widthPx dpi)).sum = optional at *
  generalize gutter dpi columns = free at *
  have hmin : i32Min = -2147483648 := rfl
  have hmax : i32Max = 2147483647 := rfl
  simp only [saturatingSub, clampI32]
  omega

theorem widthPx_zero (column : ColumnState) : column.widthPx 0 = 0 := by
  rw [ColumnState.widthPx, scaleDip, scaled, Nat.cast_zero, Int.mul_zero]
  rfl

/-- The minimum of an automatic column is positive at every DPI but zero, where all widths
vanish. -/
theorem requiredWidth_pos_or (hmeasures : Measures dpi)
    (hstored : columns.Stored) {index : PrimaryColumn}
    (hautomatic : (columns.primary index).userResized = false) :
    0 < requiredWidth dpi columns ∨
      ((optionalColumns columns).map (·.widthPx dpi)).sum ≤ i32Max := by
  rcases Nat.eq_zero_or_pos dpi with rfl | hdpi
  · right
    have hzero : ((optionalColumns columns).map (·.widthPx 0)).sum = 0 := by
      refine List.sum_eq_zero fun width hwidth => ?_
      obtain ⟨column, -, rfl⟩ := List.mem_map.1 hwidth
      exact widthPx_zero column
    rw [hzero]
    decide
  · left
    have hstart : startingWidths dpi columns index = minimumWidths dpi index := by
      rw [startingWidths, hautomatic]
      rfl
    have hpositive : 0 < minimumWidths dpi index := by
      have hvalue : 80 ≤ columnMinimum index := by
        cases index <;> decide
      have hproduct : 80 * 1 ≤ columnMinimum index * (dpi : ℤ) :=
        Int.mul_le_mul hvalue (by omega) (by decide) (by omega)
      have hmax : i32Max = 2147483647 := rfl
      rw [minimumWidths, scaleDip_of_nonneg (by omega)]
      omega
    have h0 := startingWidths_nonneg hmeasures hstored .current
    have h1 := startingWidths_nonneg hmeasures hstored .proposed
    have h2 := startingWidths_nonneg hmeasures hstored .location
    rw [requiredWidth]
    cases index with
    | current => omega
    | proposed => omega
    | location => omega

theorem spread_startingWidths {budget : ℤ} (hmeasures : Measures dpi)
    (hstored : columns.Stored)
    (hfits : requiredWidth dpi columns ≤ budget) :
    Spread dpi columns budget (startingWidths dpi columns)
      (budget - requiredWidth dpi columns) where
  total := by
    rw [requiredWidth]
    omega
  nonneg := startingWidths_nonneg hmeasures hstored
  remaining_nonneg := by omega
  resized index hindex := if_pos hindex
  automatic index hindex := by
    rw [startingWidths, hindex]
    exact le_rfl

/-- The allocation after the default layout has been ruled out. -/
def allocateStarting (dpi : ℕ) (columns : ColumnStates) (budget : ℤ) :
    Option PrimaryWidths := do
  let required := (primaryColumns.map (startingWidths dpi columns)).foldl
    (saturatingAdd clampI32) 0
  let (widths, remaining) ← distributeNames (automaticColumns columns) (preferredWidths dpi)
    (startingWidths dpi columns) (saturatingSub clampI32 budget required)
  let (widths, remaining) ← distributeLocation (automaticColumns columns) (preferredWidths dpi)
    widths remaining
  return distributeRest (automaticColumns columns) widths remaining

theorem foldl_startingWidths (hmeasures : Measures dpi)
    (hstored : columns.Stored) :
    (primaryColumns.map (startingWidths dpi columns)).foldl
      (saturatingAdd clampI32) 0 = min (requiredWidth dpi columns) i32Max := by
  rw [foldl_saturatingAdd ?_ le_rfl (by decide)]
  · simp only [primaryColumns, List.map_cons, List.map_nil, List.sum_cons, List.sum_nil,
      requiredWidth]
    congr 1
    omega
  · intro width hwidth
    obtain ⟨index, -, rfl⟩ := List.mem_map.1 hwidth
    exact startingWidths_nonneg hmeasures hstored index

theorem allocateStarting_of_fits {budget : ℤ} (hmeasures : Measures dpi)
    (hstored : columns.Stored) (hbudget : budget ≤ i32Max)
    (hfits : requiredWidth dpi columns ≤ budget)
    (hsome : ∃ index, automaticColumns columns index = true) :
    ∃ widths, allocateStarting dpi columns budget = some widths ∧
      Spread dpi columns budget widths 0 := by
  have h0 := startingWidths_nonneg hmeasures hstored .current
  have h1 := startingWidths_nonneg hmeasures hstored .proposed
  have h2 := startingWidths_nonneg hmeasures hstored .location
  have hnonneg : 0 ≤ requiredWidth dpi columns := by
    rw [requiredWidth]
    omega
  have hstarting (index : PrimaryColumn) (h : automaticColumns columns index = true) :
      startingWidths dpi columns index = minimumWidths dpi index := by
    rw [startingWidths, if_neg (by simpa [automaticColumns] using h)]
  have hstart := spread_startingWidths hmeasures hstored hfits
  obtain ⟨widths, remaining, hnames, hspread, hlocation⟩ :=
    hstart.distributeNames hmeasures hbudget hstarting
  obtain ⟨widths', remaining', hlast, hspread'⟩ := hspread.distributeLocation hmeasures hbudget
    fun h => hlocation.trans (hstarting .location h)
  refine ⟨_, ?_, hspread'.distributeRest hbudget hsome⟩
  rw [allocateStarting]
  simp only [foldl_startingWidths hmeasures hstored]
  rw [min_eq_left (hfits.trans hbudget), saturatingSub_eq_of_le hnonneg hfits hbudget, hnames]
  simp only [Option.bind_eq_bind, Option.bind_some, hlast]
  rfl

/-- Without room, or without automatic columns, nothing is distributed. -/
theorem allocateStarting_of_not_fits {budget : ℤ} (hmeasures : Measures dpi)
    (hstored : columns.Stored) (hbudget : budget ≤ i32Max)
    (hnot : (∃ index, automaticColumns columns index = true) →
      budget < requiredWidth dpi columns) :
    allocateStarting dpi columns budget = some (startingWidths dpi columns) := by
  rw [allocateStarting]
  simp only [foldl_startingWidths hmeasures hstored]
  by_cases hsome : ∃ index, automaticColumns columns index = true
  · have hlt := hnot hsome
    have hremaining :
        saturatingSub clampI32 budget (min (requiredWidth dpi columns) i32Max) ≤ 0 := by
      have hmin : i32Min ≤ 0 := by decide
      rw [saturatingSub, clampI32]
      omega
    simp [distributeNames, distributeLocation, distributeRest, hremaining]
  · have hnone (index : PrimaryColumn) : automaticColumns columns index = false := by
      rw [← Bool.not_eq_true]
      exact fun h => hsome ⟨index, h⟩
    have hrest (remaining : ℤ) : distributeRest (automaticColumns columns)
        (startingWidths dpi columns) remaining = startingWidths dpi columns := by
      simp [distributeRest, primaryColumns, hnone]
    simp [distributeNames, distributeLocation, hnone, hrest]

/-- Whether the minima of all three columns fit and no column was resized. -/
def Adaptive (clientWidth statusWidth : I32) (dpi : ℕ) (columns : ColumnStates) : Prop :=
  (∀ index, automaticColumns columns index = true) ∧
    minimumWidths dpi .current + minimumWidths dpi .proposed + minimumWidths dpi .location ≤
      primaryBudget clientWidth statusWidth dpi columns

section Allocation

variable (clientWidth statusWidth : I32) (hmeasures : Measures dpi)
  (hminimum : minimumWidths dpi .current + minimumWidths dpi .proposed +
    minimumWidths dpi .location ≤ i32Max)

include hmeasures hminimum

theorem plainSum_minimumWidths : plainSum (primaryColumns.map (minimumWidths dpi)) =
    some (minimumWidths dpi .current + minimumWidths dpi .proposed +
      minimumWidths dpi .location) :=
  plainSum_triple (hmeasures.minimum_nonneg .current) (hmeasures.minimum_nonneg .proposed)
    (hmeasures.minimum_nonneg .location) hminimum

theorem allocatePrimaryColumnWidths_of_adaptive
    (h : Adaptive clientWidth statusWidth dpi columns) :
    allocatePrimaryColumnWidths clientWidth statusWidth dpi columns =
      adaptivePrimaryColumnWidths (primaryBudget clientWidth statusWidth dpi columns) dpi := by
  have hcheck : primaryColumns.all
      (fun index => !(columns.primary index).userResized) = true :=
    List.all_eq_true.2 fun index _ => h.1 index
  rw [allocatePrimaryColumnWidths]
  simp only [hcheck, if_true, plainSum_minimumWidths hmeasures hminimum, Option.bind_eq_bind,
    Option.bind_some]
  rw [if_pos h.2]

theorem allocatePrimaryColumnWidths_of_not_adaptive
    (h : ¬Adaptive clientWidth statusWidth dpi columns) :
    allocatePrimaryColumnWidths clientWidth statusWidth dpi columns =
      allocateStarting dpi columns (primaryBudget clientWidth statusWidth dpi columns) := by
  by_cases hall : ∀ index, automaticColumns columns index = true
  · have hcheck : primaryColumns.all
        (fun index => !(columns.primary index).userResized) = true :=
      List.all_eq_true.2 fun index _ => hall index
    rw [allocatePrimaryColumnWidths]
    simp only [hcheck, if_true, plainSum_minimumWidths hmeasures hminimum, Option.bind_eq_bind,
      Option.bind_some]
    rw [if_neg fun hroom => h ⟨hall, hroom⟩]
    rfl
  · have hcheck : ¬primaryColumns.all
        (fun index => !(columns.primary index).userResized) = true := fun h =>
      hall fun index => List.all_eq_true.1 h index (by cases index <;> simp [primaryColumns])
    rw [allocatePrimaryColumnWidths]
    simp only [hcheck]
    rfl

end Allocation

/-- Where some column is automatic and the columns fit, the widths make the budget exactly and no
automatic column is below its minimum; otherwise automatic columns have their minima. Resized
columns keep their widths, and nothing overflows. -/
theorem allocatePrimaryColumnWidths_exact (clientWidth statusWidth : I32) (dpi : U32)
    (columns : ColumnStates) (hstored : columns.Stored)
    (hminimum : minimumWidths dpi .current + minimumWidths dpi .proposed +
      minimumWidths dpi .location ≤ i32Max) :
    ∃ widths, allocatePrimaryColumnWidths clientWidth statusWidth dpi columns = some widths ∧
      (∀ index, (columns.primary index).userResized = true →
        widths index = (columns.primary index).widthPx dpi) ∧
      ((∃ index, (columns.primary index).userResized = false) ∧
          requiredWidth dpi columns ≤ budgetLeft clientWidth statusWidth dpi columns →
        widths .current + widths .proposed + widths .location =
            budgetLeft clientWidth statusWidth dpi columns ∧
          ∀ index, (columns.primary index).userResized = false →
            minimumWidths dpi index ≤ widths index) ∧
      (¬((∃ index, (columns.primary index).userResized = false) ∧
          requiredWidth dpi columns ≤ budgetLeft clientWidth statusWidth dpi columns) →
        ∀ index, (columns.primary index).userResized = false →
          widths index = minimumWidths dpi index) := by
  have hmeasures : Measures dpi := measures_of_sum_le hminimum
  have hbudget : primaryBudget clientWidth statusWidth dpi columns ≤ i32Max := clampI32_le_max _
  have h0 := startingWidths_nonneg hmeasures hstored .current
  have h1 := startingWidths_nonneg hmeasures hstored .proposed
  have h2 := startingWidths_nonneg hmeasures hstored .location
  have hnonneg : 0 ≤ requiredWidth dpi columns := by
    rw [requiredWidth]
    omega
  have hautomatic (index : PrimaryColumn) : automaticColumns columns index = true ↔
      (columns.primary index).userResized = false := by
    simp [automaticColumns]
  have hstarting (h : ∀ index, automaticColumns columns index = true) (index : PrimaryColumn) :
      startingWidths dpi columns index = minimumWidths dpi index := by
    rw [startingWidths, (hautomatic index).1 (h index)]
    rfl
  by_cases hsome : ∃ index, (columns.primary index).userResized = false
  · obtain ⟨index, hindex⟩ := hsome
    obtain ⟨hiff, hexact⟩ := primaryBudget_eq clientWidth statusWidth hstored hnonneg
      (requiredWidth_pos_or hmeasures hstored hindex)
    by_cases hfits : requiredWidth dpi columns ≤ primaryBudget clientWidth statusWidth dpi columns
    · rw [← hexact hfits]
      by_cases hdefault : Adaptive clientWidth statusWidth dpi columns
      · rw [allocatePrimaryColumnWidths_of_adaptive _ _ hmeasures hminimum hdefault]
        obtain ⟨widths, hresult, hsum, hle⟩ :=
          adaptivePrimaryColumnWidths_eq hmeasures hbudget hdefault.2
        refine ⟨widths, hresult, fun other hother => ?_, fun _ => ⟨hsum, fun other _ => hle other⟩,
          fun h => absurd ⟨⟨index, hindex⟩, hfits⟩ h⟩
        rw [(hautomatic other).1 (hdefault.1 other)] at hother
        cases hother
      · rw [allocatePrimaryColumnWidths_of_not_adaptive _ _ hmeasures hminimum hdefault]
        obtain ⟨widths, hresult, hspread⟩ := allocateStarting_of_fits hmeasures hstored hbudget
          hfits ⟨index, (hautomatic index).2 hindex⟩
        have htotal := hspread.total
        rw [Int.add_zero] at htotal
        exact ⟨widths, hresult, hspread.resized, fun _ => ⟨htotal, hspread.automatic⟩,
          fun h => absurd ⟨⟨index, hindex⟩, hfits⟩ h⟩
    · have hnot : ¬Adaptive clientWidth statusWidth dpi columns := by
        rintro ⟨hall, hroom⟩
        rw [requiredWidth, hstarting hall, hstarting hall, hstarting hall] at hfits
        exact hfits hroom
      rw [allocatePrimaryColumnWidths_of_not_adaptive _ _ hmeasures hminimum hnot,
        allocateStarting_of_not_fits hmeasures hstored hbudget fun _ => not_le.1 hfits]
      refine ⟨_, rfl, fun other hother => if_pos hother, fun h => absurd (hiff.2 h.2) hfits,
        fun _ other hother => ?_⟩
      rw [startingWidths, hother]
      rfl
  · have hnone : ¬∃ index, automaticColumns columns index = true := fun ⟨index, hindex⟩ =>
      hsome ⟨index, (hautomatic index).1 hindex⟩
    rw [allocatePrimaryColumnWidths_of_not_adaptive _ _ hmeasures hminimum
        fun h => hnone ⟨.current, h.1 .current⟩,
      allocateStarting_of_not_fits hmeasures hstored hbudget fun h => absurd h hnone]
    exact ⟨_, rfl, fun other hother => if_pos hother, fun h => absurd h.1 hsome,
      fun _ other hother => absurd ⟨other, hother⟩ hsome⟩

/-- The default columns, with the first one as the user left it and no optional one. -/
def resizedFirst (width : I32) : ColumnStates where
  primary
    | .current => ⟨true, width, true⟩
    | .proposed => ⟨true, ⟨150, by decide⟩, false⟩
    | .location => ⟨true, ⟨100, by decide⟩, false⟩
  optional _ := ⟨false, ⟨120, by decide⟩, false⟩

theorem allocatePrimaryColumnWidths_exact_resized :
    ∃ widths, allocatePrimaryColumnWidths ⟨1300, by decide⟩ ⟨112, by decide⟩ 96
        (resizedFirst ⟨220, by decide⟩) = some widths ∧
      widths .current = 220 ∧ widths .current + widths .proposed + widths .location = 1188 := by
  obtain ⟨widths, hresult, hresized, hexact⟩ := allocatePrimaryColumnWidths_exact
    ⟨1300, by decide⟩ ⟨112, by decide⟩ ⟨96, by decide⟩ (resizedFirst ⟨220, by decide⟩)
    ⟨fun index => by cases index <;> decide, by decide⟩ (by decide)
  exact ⟨widths, hresult, (hresized .current (by decide)).trans (by decide),
    (hexact.1 ⟨⟨.proposed, by decide⟩, by decide⟩).1.trans (by decide)⟩

/-- A negative width, which neither resizing nor the stored settings give, saturates what
remains. -/
theorem not_allocatePrimaryColumnWidths_negative :
    ∃ (clientWidth statusWidth : I32) (columns : ColumnStates) (widths : PrimaryWidths),
      (∀ index, scaleDip clampI32 (columns.primary index).widthDip 96 =
        scaled (columns.primary index).widthDip 96) ∧
      (∀ index, scaleDip clampI32 (columns.optional index).widthDip 96 =
        scaled (columns.optional index).widthDip 96) ∧
      minimumWidths 96 .current + minimumWidths 96 .proposed + minimumWidths 96 .location ≤
        i32Max ∧
      (∃ index, (columns.primary index).userResized = false) ∧
      requiredWidth 96 columns ≤ budgetLeft clientWidth statusWidth 96 columns ∧
      allocatePrimaryColumnWidths clientWidth statusWidth 96 columns = some widths ∧
      widths .current + widths .proposed + widths .location ≠
        budgetLeft clientWidth statusWidth 96 columns := by
  have hsum : (allocatePrimaryColumnWidths ⟨1000, by decide⟩ ⟨0, by decide⟩ 96
      (resizedFirst ⟨-2147483648, by decide⟩)).map
        (fun widths => widths .current + widths .proposed + widths .location) = some 149 := by
    decide +kernel
  obtain ⟨widths, hresult, hwidths⟩ := Option.map_eq_some_iff.1 hsum
  have hbudget : budgetLeft ⟨1000, by decide⟩ ⟨0, by decide⟩ 96
      (resizedFirst ⟨-2147483648, by decide⟩) = 1000 := by
    decide
  refine ⟨⟨1000, by decide⟩, ⟨0, by decide⟩, resizedFirst ⟨-2147483648, by decide⟩, widths,
    fun index => by cases index <;> decide, by decide, by decide, ⟨.proposed, by decide⟩,
    by decide, hresult, ?_⟩
  rw [hwidths, hbudget]
  decide

end Budget

end UiLayout

end DarkReNamer
