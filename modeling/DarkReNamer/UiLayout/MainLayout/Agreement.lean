import DarkReNamer.UiLayout.MainLayout.EmptyState

/-!
# The smallest size and the layout

When the layout of the main window shows all of its parts at the smallest client size that is
computed for it. The minimum takes `scale_dip(24)` for the two paddings of the empty state and
the layout takes twice `scale_dip(12)`, which rounds to one pixel more at some DPIs.
-/

namespace DarkReNamer

namespace UiLayout

open MeasuredFontMetrics

/-! ### What a good layout is -/

namespace MainLayout

variable (layout : MainLayout)

/-- The list, the dividers and the status strip. -/
def parts : List LayoutRect :=
  [layout.list, layout.workspaceChrome.leftListDivider, layout.workspaceChrome.rightListDivider,
    layout.statusMessage, layout.statusCount, layout.cancel]

/-- The two columns at the sides of the client area. -/
def railColumns (clientWidth : ℤ) : List LayoutRect :=
  [⟨0, 0, layout.railWidth, layout.list.height⟩,
    ⟨clientWidth - layout.railWidth, 0, layout.railWidth, layout.list.height⟩]

end MainLayout

/-- The input of the layout of a client area. -/
structure LayoutInput where
  measured : MeasuredFontMetrics
  preference : RailDensityPreference
  showSafety : Bool
  statusWidth : I32
  status : StatusLayoutInput
  clientWidth : I32
  clientHeight : I32

namespace LayoutInput

variable (input : LayoutInput) (dpi : ℕ)

def layout : MainLayout :=
  calculateMainLayoutWithSafety clampI32 dpi input.measured input.preference input.showSafety
    input.clientWidth input.clientHeight input.status

/-- What the empty state needs in the width that the layout gives to it. -/
def content : EmptyStateContentMetrics :=
  input.measured.emptyStateContentMetrics clampI32 dpi (input.layout dpi).emptyInstruction.width
    input.showSafety

def minimumWidth (clamp : ℤ → ℤ) : ℤ :=
  minimumMainClientWidth clamp dpi input.measured input.preference input.statusWidth

def minimumHeight (clamp : ℤ → ℤ) : ℤ :=
  minimumMainClientHeightWithSafety clamp dpi input.measured input.preference input.showSafety

/-- Rails are wanted, no measured height of wrapped text is given, the smallest size does not
saturate, and the client area is `extra` pixels wider than it and not lower. -/
structure Admitted (extra : ℕ) : Prop where
  rails : input.preference ≠ .menuOnly
  measured : input.measured.NoWrappedHeight
  widthExact : input.minimumWidth dpi clampI32 = input.minimumWidth dpi id
  heightExact : input.minimumHeight dpi clampI32 = input.minimumHeight dpi id
  width : (input.clientWidth : ℤ) = input.minimumWidth dpi clampI32 + extra
  height : input.minimumHeight dpi clampI32 ≤ input.clientHeight

/-- Every part has its place and every text its height. -/
structure Shown : Prop where
  rails : (input.layout dpi).railMode ≠ .menuOnly
  inside : ∀ part ∈ (input.layout dpi).parts,
    part.Inside input.clientWidth input.clientHeight
  apart : ((input.layout dpi).parts ++ (input.layout dpi).railColumns input.clientWidth).Pairwise
    LayoutRect.Apart
  leftButtons : Stacked 0 (input.layout dpi).list.height (input.layout dpi).leftButtons
  rightButtons : Stacked 0 (input.layout dpi).list.height (input.layout dpi).rightButtons
  instruction : (input.layout dpi).emptyInstruction.height = (input.content dpi).instructionHeight
  button : (input.layout dpi).emptyAdd.height = (input.content dpi).addHeight
  safety : (input.layout dpi).emptySafety.height = (input.content dpi).safetyHeight

end LayoutInput

/-! ### The status strip -/

section Strip

variable (dpi : ℕ) (rect : LayoutRect)

/-- A status text lies in its field. -/
theorem insetStatusText_inside (hx : 0 ≤ rect.x) (hwidth : 0 ≤ rect.width)
    (hright : rect.x + rect.width ≤ i32Max) (hy : 0 ≤ rect.y) (hheight : 0 ≤ rect.height)
    (hbottom : rect.y + rect.height ≤ i32Max) :
    rect.x ≤ (insetStatusText clampI32 dpi rect).x ∧
      0 ≤ (insetStatusText clampI32 dpi rect).width ∧
      (insetStatusText clampI32 dpi rect).x + (insetStatusText clampI32 dpi rect).width ≤
        rect.x + rect.width ∧
      rect.y ≤ (insetStatusText clampI32 dpi rect).y ∧
      0 ≤ (insetStatusText clampI32 dpi rect).height ∧
      (insetStatusText clampI32 dpi rect).y + (insetStatusText clampI32 dpi rect).height ≤
        rect.y + rect.height := by
  have hinset : 0 ≤ scaleDip clampI32 8 dpi := scaleDip_nonneg (by decide) dpi
  have hline : 0 ≤ (if rect.height > 0 then (1 : ℤ) else 0) ∧
      (if rect.height > 0 then (1 : ℤ) else 0) ≤ rect.height := by
    split <;> omega
  simp only [insetStatusText]
  rw [Int.tdiv_eq_ediv_of_nonneg hwidth]
  generalize scaleDip clampI32 8 dpi = inset at *
  generalize (if rect.height > 0 then (1 : ℤ) else 0) = line at *
  obtain ⟨side, hside⟩ : ∃ side, min inset (rect.width / 2) = side := ⟨_, rfl⟩
  have hsides : saturatingMul clampI32 side 2 = side * 2 := by
    rw [saturatingMul_of_nonneg (by omega) (by decide), min_eq_left (by omega)]
  rw [hside, hsides, saturatingAdd_eq_of_le hx (by omega) (by omega),
    saturatingSub_eq_of_le (by omega) (by omega) (by omega),
    saturatingAdd_eq_of_le hy hline.1 (by omega), saturatingSub_eq_of_le hline.1 hline.2 (by omega)]
  omega

end Strip

/-! ### The selected density -/

section Selected

variable {dpi : ℕ} {measured : MeasuredFontMetrics} {width railHeight railWidth : ℤ}
  {density selected : RailDensity} {left right : List CommandPlacement}

/-- A selected density has both rails and leaves more than the dividers between them. -/
theorem of_tryDensity_eq_some (hwidth : width ≤ i32Max)
    (h : tryDensity clampI32 dpi measured width railHeight density =
      some (selected, railWidth, left, right)) :
    selected = density ∧ railWidth = (measured.railMetrics clampI32 density dpi).railWidth ∧
      2 * railWidth + 2 < width ∧ Stacked 0 railHeight left ∧ Stacked 0 railHeight right := by
  have hnonneg := measured.railWidth_nonneg dpi density
  have hmetrics := measured.railMetrics_nonneg dpi density
  simp only [tryDensity] at h
  split at h
  · cases h
  · rename_i hroom
    cases hleft : calculateCommandRailLayout clampI32 leftRail railHeight
        (measured.railMetrics clampI32 density dpi) with
    | error e =>
        rw [hleft] at h
        cases h
    | ok leftPlacements =>
        cases hright : calculateCommandRailLayout clampI32 rightRail railHeight
            (measured.railMetrics clampI32 density dpi) with
        | error e =>
            rw [hleft, hright] at h
            cases h
        | ok rightPlacements =>
            rw [hleft, hright] at h
            cases h
            refine ⟨rfl, rfl, ?_, stacked_of_calculateCommandRailLayout hmetrics hleft,
              stacked_of_calculateCommandRailLayout hmetrics hright⟩
            have hmax : 0 ≤ i32Max := by decide
            rw [saturatingMul_of_nonneg hnonneg (by decide),
              saturatingAdd_of_nonneg (by omega) (by decide)] at hroom
            omega

/-- A density is taken when the rails and their dividers leave a pixel and both rails fit. -/
theorem isSome_tryDensity_iff (hwidth : width ≤ i32Max) (hheight : railHeight ≤ i32Max) :
    (tryDensity clampI32 dpi measured width railHeight density).isSome ↔
      2 * (measured.railMetrics clampI32 density dpi).railWidth + 2 < width ∧
        UiLayout.railHeight leftRail (measured.railMetrics clampI32 density dpi) ≤ railHeight ∧
        UiLayout.railHeight rightRail (measured.railMetrics clampI32 density dpi) ≤
          railHeight := by
  have hnonneg := measured.railWidth_nonneg dpi density
  have hmetrics := measured.railMetrics_nonneg dpi density
  have hroom : saturatingAdd clampI32
      (saturatingMul clampI32 (measured.railMetrics clampI32 density dpi).railWidth 2) 2 ≥ width ↔
        ¬2 * (measured.railMetrics clampI32 density dpi).railWidth + 2 < width := by
    have hmax : 0 ≤ i32Max := by decide
    rw [saturatingMul_of_nonneg hnonneg (by decide),
      saturatingAdd_of_nonneg (by omega) (by decide)]
    omega
  simp only [tryDensity, hroom]
  by_cases hleaves : 2 * (measured.railMetrics clampI32 density dpi).railWidth + 2 < width
  · rw [if_neg (not_not.2 hleaves)]
    constructor
    · intro hsome
      cases hleft : calculateCommandRailLayout clampI32 leftRail railHeight
          (measured.railMetrics clampI32 density dpi) with
      | error e =>
          rw [hleft] at hsome
          cases hsome
      | ok leftPlacements =>
          cases hright : calculateCommandRailLayout clampI32 rightRail railHeight
              (measured.railMetrics clampI32 density dpi) with
          | error e =>
              rw [hleft, hright] at hsome
              cases hsome
          | ok rightPlacements =>
              exact ⟨hleaves, railHeight_le_of_calculateCommandRailLayout hleft,
                railHeight_le_of_calculateCommandRailLayout hright⟩
    · rintro ⟨-, hleft, hright⟩
      obtain ⟨leftPlacements, hleftOk⟩ := calculateCommandRailLayout_of_le hmetrics (by decide)
        (by decide) hleft hheight
      obtain ⟨rightPlacements, hrightOk⟩ := calculateCommandRailLayout_of_le hmetrics (by decide)
        (by decide) hright hheight
      rw [hleftOk, hrightOk]
      rfl
  · rw [if_pos hleaves]
    simp [hleaves]

end Selected

/-! ### The minima without saturation -/

section Minima

variable {dpi : ℕ} {measured : MeasuredFontMetrics} {preference : RailDensityPreference}

theorem requiredCommandRailHeight_id (spec : CommandRailSpec) (metrics : UiMetrics) :
    requiredOrMax (requiredCommandRailHeight id spec metrics) = railHeight spec metrics := by
  simp only [requiredCommandRailHeight, checked_id, okOr]
  rfl

theorem mem_candidates_of_minimumDensity {density : RailDensity}
    (h : preference.minimumDensity = some density) : density ∈ preference.candidates := by
  cases preference <;> cases h <;> decide

theorem exists_minimumDensity (h : preference ≠ .menuOnly) :
    ∃ density, preference.minimumDensity = some density := by
  cases preference with
  | automatic => exact ⟨_, rfl⟩
  | comfortable => exact ⟨_, rfl⟩
  | compact => exact ⟨_, rfl⟩
  | menuOnly => exact absurd rfl h

/-- Both rails have positive widths. -/
theorem scaled_le_railWidth (measured : MeasuredFontMetrics) (dpi : ℕ) (density : RailDensity) :
    scaled 52 dpi ≤ (measured.railMetrics id density dpi).railWidth := by
  cases density <;> exact le_max_left _ _

/-- The widest rail among the candidates, without saturation. -/
def widestRail (dpi : ℕ) (measured : MeasuredFontMetrics) (preference : RailDensityPreference) :
    ℤ :=
  ((preference.candidates.map fun density =>
    (measured.railMetrics id density dpi).railWidth).max?).getD 0

theorem railWidth_le_widestRail {density : RailDensity} (h : density ∈ preference.candidates) :
    (measured.railMetrics id density dpi).railWidth ≤ widestRail dpi measured preference := by
  rw [widestRail]
  cases hmax : (preference.candidates.map fun density =>
      (measured.railMetrics id density dpi).railWidth).max? with
  | none =>
      rw [List.max?_eq_none_iff, List.map_eq_nil_iff] at hmax
      rw [hmax] at h
      cases h
  | some widest =>
      exact (List.max?_eq_some_iff.1 hmax).2 _ (List.mem_map_of_mem h)

/-- What the columns and the empty state need between the widest rails. -/
theorem minimumMainClientWidth_id (statusWidth : ℤ) :
    minimumMainClientWidth id dpi measured preference statusWidth =
      max (scaled 52 dpi * 2 + scaled 120 dpi * 2 + scaled 80 dpi + max (scaled 1 dpi) 1 +
          max statusWidth 0 + (widestRail dpi measured preference -
            preference.minimumDensity.elim 0 fun _ => scaled 52 dpi) * 2 +
          (if widestRail dpi measured preference > 0 then 1 else 0) * 2)
        (widestRail dpi measured preference * 2 + measured.emptyStateMinimumWidth id dpi +
          (if widestRail dpi measured preference > 0 then 1 else 0) * 2) := by
  have hbaseline : (preference.minimumDensity.elim 0 fun density =>
      (density.metrics id dpi).railWidth) =
        preference.minimumDensity.elim 0 fun _ => scaled 52 dpi := by
    cases preference <;> rfl
  rw [minimumMainClientWidth]
  simp only [hbaseline]
  rfl

theorem minimumMainClientHeight_id {density : RailDensity} (showSafety : Bool)
    (h : preference.minimumDensity = some density) :
    minimumMainClientHeightWithSafety id dpi measured preference showSafety =
      max (max (railHeight leftRail (measured.railMetrics id density dpi))
          (railHeight rightRail (measured.railMetrics id density dpi)))
        (measured.emptyStateRequiredHeight id dpi showSafety) + measured.statusHeight id dpi := by
  rw [minimumMainClientHeightWithSafety, h]
  simp only [Option.elim_some, requiredCommandRailHeight_id]
  rfl

end Minima

/-! ### The parts of the layout -/

namespace LayoutInput

section Parts

variable {input : LayoutInput} {dpi : ℕ} {density : RailDensity} {railWidth : ℤ}
  {left right : List CommandPlacement} (hwidth : 0 ≤ (input.clientWidth : ℤ))
  (hheight : input.measured.statusHeight clampI32 dpi ≤ input.clientHeight)

/-- The height above the status strip. -/
def workHeight (input : LayoutInput) (dpi : ℕ) : ℤ :=
  input.clientHeight - input.measured.statusHeight clampI32 dpi

/-- The first candidate whose rails fit. -/
def selected (input : LayoutInput) (dpi : ℕ) :
    Option (RailDensity × ℤ × List CommandPlacement × List CommandPlacement) :=
  input.preference.candidates.findSome?
    (tryDensity clampI32 dpi input.measured input.clientWidth (input.workHeight dpi))

theorem of_selected (hselected : input.selected dpi = some (density, railWidth, left, right)) :
    density ∈ input.preference.candidates ∧
      railWidth = (input.measured.railMetrics clampI32 density dpi).railWidth ∧
      2 * railWidth + 2 < (input.clientWidth : ℤ) ∧
      Stacked 0 (input.workHeight dpi) left ∧ Stacked 0 (input.workHeight dpi) right := by
  obtain ⟨candidate, hcandidate, htry⟩ := List.exists_of_findSome?_eq_some hselected
  obtain ⟨rfl, hrest⟩ := of_tryDensity_eq_some input.clientWidth.2.2 htry
  exact ⟨hcandidate, hrest⟩

include hheight

theorem workHeight_eq : saturatingSub clampI32 (max (input.clientHeight : ℤ) 0)
    (min (input.measured.statusHeight clampI32 dpi) (max (input.clientHeight : ℤ) 0)) =
      input.workHeight dpi := by
  have hstatus := input.measured.statusHeight_nonneg dpi
  have hmax := input.clientHeight.2.2
  rw [max_eq_left (hstatus.trans hheight), min_eq_left hheight,
    saturatingSub_eq_of_le hstatus hheight hmax, workHeight]

include hwidth

/-- Without a density that fits there are no rails. -/
theorem railMode_of_selected_eq_none (hselected : input.selected dpi = none) :
    (input.layout dpi).railMode = .menuOnly := by
  rw [selected] at hselected
  simp only [layout, calculateMainLayoutWithSafety, max_eq_left hwidth, workHeight_eq hheight,
    hselected]

/-- Rails, dividers and list share the width, where rails without a width have no dividers. -/
theorem layout_rails (hselected : input.selected dpi = some (density, railWidth, left, right)) :
    (input.layout dpi).railMode = railMode density ∧
      (input.layout dpi).railWidth = railWidth ∧
      (input.layout dpi).leftButtons = left ∧ (input.layout dpi).rightButtons = right ∧
      ∃ divider x height, (input.layout dpi).workspaceChrome =
          ⟨⟨railWidth, 0, divider, height⟩, ⟨x, 0, divider, height⟩⟩ ∧
        (input.layout dpi).list = ⟨railWidth + divider, 0,
          input.clientWidth - 2 * railWidth - 2 * divider, input.workHeight dpi⟩ ∧
        (0 < railWidth ∧ divider = 1 ∧ x = input.clientWidth - railWidth - 1 ∧
            height = input.workHeight dpi ∨
          railWidth = 0 ∧ divider = 0 ∧ x = 0 ∧ height = 0) := by
  have hmax := input.clientWidth.2.2
  obtain ⟨-, hrailWidth, hroom, -, -⟩ := of_selected hselected
  have hnonneg := input.measured.railWidth_nonneg dpi density
  rw [← hrailWidth] at hnonneg
  rw [selected] at hselected
  simp only [layout, calculateMainLayoutWithSafety, max_eq_left hwidth, workHeight_eq hheight,
    hselected, true_and]
  rcases hnonneg.lt_or_eq with hrail | rfl
  · have hwidthLeft : saturatingSub clampI32 (saturatingSub clampI32 input.clientWidth
        railWidth) 1 = input.clientWidth - railWidth - 1 := by
      rw [saturatingSub_eq_of_le hrail.le (by omega) hmax,
        saturatingSub_eq_of_le (by decide) (by omega) (by omega)]
    have hlistWidth : saturatingSub clampI32 (saturatingSub clampI32 input.clientWidth
        (saturatingMul clampI32 railWidth 2)) 2 = input.clientWidth - 2 * railWidth - 2 * 1 := by
      rw [saturatingMul_of_nonneg hrail.le (by decide), min_eq_left (by omega),
        saturatingSub_eq_of_le (by omega) (by omega) hmax,
        saturatingSub_eq_of_le (by decide) (by omega) (by omega)]
      omega
    refine ⟨1, input.clientWidth - railWidth - 1, input.workHeight dpi, ?_, ?_,
      .inl ⟨hrail, rfl, rfl, rfl⟩⟩
    · rw [workspace, if_pos hrail, hwidthLeft]
    · rw [workspace, if_pos hrail, hlistWidth,
        saturatingAdd_eq_of_le hrail.le (by decide) (by omega)]
  · refine ⟨0, 0, 0, rfl, ?_, .inr ⟨rfl, rfl, rfl, rfl⟩⟩
    rw [workspace, if_neg (lt_irrefl 0)]
    simp

/-- Message, count and cancel button share the strip below. -/
theorem layout_strip : ∃ message count : ℤ, 0 ≤ message ∧ 0 ≤ count ∧
    message + count ≤ input.clientWidth ∧
    (input.layout dpi).statusMessage = insetStatusText clampI32 dpi
      ⟨0, input.workHeight dpi, message, input.measured.statusHeight clampI32 dpi⟩ ∧
    (input.layout dpi).statusCount = insetStatusText clampI32 dpi
      ⟨message, input.workHeight dpi, count, input.measured.statusHeight clampI32 dpi⟩ ∧
    (input.layout dpi).cancel = ⟨message + count, input.workHeight dpi,
      input.clientWidth - (message + count), input.measured.statusHeight clampI32 dpi⟩ := by
  have hmax := input.clientWidth.2.2
  have hstatus0 := input.measured.statusHeight_nonneg dpi
  have hstatus : min (input.measured.statusHeight clampI32 dpi)
      (max (input.clientHeight : ℤ) 0) = input.measured.statusHeight clampI32 dpi := by
    rw [max_eq_left (hstatus0.trans hheight), min_eq_left hheight]
  have hwork := workHeight_eq hheight
  rw [hstatus] at hwork
  obtain ⟨cancel, hcancel, hcancel0⟩ : ∃ cancel, cancel = (if input.status.cancelVisible then
      saturatingAdd clampI32 (max (input.measured.cancelTextWidth : ℤ)
        (scaleDip clampI32 36 dpi)) (scaleDip clampI32 16 dpi) else 0) ∧ 0 ≤ cancel := by
    refine ⟨_, rfl, ?_⟩
    split
    · exact clampI32_nonneg (Int.add_nonneg
        (le_max_of_le_right (scaleDip_nonneg (by decide) dpi)) (scaleDip_nonneg (by decide) dpi))
    · exact le_rfl
  obtain ⟨count, hcount, hcount0⟩ : ∃ count, count = saturatingAdd clampI32
      (max (input.status.measuredCountWidth : ℤ) (scaleDip clampI32 44 dpi))
      (scaleDip clampI32 16 dpi) ∧ 0 ≤ count := by
    refine ⟨_, rfl, clampI32_nonneg (Int.add_nonneg
      (le_max_of_le_right (scaleDip_nonneg (by decide) dpi)) (scaleDip_nonneg (by decide) dpi))⟩
  obtain ⟨rest, hrest⟩ : ∃ rest, rest = (input.clientWidth : ℤ) - min cancel input.clientWidth :=
    ⟨_, rfl⟩
  have hafter : saturatingSub clampI32 input.clientWidth (min cancel input.clientWidth) = rest := by
    rw [saturatingSub_eq_of_le (by omega) (by omega) hmax, hrest]
  have hmessage : saturatingSub clampI32 rest (min count rest) = rest - min count rest :=
    saturatingSub_eq_of_le (by omega) (by omega) (by omega)
  have hright : saturatingAdd clampI32 (rest - min count rest) (min count rest) =
      rest - min count rest + min count rest :=
    saturatingAdd_eq_of_le (by omega) (by omega) (by omega)
  have hcancelWidth : (input.clientWidth : ℤ) - (rest - min count rest + min count rest) =
      min cancel input.clientWidth := by
    omega
  refine ⟨rest - min count rest, min count rest, by omega, by omega, by omega, ?_⟩
  simp only [layout, calculateMainLayoutWithSafety, max_eq_left hwidth, hstatus, hwork, ← hcancel,
    ← hcount, hafter, hmessage, hright, hcancelWidth, and_self]

omit hwidth in
/-- All parts lie in the client area, and no two of them share a pixel. -/
theorem parts_of_selected
    (hselected : input.selected dpi = some (density, railWidth, left, right)) :
    (∀ part ∈ (input.layout dpi).parts, part.Inside input.clientWidth input.clientHeight) ∧
      ((input.layout dpi).parts ++
        (input.layout dpi).railColumns input.clientWidth).Pairwise LayoutRect.Apart := by
  obtain ⟨-, hrailEq, hroom, -, -⟩ := of_selected hselected
  have hnonneg := input.measured.railWidth_nonneg dpi density
  rw [← hrailEq] at hnonneg
  have hwidth : 0 ≤ (input.clientWidth : ℤ) := by omega
  have hmax := input.clientWidth.2.2
  have hmaxHeight := input.clientHeight.2.2
  have hstatus := input.measured.statusHeight_nonneg dpi
  have hwork : input.workHeight dpi =
      input.clientHeight - input.measured.statusHeight clampI32 dpi := rfl
  obtain ⟨-, hrailWidth, -, -, divider, x, height, hchrome, hlist, hdividers⟩ :=
    layout_rails hwidth hheight hselected
  obtain ⟨message, count, hmessage, hcount, hboth, hstatusMessage, hstatusCount, hcancel⟩ :=
    layout_strip hwidth hheight
  obtain ⟨hm0, hm1, hm2, hm3, hm4, hm5⟩ := insetStatusText_inside dpi
    (⟨0, input.workHeight dpi, message, input.measured.statusHeight clampI32 dpi⟩)
    le_rfl hmessage (by dsimp only; omega) (by dsimp only; omega) hstatus (by dsimp only; omega)
  obtain ⟨hc0, hc1, hc2, hc3, hc4, hc5⟩ := insetStatusText_inside dpi
    (⟨message, input.workHeight dpi, count, input.measured.statusHeight clampI32 dpi⟩)
    hmessage hcount (by dsimp only; omega) (by dsimp only; omega) hstatus (by dsimp only; omega)
  rw [← hstatusMessage] at hm0 hm1 hm2 hm3 hm4 hm5
  rw [← hstatusCount] at hc0 hc1 hc2 hc3 hc4 hc5
  dsimp only at hm0 hm2 hm3 hm5 hc0 hc2 hc3 hc5
  rw [MainLayout.parts, MainLayout.railColumns, hrailWidth, hchrome, hlist, hcancel]
  generalize (input.layout dpi).statusMessage = messageRect at *
  generalize (input.layout dpi).statusCount = countRect at *
  generalize input.workHeight dpi = work at *
  have hheights : 0 ≤ height ∧ height ≤ work := by omega
  constructor
  · simp only [List.forall_mem_cons, LayoutRect.Inside]
    refine ⟨?_, ?_, ?_, ?_, ?_, ?_, fun _ h => absurd h List.not_mem_nil⟩ <;> omega
  · simp only [List.cons_append, List.nil_append, List.pairwise_cons, List.forall_mem_cons,
      LayoutRect.Apart, List.not_mem_nil, false_imp_iff, implies_true, and_true,
      List.Pairwise.nil]
    and_intros <;> omega

omit hwidth hheight in
theorem content_eq : input.content dpi = input.measured.emptyStateContentMetrics clampI32 dpi
    (contentWidth dpi (input.layout dpi).list.width) input.showSafety := rfl

end Parts

/-- The height of the header in a list of the given height. -/
def headerHeight (input : LayoutInput) (height : ℤ) : ℤ :=
  min (max (input.measured.listHeaderHeight : ℤ) 0) height

/-- The rows of the empty state in the data area of the list. -/
def rows (input : LayoutInput) (dpi : ℕ) : EmptyStateRows :=
  emptyStateRows clampI32 (input.content dpi) (listData clampI32 input.measured
    (input.layout dpi).list) (scaleDip clampI32 8 dpi) input.showSafety

section Rows

variable (input : LayoutInput) (dpi : ℕ) (hy : (input.layout dpi).list.y = 0)
  (hheight : 0 ≤ (input.layout dpi).list.height)
  (hmax : (input.layout dpi).list.height ≤ i32Max)

include hy hheight hmax

theorem listData_eq :
    (listData clampI32 input.measured (input.layout dpi).list).y =
        input.headerHeight (input.layout dpi).list.height ∧
      (listData clampI32 input.measured (input.layout dpi).list).height =
        (input.layout dpi).list.height - input.headerHeight (input.layout dpi).list.height := by
  rw [listData, headerHeight, hy]
  constructor
  · rw [saturatingAdd_eq_of_le le_rfl (by omega) (by omega), Int.zero_add]
  · rw [saturatingSub_eq_of_le (by omega) (by omega) hmax]

/-- The rows have their desired heights where they fit below the header. -/
theorem rows_full_iff (hmeasured : input.measured.NoWrappedHeight)
    (hheader : max (input.measured.listHeaderHeight : ℤ) 0 ≤ (input.layout dpi).list.height)
    (hbutton : 0 < scaleDip clampI32 8 dpi → 0 < (input.content dpi).addHeight)
    (hnote : input.showSafety = true → 0 < scaleDip clampI32 8 dpi →
      0 < (input.content dpi).safetyHeight) :
    (input.rows dpi).Full (input.content dpi) ↔
      max (input.measured.listHeaderHeight : ℤ) 0 +
        stackedHeight (input.content dpi) (scaleDip clampI32 8 dpi) input.showSafety ≤
          (input.layout dpi).list.height := by
  obtain ⟨hdataY, hdataHeight⟩ := listData_eq input dpi hy hheight hmax
  rw [headerHeight, min_eq_left hheader] at hdataY hdataHeight
  obtain ⟨hinstruction, hadd, hsafety⟩ := content_nonneg hmeasured dpi
    (contentWidth dpi (input.layout dpi).list.width) input.showSafety
  have htotal := @totalHeight_eq _ dpi hmeasured
    (contentWidth dpi (input.layout dpi).list.width) input.showSafety
  rw [← content_eq] at hinstruction hadd hsafety htotal
  have hgap : 0 ≤ scaleDip clampI32 8 dpi := scaleDip_nonneg (by decide) dpi
  have hheader0 := le_max_right (input.measured.listHeaderHeight : ℤ) 0
  constructor
  · intro hfull
    have hroom := stackedHeight_le_of_full (by omega) (by omega) (by omega) hgap hinstruction hadd
      hbutton hnote htotal hfull
    omega
  · intro hroom
    refine full_of_stackedHeight_le (by omega) (by omega) (by omega) hgap hinstruction hadd hsafety
      ?_ ?_ (by omega)
    · intro hhidden
      rw [content_eq, emptyStateContentMetrics, hhidden]
      rfl
    · rw [htotal, min_eq_left (by omega)]

end Rows

/-- The rows are what the layout shows. -/
theorem full_iff {input : LayoutInput} {dpi : ℕ} : (input.rows dpi).Full (input.content dpi) ↔
    (input.layout dpi).emptyInstruction.height = (input.content dpi).instructionHeight ∧
      (input.layout dpi).emptyAdd.height = (input.content dpi).addHeight ∧
      (input.layout dpi).emptySafety.height = (input.content dpi).safetyHeight :=
  ⟨fun h => ⟨h.instruction, h.button, h.safety⟩, fun h => ⟨h.1, h.2.1, h.2.2⟩⟩

end LayoutInput

end UiLayout

end DarkReNamer
