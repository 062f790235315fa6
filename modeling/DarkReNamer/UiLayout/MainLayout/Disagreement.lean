import DarkReNamer.UiLayout.MainLayout.Agreement

/-!
# Where the layout and the minimum disagree

The smallest height counts on a width for the texts of the empty state, and the layout leaves
them one. Where both are rounded differently the texts are left one pixel less, and may wrap into
more lines than were counted. All is shown exactly where the width is at least the one counted
on, or the client area is high enough for the texts as they wrap.
-/

namespace DarkReNamer

namespace UiLayout

open MeasuredFontMetrics

/-! ### What a client area leaves -/

/-- The lines that are counted for a text: those it fills, and one more where it wraps. -/
def countedLines (textWidth width : ℤ) : ℤ :=
  max (min (max textWidth 0 + (width - 1)) i32Max / width) 1 +
    if width < max textWidth 0 then 1 else 0

/-- The height of a text in a width. -/
def wrappedHeight (dpi : ℕ) (textWidth textHeight width : ℤ) : ℤ :=
  min (max textHeight (scaled 16 dpi) * countedLines textWidth width) i32Max

namespace LayoutInput

variable (input : LayoutInput) (dpi : ℕ)

/-- Both rails of the density fit above the status strip. -/
def RailsFit (density : RailDensity) : Prop :=
  railHeight leftRail (input.measured.railMetrics clampI32 density dpi) ≤ input.workHeight dpi ∧
    railHeight rightRail (input.measured.railMetrics clampI32 density dpi) ≤ input.workHeight dpi

instance (density : RailDensity) : Decidable (input.RailsFit dpi density) :=
  inferInstanceAs (Decidable (_ ∧ _))

/-- The density that the height of the client area allows. -/
def density : RailDensity :=
  match input.preference with
  | .comfortable => .comfortable
  | .automatic => if input.RailsFit dpi .comfortable then .comfortable else .compact
  | .compact | .menuOnly => .compact

def railWidth : ℤ := (input.measured.railMetrics clampI32 (input.density dpi) dpi).railWidth

/-- The width between the rails and their dividers. -/
def listWidth : ℤ :=
  input.clientWidth - 2 * input.railWidth dpi - 2 * if 0 < input.railWidth dpi then 1 else 0

/-- The width between the paddings of the empty state. -/
def textWidth : ℤ := input.listWidth dpi - 2 * min (scaled 12 dpi) (input.listWidth dpi / 2)

/-- The width that the smallest height counts on. -/
def grantedWidth : ℤ :=
  max (max (scaled 240 dpi - scaled 24 dpi) input.measured.emptyInstructionTextWidth)
    input.measured.emptyAddTextWidth

def buttonHeight : ℤ :=
  max (max (input.measured.emptyAddTextHeight : ℤ) (scaled 16 dpi) + scaled 10 dpi) (scaled 28 dpi)

/-- Header, instruction, button and safety note, with the gaps between them. -/
def neededHeight (width : ℤ) : ℤ :=
  max (input.measured.listHeaderHeight : ℤ) 0 +
    wrappedHeight dpi input.measured.emptyInstructionTextWidth
      input.measured.emptyInstructionTextHeight width +
    scaled 8 dpi + input.buttonHeight dpi +
    if input.showSafety then scaled 8 dpi + wrappedHeight dpi
      input.measured.emptySafetyTextWidth input.measured.emptySafetyTextHeight width else 0

/-- The rails leave a pixel, and the texts are left the width that was counted on or fit the
height as they wrap. -/
structure Roomy : Prop where
  rails : 2 * input.railWidth dpi + 2 < input.clientWidth
  texts : 0 < input.grantedWidth dpi ∧ input.grantedWidth dpi ≤ input.textWidth dpi ∨
    input.neededHeight dpi (input.textWidth dpi) ≤ input.workHeight dpi

end LayoutInput

theorem countedLines_pos (textWidth width : ℤ) : 1 ≤ countedLines textWidth width := by
  have hlines := le_max_right (min (max textWidth 0 + (width - 1)) i32Max / width) 1
  rw [countedLines]
  split <;> omega

/-- The lines are those of the source, saturation included. -/
theorem conservativeWrappedTextHeight_eq {textWidth lineHeight width : ℤ} (hwidth : 0 < width)
    (hline : 0 ≤ lineHeight) :
    conservativeWrappedTextHeight clampI32 textWidth lineHeight width =
      min (lineHeight * countedLines textWidth width) i32Max := by
  have hi32Max : i32Max = 2147483647 := rfl
  have htext : 0 ≤ max textWidth 0 := le_max_right _ _
  have hsum : saturatingAdd clampI32 (max textWidth 0) (width - 1) =
      min (max textWidth 0 + (width - 1)) i32Max :=
    saturatingAdd_of_nonneg htext (by omega)
  rw [conservativeWrappedTextHeight, countedLines]
  simp only [if_neg (not_le.2 hwidth), max_eq_left hline, hsum, gt_iff_lt]
  rw [Int.tdiv_eq_ediv_of_nonneg (by omega)]
  have hlines := le_max_right (min (max textWidth 0 + (width - 1)) i32Max / width) 1
  generalize max (min (max textWidth 0 + (width - 1)) i32Max / width) 1 = lines at *
  split
  · rw [saturatingAdd_of_nonneg (by omega) (by decide),
      saturatingMul_of_nonneg hline (by omega)]
    rcases le_total (lines + 1) i32Max with hfits | hover
    · rw [min_eq_left hfits]
    · rw [min_eq_right hover]
      rcases hline.lt_or_eq with hpositive | rfl
      · have hone : 1 ≤ lineHeight := hpositive
        have hsmall := Int.mul_le_mul_of_nonneg_right hone (show 0 ≤ i32Max by decide)
        have hlarge := Int.mul_le_mul_of_nonneg_right hone (show 0 ≤ lines + 1 by omega)
        omega
      · simp
  · rw [saturatingMul_of_nonneg hline (by omega), Int.add_zero]

namespace LayoutInput

/-! ### What the smallest size grants -/

section Admitted

variable {input : LayoutInput} {dpi extra : ℕ}

theorem density_mem_candidates (hrails : input.preference ≠ .menuOnly) :
    input.density dpi ∈ input.preference.candidates := by
  rw [density]
  cases hpreference : input.preference with
  | automatic =>
      dsimp only
      split <;> decide
  | comfortable | compact => exact List.mem_singleton_self _
  | menuOnly => exact absurd hpreference hrails

theorem railWidth_le {density : RailDensity} (hdensity : density ∈ input.preference.candidates) :
    (input.measured.railMetrics clampI32 density dpi).railWidth ≤
      widestRail dpi input.measured input.preference :=
  (input.measured.railMetrics_below dpi density).width.trans (railWidth_le_widestRail hdensity)

theorem grantedWidth_eq :
    input.grantedWidth dpi = input.measured.emptyStateMinimumWidth id dpi - scaled 24 dpi := by
  have hpadding : scaled 24 dpi ≤ scaled 240 dpi := by
    rw [scaled_of_nonneg (by decide), scaled_of_nonneg (by decide)]
    omega
  have hminimum : input.measured.emptyStateMinimumWidth id dpi =
      max (max (scaled 240 dpi)
        (max (input.measured.emptyInstructionTextWidth : ℤ) 0 + scaled 24 dpi))
        (max (input.measured.emptyAddTextWidth : ℤ) 0 + scaled 24 dpi) := rfl
  rw [grantedWidth, hminimum]
  omega

namespace Admitted

variable (h : input.Admitted dpi extra)

include h

/-- The columns and the empty state have their widths between the widest rails. -/
theorem widths :
    (0 < widestRail dpi input.measured input.preference →
      2 * widestRail dpi input.measured input.preference + 2 < (input.clientWidth : ℤ)) ∧
      2 * widestRail dpi input.measured input.preference +
        2 * (if 0 < widestRail dpi input.measured input.preference then 1 else 0) +
          (input.grantedWidth dpi + scaled 24 dpi) + extra ≤ input.clientWidth := by
  obtain ⟨least, hleast⟩ := exists_minimumDensity h.rails
  have hwidth := h.width
  rw [h.widthExact, minimumWidth, minimumMainClientWidth_id, hleast] at hwidth
  have hgranted : input.grantedWidth dpi =
      input.measured.emptyStateMinimumWidth id dpi - scaled 24 dpi := grantedWidth_eq
  have n120 : 0 ≤ scaled 120 dpi := scaled_nonneg (by decide) dpi
  have n80 : 0 ≤ scaled 80 dpi := scaled_nonneg (by decide) dpi
  simp only [Option.elim_some, gt_iff_lt] at hwidth
  constructor
  · intro hwidest
    rw [if_pos hwidest] at hwidth
    omega
  · split at hwidth <;> omega

theorem clientWidth_nonneg : 0 ≤ (input.clientWidth : ℤ) := by
  obtain ⟨least, hleast⟩ := exists_minimumDensity h.rails
  have hwidth := h.width
  have n52 : 0 ≤ scaled 52 dpi := scaled_nonneg (by decide) dpi
  have n120 : 0 ≤ scaled 120 dpi := scaled_nonneg (by decide) dpi
  have n80 : 0 ≤ scaled 80 dpi := scaled_nonneg (by decide) dpi
  have hwidest := (scaled_le_railWidth input.measured dpi least).trans
    (railWidth_le_widestRail (mem_candidates_of_minimumDensity hleast))
  rw [h.widthExact, minimumWidth, minimumMainClientWidth_id, hleast] at hwidth
  simp only [Option.elim_some] at hwidth
  split at hwidth <;> omega

/-- The rails of the least density fit, and so does what was counted for the empty state. -/
theorem heights : input.measured.statusHeight clampI32 dpi ≤ input.clientHeight ∧
    (∀ least, input.preference.minimumDensity = some least → input.RailsFit dpi least) ∧
    input.measured.emptyStateRequiredHeight id dpi input.showSafety ≤ input.workHeight dpi := by
  obtain ⟨least, hleast⟩ := exists_minimumDensity h.rails
  have hheight := h.height
  have hstatus := input.measured.statusHeight_le dpi
  rw [h.heightExact, minimumHeight, minimumMainClientHeight_id _ hleast] at hheight
  have hleft := railHeight_mono (input.measured.railMetrics_below dpi least) leftRail
  have hright := railHeight_mono (input.measured.railMetrics_below dpi least) rightRail
  have hleft0 : 0 ≤ railHeight leftRail (input.measured.railMetrics clampI32 least dpi) := by
    obtain ⟨htop, hbottom, hbutton, hgap⟩ := input.measured.railMetrics_nonneg dpi least
    rw [railHeight_leftRail]
    omega
  have hwork : input.workHeight dpi =
      input.clientHeight - input.measured.statusHeight clampI32 dpi := rfl
  refine ⟨by omega, ?_, by omega⟩
  intro density hdensity
  obtain rfl : density = least := Option.some.inj (hdensity.symm.trans hleast)
  exact ⟨by omega, by omega⟩

theorem railsFit : input.RailsFit dpi (input.density dpi) := by
  obtain ⟨-, hfits, -⟩ := h.heights
  cases hpreference : input.preference with
  | automatic =>
      by_cases hcomfortable : input.RailsFit dpi .comfortable
      · simpa only [density, hpreference, if_pos hcomfortable] using hcomfortable
      · simp only [density, hpreference, if_neg hcomfortable]
        exact hfits _ (by rw [hpreference]; rfl)
  | comfortable | compact =>
      simp only [density, hpreference]
      exact hfits _ (by rw [hpreference]; rfl)
  | menuOnly => exact absurd hpreference h.rails

/-- The layout selects that density where its rails leave a pixel. -/
theorem exists_selected (hroom : 2 * input.railWidth dpi + 2 < (input.clientWidth : ℤ)) :
    ∃ left right, input.selected dpi =
      some (input.density dpi, input.railWidth dpi, left, right) := by
  have hmax := input.clientWidth.2.2
  have hheight : input.workHeight dpi ≤ i32Max := by
    have hmaxHeight := input.clientHeight.2.2
    have hstatus := input.measured.statusHeight_nonneg dpi
    rw [workHeight]
    omega
  obtain ⟨hleft, hright⟩ := h.railsFit
  obtain ⟨⟨chosen, railWidth, left, right⟩, htry⟩ := Option.isSome_iff_exists.1
    ((isSome_tryDensity_iff hmax hheight).2 ⟨hroom, hleft, hright⟩)
  obtain ⟨rfl, rfl, -⟩ := of_tryDensity_eq_some hmax htry
  refine ⟨left, right, Eq.trans ?_ htry⟩
  cases hpreference : input.preference with
  | automatic =>
      simp only [selected, hpreference, RailDensityPreference.candidates, List.findSome?_cons,
        List.findSome?_nil]
      by_cases hcomfortable : input.RailsFit dpi .comfortable
      · have hdensity : input.density dpi = .comfortable := by
          simp only [density, hpreference, if_pos hcomfortable]
        rw [hdensity] at htry ⊢
        rw [htry]
      · have hdensity : input.density dpi = .compact := by
          simp only [density, hpreference, if_neg hcomfortable]
        have hnone : tryDensity clampI32 dpi input.measured input.clientWidth
            (input.workHeight dpi) .comfortable = none := by
          rw [← Option.not_isSome_iff_eq_none, isSome_tryDensity_iff hmax hheight]
          exact fun hsome => hcomfortable hsome.2
        rw [hdensity] at htry ⊢
        rw [hnone, htry]
  | comfortable | compact =>
      simp only [density, hpreference] at htry
      simp only [selected, hpreference, RailDensityPreference.candidates, List.findSome?_cons,
        density, htry]
  | menuOnly => exact absurd hpreference h.rails

/-- Where they leave none no density is selected. -/
theorem selected_eq_none (hroom : ¬2 * input.railWidth dpi + 2 < (input.clientWidth : ℤ)) :
    input.selected dpi = none := by
  have hwidest := h.widths.1
  have hchosen : (input.measured.railMetrics clampI32 (input.density dpi) dpi).railWidth ≤ _ :=
    railWidth_le (density_mem_candidates h.rails)
  have hnonneg := input.measured.railWidth_nonneg dpi (input.density dpi)
  rw [railWidth] at hroom
  cases hselected : input.selected dpi with
  | none => rfl
  | some found =>
      obtain ⟨hcandidate, hrailWidth, hleaves, -, -⟩ := of_selected hselected
      have hle : (input.measured.railMetrics clampI32 found.1 dpi).railWidth ≤ _ :=
        railWidth_le hcandidate
      have hfound := input.measured.railWidth_nonneg dpi found.1
      omega

/-- The list has the width between the rails and their dividers. -/
theorem exists_list {left right : List CommandPlacement} (hselected : input.selected dpi =
    some (input.density dpi, input.railWidth dpi, left, right)) :
    ∃ x, (input.layout dpi).list = ⟨x, 0, input.listWidth dpi, input.workHeight dpi⟩ := by
  obtain ⟨-, -, hroom, -, -⟩ := of_selected hselected
  have hnonneg : 0 ≤ input.railWidth dpi := input.measured.railWidth_nonneg dpi _
  obtain ⟨-, -, -, -, divider, x, height, -, hlist, hdividers⟩ :=
    layout_rails (by omega) h.heights.1 hselected
  have hdivider : divider = if 0 < input.railWidth dpi then 1 else 0 := by
    split <;> omega
  exact ⟨_, by rw [hlist, listWidth, hdivider]⟩

theorem le_listWidth : input.grantedWidth dpi + scaled 24 dpi + extra ≤ input.listWidth dpi := by
  have hwidths := h.widths.2
  have hchosen : input.railWidth dpi ≤ _ := railWidth_le (density_mem_candidates h.rails)
  rw [listWidth]
  split <;> split at hwidths <;> omega

/-- The paddings take no more than was counted, but for what they are rounded up. -/
theorem grantedWidth_le (hpaddings : 2 * scaled 12 dpi ≤ scaled 24 dpi + extra) :
    input.grantedWidth dpi ≤ input.textWidth dpi := by
  have hlist := h.le_listWidth
  rw [textWidth]
  omega

theorem textWidth_pos (hroom : 2 * input.railWidth dpi + 2 < (input.clientWidth : ℤ)) :
    0 < input.textWidth dpi := by
  have hnonneg : 0 ≤ input.railWidth dpi := input.measured.railWidth_nonneg dpi _
  have hlist := h.le_listWidth
  have hgranted : scaled 240 dpi - scaled 24 dpi ≤ input.grantedWidth dpi :=
    le_max_of_le_left (le_max_left _ _)
  have hpositive : 0 < input.listWidth dpi := by
    rw [listWidth]
    split <;> omega
  rw [scaled_of_nonneg (by decide)] at hgranted
  rw [textWidth, scaled_of_nonneg (by decide)]
  omega

/-- What was counted for the empty state does not saturate. -/
theorem exact : scaled 8 dpi ≤ i32Max ∧ input.buttonHeight dpi ≤ i32Max ∧
    max (input.measured.listHeaderHeight : ℤ) 0 ≤ input.workHeight dpi := by
  obtain ⟨hstatus, -, hrequired⟩ := h.heights
  have hmax := input.clientHeight.2.2
  have hstatus0 := input.measured.statusHeight_nonneg dpi
  have hwork : input.workHeight dpi =
      input.clientHeight - input.measured.statusHeight clampI32 dpi := rfl
  have hcounted : input.measured.emptyStateRequiredHeight id dpi input.showSafety =
      (input.measured.emptyStateContentMetrics id dpi
        (input.measured.emptyStateMinimumWidth id dpi - scaled 24 dpi)
        input.showSafety).totalHeight + scaled 24 dpi +
        max (input.measured.listHeaderHeight : ℤ) 0 := rfl
  rw [hcounted, totalHeight_id, stackedHeight] at hrequired
  obtain ⟨hinstruction, hsafety⟩ := content_id_nonneg h.measured dpi
    (input.measured.emptyStateMinimumWidth id dpi - scaled 24 dpi) input.showSafety
  have hbutton : (input.measured.emptyStateContentMetrics id dpi
      (input.measured.emptyStateMinimumWidth id dpi - scaled 24 dpi)
      input.showSafety).addHeight = input.buttonHeight dpi := rfl
  have hbutton0 : 0 ≤ input.buttonHeight dpi :=
    le_max_of_le_right (scaled_nonneg (by decide) dpi)
  have n8 : 0 ≤ scaled 8 dpi := scaled_nonneg (by decide) dpi
  have n24 : 0 ≤ scaled 24 dpi := scaled_nonneg (by decide) dpi
  have hnote : 0 ≤ if input.showSafety then scaled 8 dpi +
      (input.measured.emptyStateContentMetrics id dpi
        (input.measured.emptyStateMinimumWidth id dpi - scaled 24 dpi)
        input.showSafety).safetyHeight else 0 := by
    split <;> omega
  rw [hbutton] at hrequired
  omega

theorem contentWidth_eq_textWidth (hroom : 2 * input.railWidth dpi + 2 < (input.clientWidth : ℤ))
    (hlist : (input.layout dpi).list.width = input.listWidth dpi) :
    contentWidth dpi (input.layout dpi).list.width = input.textWidth dpi := by
  have hmax := input.clientWidth.2.2
  have hnonneg : 0 ≤ input.railWidth dpi := input.measured.railWidth_nonneg dpi _
  have hpositive := h.textWidth_pos hroom
  have hlistWidth : 0 ≤ input.listWidth dpi ∧ input.listWidth dpi ≤ i32Max := by
    rw [listWidth]
    split <;> omega
  rw [hlist, contentWidth_eq hlistWidth.1 hlistWidth.2, scaleDip,
    clampI32_of_nonneg (scaled_nonneg (by decide) dpi)]
  rw [textWidth] at hpositive ⊢
  omega

/-- The content of the empty state is what fills the height that is needed. -/
theorem content_eq_needed (hroom : 2 * input.railWidth dpi + 2 < (input.clientWidth : ℤ))
    (hlist : (input.layout dpi).list.width = input.listWidth dpi) :
    (input.content dpi).instructionHeight = wrappedHeight dpi
        input.measured.emptyInstructionTextWidth input.measured.emptyInstructionTextHeight
        (input.textWidth dpi) ∧
      (input.content dpi).addHeight = input.buttonHeight dpi ∧
      (input.content dpi).safetyHeight = if input.showSafety then wrappedHeight dpi
        input.measured.emptySafetyTextWidth input.measured.emptySafetyTextHeight
        (input.textWidth dpi) else 0 := by
  obtain ⟨-, hbutton, -⟩ := h.exact
  have hpositive := h.textWidth_pos hroom
  have n16 : 0 ≤ scaled 16 dpi := scaled_nonneg (by decide) dpi
  have n10 : 0 ≤ scaled 10 dpi := scaled_nonneg (by decide) dpi
  have hbuttonEq : input.buttonHeight dpi = max (max (input.measured.emptyAddTextHeight : ℤ)
    (scaled 16 dpi) + scaled 10 dpi) (scaled 28 dpi) := rfl
  have hwidth : max (contentWidth dpi (input.layout dpi).list.width) 0 = input.textWidth dpi := by
    rw [h.contentWidth_eq_textWidth hroom hlist, max_eq_left hpositive.le]
  have hline : scaleDip clampI32 16 dpi = scaled 16 dpi :=
    faithful_clampI32.scaleDip (by decide) (by omega)
  have hwrapped (width height : ℤ) : conservativeWrappedTextHeight clampI32 (max width 0)
      (max height (scaled 16 dpi)) (input.textWidth dpi) =
        wrappedHeight dpi width height (input.textWidth dpi) := by
    rw [conservativeWrappedTextHeight_eq hpositive (le_max_of_le_right n16), wrappedHeight,
      countedLines, countedLines, max_eq_left (le_max_right width 0)]
  rw [LayoutInput.content_eq]
  simp only [emptyStateContentMetrics, hwidth, hline, hwrapped,
    emptyStateTextHeight_of_nonpos _ h.measured.instruction,
    emptyStateTextHeight_of_nonpos _ h.measured.safety, true_and, and_true]
  rw [faithful_clampI32.scaleDip (by decide) (by omega),
    faithful_clampI32.scaleDip (by decide) (by omega),
    saturatingAdd_eq_of_le (le_max_of_le_right n16) n10 (by omega), hbuttonEq]

theorem neededHeight_eq (hroom : 2 * input.railWidth dpi + 2 < (input.clientWidth : ℤ))
    (hlist : (input.layout dpi).list.width = input.listWidth dpi) :
    input.neededHeight dpi (input.textWidth dpi) = max (input.measured.listHeaderHeight : ℤ) 0 +
      stackedHeight (input.content dpi) (scaleDip clampI32 8 dpi) input.showSafety := by
  obtain ⟨hgap, -, -⟩ := h.exact
  obtain ⟨hinstruction, hbutton, hsafety⟩ := h.content_eq_needed hroom hlist
  rw [neededHeight, stackedHeight, hinstruction, hbutton, hsafety,
    faithful_clampI32.scaleDip (by decide) hgap]
  cases input.showSafety with
  | true =>
      simp only [if_true]
      omega
  | false =>
      simp only [Bool.false_eq_true, if_false]
      omega

/-- The texts have their heights where the client area has the height that they need. -/
theorem full_iff_neededHeight_le {left right : List CommandPlacement}
    (hselected : input.selected dpi =
      some (input.density dpi, input.railWidth dpi, left, right)) :
    (input.rows dpi).Full (input.content dpi) ↔
      input.neededHeight dpi (input.textWidth dpi) ≤ input.workHeight dpi := by
  obtain ⟨-, -, hroom, -, -⟩ := of_selected hselected
  obtain ⟨x, hlist⟩ := h.exists_list hselected
  obtain ⟨hgap, -, hheader⟩ := h.exact
  have hlistWidth : (input.layout dpi).list.width = input.listWidth dpi := by rw [hlist]
  obtain ⟨-, hbutton, hsafety⟩ := h.content_eq_needed hroom hlistWidth
  have hheader0 := le_max_right (input.measured.listHeaderHeight : ℤ) 0
  have hworkMax : input.workHeight dpi ≤ i32Max := by
    have hmax := input.clientHeight.2.2
    have hstatus := input.measured.statusHeight_nonneg dpi
    rw [workHeight]
    omega
  -- where the gaps have a pixel a line and the button have one too
  have hpixel : 0 < scaleDip clampI32 8 dpi → 0 < scaled 16 dpi ∧ 0 < scaled 28 dpi := by
    rw [faithful_clampI32.scaleDip (by decide) hgap]
    simp only [scaled_of_nonneg (show (0 : ℤ) ≤ 8 by decide),
      scaled_of_nonneg (show (0 : ℤ) ≤ 16 by decide),
      scaled_of_nonneg (show (0 : ℤ) ≤ 28 by decide)]
    omega
  rw [h.neededHeight_eq hroom hlistWidth, rows_full_iff input dpi (by rw [hlist])
    (by rw [hlist]; dsimp only; omega) (by rw [hlist]; exact hworkMax) h.measured
    (by rw [hlist]; exact hheader), hlist]
  · intro hgapPixel
    rw [hbutton]
    exact lt_max_of_lt_right (hpixel hgapPixel).2
  · intro hshown hgapPixel
    have hlines := countedLines_pos input.measured.emptySafetyTextWidth (input.textWidth dpi)
    have hmax : 0 < i32Max := by decide
    rw [hsafety, if_pos hshown, wrappedHeight]
    exact lt_min (Int.mul_pos (lt_max_of_lt_right (hpixel hgapPixel).1) (by omega)) hmax

/-- The height that was counted is enough in the width that was counted on, and in any larger. -/
theorem neededHeight_le (hroom : 2 * input.railWidth dpi + 2 < (input.clientWidth : ℤ))
    (hlist : (input.layout dpi).list.width = input.listWidth dpi)
    (hpositive : 0 < input.grantedWidth dpi)
    (hgranted : input.grantedWidth dpi ≤ input.textWidth dpi) :
    input.neededHeight dpi (input.textWidth dpi) ≤ input.workHeight dpi := by
  obtain ⟨-, -, hrequired⟩ := h.heights
  have hcounted : input.measured.emptyStateRequiredHeight id dpi input.showSafety =
      (input.measured.emptyStateContentMetrics id dpi
        (input.measured.emptyStateMinimumWidth id dpi - scaled 24 dpi)
        input.showSafety).totalHeight + scaled 24 dpi +
        max (input.measured.listHeaderHeight : ℤ) 0 := rfl
  have hstacked := stackedHeight_le h.measured dpi (input.grantedWidth dpi)
    (contentWidth dpi (input.layout dpi).list.width) hpositive
    (by rw [h.contentWidth_eq_textWidth hroom hlist]; exact hgranted) input.showSafety
  have n24 : 0 ≤ scaled 24 dpi := scaled_nonneg (by decide) dpi
  rw [← content_eq, grantedWidth_eq] at hstacked
  rw [h.neededHeight_eq hroom hlist]
  omega

theorem roomy_of_shown (hshown : input.Shown dpi) : input.Roomy dpi := by
  have hroom : 2 * input.railWidth dpi + 2 < (input.clientWidth : ℤ) := by
    by_contra hnone
    exact hshown.rails (railMode_of_selected_eq_none h.clientWidth_nonneg h.heights.1
      (h.selected_eq_none hnone))
  obtain ⟨left, right, hselected⟩ := h.exists_selected hroom
  exact ⟨hroom, .inr ((h.full_iff_neededHeight_le hselected).1
    (full_iff.2 ⟨hshown.instruction, hshown.button, hshown.safety⟩))⟩

theorem shown_of_roomy (hroomy : input.Roomy dpi) : input.Shown dpi := by
  obtain ⟨hroom, htexts⟩ := hroomy
  obtain ⟨left, right, hselected⟩ := h.exists_selected hroom
  obtain ⟨x, hlist⟩ := h.exists_list hselected
  have hneeded : input.neededHeight dpi (input.textWidth dpi) ≤ input.workHeight dpi := by
    rcases htexts with ⟨hpositive, hgranted⟩ | hneeded
    · exact h.neededHeight_le hroom (by rw [hlist]) hpositive hgranted
    · exact hneeded
  obtain ⟨hinstruction, hbutton, hsafety⟩ :=
    full_iff.1 ((h.full_iff_neededHeight_le hselected).2 hneeded)
  obtain ⟨-, -, -, hstackedLeft, hstackedRight⟩ := of_selected hselected
  obtain ⟨hmode, -, hleft, hright, -⟩ :=
    layout_rails h.clientWidth_nonneg h.heights.1 hselected
  obtain ⟨hinside, hapart⟩ := parts_of_selected h.heights.1 hselected
  refine ⟨?_, hinside, hapart, ?_, ?_, hinstruction, hbutton, hsafety⟩
  · rw [hmode]
    cases input.density dpi <;> decide
  · rw [hlist, hleft]
    exact hstackedLeft
  · rw [hlist, hright]
    exact hstackedRight

/-- The paddings of the layout and that of the minimum differ by a pixel at most, and at some DPIs
only. -/
theorem roomy_of_rounded (hdpi : 0 < dpi) (hrounded : dpi % 8 ≠ 4 ∧ dpi % 8 ≠ 5 ∨ 0 < extra) :
    input.Roomy dpi := by
  have hpositive : 0 < scaled 52 dpi ∧ 0 < scaled 240 dpi - scaled 24 dpi ∧
      2 * scaled 12 dpi ≤ scaled 24 dpi + extra := by
    rw [scaled_of_nonneg (by decide), scaled_of_nonneg (by decide),
      scaled_of_nonneg (by decide), scaled_of_nonneg (by decide)]
    omega
  obtain ⟨least, hleast⟩ := exists_minimumDensity h.rails
  have hwidest := (scaled_le_railWidth input.measured dpi least).trans
    (railWidth_le_widestRail (mem_candidates_of_minimumDensity hleast))
  have hchosen : input.railWidth dpi ≤ _ := railWidth_le (density_mem_candidates h.rails)
  have hleaves := h.widths.1 (by omega)
  have hgranted : 0 < input.grantedWidth dpi :=
    lt_max_of_lt_left (lt_max_of_lt_left hpositive.2.1)
  exact ⟨by omega, .inl ⟨hgranted, h.grantedWidth_le hpositive.2.2⟩⟩

end Admitted

end Admitted

end LayoutInput

/-! ### Where all is shown -/

/-- Metrics of a window whose only text is the instruction. -/
def instructionOnly (textWidth textHeight : I32) : MeasuredFontMetrics where
  listHeaderHeight := ⟨0, by decide⟩
  buttonTextWidth := ⟨0, by decide⟩
  buttonTextHeight := ⟨0, by decide⟩
  statusTextHeight := ⟨0, by decide⟩
  cancelTextWidth := ⟨0, by decide⟩
  cancelTextHeight := ⟨0, by decide⟩
  emptyInstructionTextWidth := textWidth
  emptyInstructionTextHeight := textHeight
  emptySafetyTextWidth := ⟨0, by decide⟩
  emptySafetyTextHeight := ⟨0, by decide⟩
  emptyAddTextWidth := ⟨0, by decide⟩
  emptyAddTextHeight := ⟨0, by decide⟩
  emptyWrapWidth := ⟨0, by decide⟩
  emptyInstructionWrappedHeight := ⟨0, by decide⟩
  emptySafetyWrappedHeight := ⟨0, by decide⟩
  dropOverlayTextWidth := ⟨0, by decide⟩
  dropOverlayTextHeight := ⟨0, by decide⟩

/-- A client area at 100 DPI without any text. -/
def bareInput : LayoutInput where
  measured := instructionOnly ⟨0, by decide⟩ ⟨0, by decide⟩
  preference := .automatic
  showSafety := false
  statusWidth := ⟨0, by decide⟩
  status := ⟨false, ⟨0, by decide⟩⟩
  clientWidth := ⟨444, by decide⟩
  clientHeight := ⟨326, by decide⟩

/-- Large wrapped texts in the smallest client area at 100 DPI. -/
def largeTextInput : LayoutInput where
  measured := { instructionOnly ⟨320, by decide⟩ ⟨48, by decide⟩ with
    emptySafetyTextWidth := ⟨4000, by decide⟩
    emptySafetyTextHeight := ⟨48, by decide⟩
    emptyAddTextWidth := ⟨180, by decide⟩
    emptyAddTextHeight := ⟨44, by decide⟩ }
  preference := .automatic
  showSafety := true
  statusWidth := ⟨0, by decide⟩
  status := ⟨false, ⟨0, by decide⟩⟩
  clientWidth := ⟨455, by decide⟩
  clientHeight := ⟨834, by decide⟩

def highTextInput : LayoutInput := { largeTextInput with clientHeight := ⟨905, by decide⟩ }

/-- In a client area of at least the smallest size all is shown exactly where it is roomy, and it
is roomy at a DPI where both paddings are rounded alike and wherever a pixel is left over. -/
theorem LayoutInput.shown_iff_roomy {input : LayoutInput} {dpi extra : ℕ}
    (h : input.Admitted dpi extra) :
    (input.Shown dpi ↔ input.Roomy dpi) ∧
      (0 < dpi → dpi % 8 ≠ 4 ∧ dpi % 8 ≠ 5 ∨ 0 < extra → input.Roomy dpi) :=
  ⟨⟨h.roomy_of_shown, h.shown_of_roomy⟩, h.roomy_of_rounded⟩

/-- At 100 DPI a client area without texts is roomy, one with large texts is not, and it is again
where it is 71 pixels higher. -/
theorem LayoutInput.shown_iff_roomy_large : (bareInput.Roomy 100 ∧ bareInput.Shown 100) ∧
    (¬largeTextInput.Roomy 100 ∧ ¬largeTextInput.Shown 100) ∧
    highTextInput.grantedWidth 100 = highTextInput.textWidth 100 + 1 ∧
      highTextInput.Roomy 100 ∧ highTextInput.Shown 100 := by
  have hbare : bareInput.Roomy 100 := ⟨by decide +kernel, .inl (by decide +kernel)⟩
  have hhigh : highTextInput.Roomy 100 := ⟨by decide +kernel, .inr (by decide +kernel)⟩
  have hlarge : ¬largeTextInput.Roomy 100 := by
    rintro ⟨-, hwidth | hheight⟩
    · exact absurd hwidth (by decide +kernel)
    · exact absurd hheight (by decide +kernel)
  have hbareAdmitted : bareInput.Admitted 100 0 := ⟨by decide, ⟨by decide, by decide⟩,
    by decide +kernel, by decide +kernel, by decide +kernel, by decide +kernel⟩
  have hlargeAdmitted : largeTextInput.Admitted 100 0 := ⟨by decide, ⟨by decide, by decide⟩,
    by decide +kernel, by decide +kernel, by decide +kernel, by decide +kernel⟩
  have hhighAdmitted : highTextInput.Admitted 100 0 := ⟨by decide, ⟨by decide, by decide⟩,
    by decide +kernel, by decide +kernel, by decide +kernel, by decide +kernel⟩
  have hbareShown := (shown_iff_roomy hbareAdmitted).1
  have hlargeShown := (shown_iff_roomy hlargeAdmitted).1
  have hhighShown := (shown_iff_roomy hhighAdmitted).1
  exact ⟨⟨hbare, hbareShown.2 hbare⟩, ⟨hlarge, fun h => hlarge (hlargeShown.1 h)⟩,
    by decide +kernel, hhigh, hhighShown.2 hhigh⟩

/-- The instruction needs three lines instead of one, and the safety note loses 71 pixels. -/
theorem not_shown_largeTextInput :
    largeTextInput.Admitted 100 0 ∧
      (largeTextInput.layout 100).emptySafety.height = 601 ∧
      (largeTextInput.content 100).safetyHeight = 672 ∧ ¬largeTextInput.Shown 100 := by
  have hlayout : (largeTextInput.layout 100).emptySafety.height = 601 := by decide +kernel
  have hcontent : (largeTextInput.content 100).safetyHeight = 672 := by decide +kernel
  refine ⟨⟨by decide, ⟨by decide, by decide⟩, by decide +kernel, by decide +kernel,
    by decide +kernel, by decide +kernel⟩, hlayout, hcontent, fun h => ?_⟩
  have hsafety := h.safety
  rw [hlayout, hcontent] at hsafety
  exact absurd hsafety (by decide)

end UiLayout

end DarkReNamer
