import DarkReNamer.UiLayout.MainLayout

/-!
# Bounds of the main window's measures

What the source computes is at most what it would compute without saturation, and a text that
wraps in a width is not higher in a larger one.
-/

namespace DarkReNamer

namespace UiLayout

/-! ### Wrapped text -/

/-- The lines of a text in a positive width. -/
def wrappedLines (width availableWidth : ℤ) : ℤ :=
  max ((width + (availableWidth - 1)) / availableWidth) 1 +
    if width > availableWidth then 1 else 0

theorem one_le_wrappedLines (width availableWidth : ℤ) : 1 ≤ wrappedLines width availableWidth := by
  have hlines := le_max_right ((width + (availableWidth - 1)) / availableWidth) 1
  rw [wrappedLines]
  split <;> omega

/-- A quotient rounded up is the least number of pieces that are enough. -/
theorem ceil_le_ceil {width small large : ℤ} (hsmall : 0 < small) (h : small ≤ large)
    (hwidth : 0 ≤ width) :
    (width + (large - 1)) / large ≤ (width + (small - 1)) / small := by
  have hpieces : width ≤ (width + (small - 1)) / small * small := by
    have hlt := Int.lt_ediv_add_one_mul_self (width + (small - 1)) hsmall
    rw [Int.add_mul, Int.one_mul] at hlt
    omega
  have hnonneg : 0 ≤ (width + (small - 1)) / small := Int.ediv_nonneg (by omega) (by omega)
  generalize (width + (small - 1)) / small = pieces at *
  have hlarge : pieces * small ≤ pieces * large := Int.mul_le_mul_of_nonneg_left h hnonneg
  have hlt : (width + (large - 1)) / large < pieces + 1 := by
    refine Int.ediv_lt_of_lt_mul (by omega) ?_
    rw [Int.add_mul, Int.one_mul]
    omega
  omega

theorem wrappedLines_antitone {width small large : ℤ} (hsmall : 0 < small) (h : small ≤ large)
    (hwidth : 0 ≤ width) : wrappedLines width large ≤ wrappedLines width small := by
  have hceil := ceil_le_ceil hsmall h hwidth
  rw [wrappedLines, wrappedLines]
  refine Int.add_le_add (max_le_max hceil le_rfl) ?_
  split
  · rw [if_pos (by omega)]
  · split <;> omega

section Wrapped

variable {unwrappedWidth lineHeight availableWidth : ℤ}

theorem conservativeWrappedTextHeight_id (havailable : 0 < availableWidth) :
    conservativeWrappedTextHeight id unwrappedWidth lineHeight availableWidth =
      max lineHeight 0 * wrappedLines (max unwrappedWidth 0) availableWidth := by
  have hwidth : 0 ≤ max unwrappedWidth 0 := le_max_right _ _
  rw [conservativeWrappedTextHeight, wrappedLines]
  simp only [if_neg (not_le.2 havailable), saturatingAdd_id, saturatingMul_id]
  rw [Int.tdiv_eq_ediv_of_nonneg (by omega)]
  split
  · rfl
  · rw [Int.add_zero]

theorem conservativeWrappedTextHeight_id_nonneg :
    0 ≤ conservativeWrappedTextHeight id unwrappedWidth lineHeight availableWidth := by
  rcases le_or_gt availableWidth 0 with havailable | havailable
  · rw [conservativeWrappedTextHeight, if_pos havailable]
  · have hlines := one_le_wrappedLines (max unwrappedWidth 0) availableWidth
    rw [conservativeWrappedTextHeight_id havailable]
    exact Int.mul_nonneg (le_max_right _ _) (by omega)

theorem conservativeWrappedTextHeight_nonneg :
    0 ≤ conservativeWrappedTextHeight clampI32 unwrappedWidth lineHeight availableWidth := by
  rw [conservativeWrappedTextHeight]
  split
  · exact le_rfl
  · refine clampI32_nonneg (Int.mul_nonneg (le_max_right _ _) ?_)
    have hlines : 0 ≤ max ((saturatingAdd clampI32 (max unwrappedWidth 0)
        (availableWidth - 1)).tdiv availableWidth) 1 :=
      Int.le_trans (by decide) (le_max_right _ _)
    split
    · exact clampI32_nonneg (by omega)
    · exact hlines

/-- Saturation takes lines away, if anything. -/
theorem conservativeWrappedTextHeight_le (havailable : 0 < availableWidth) :
    conservativeWrappedTextHeight clampI32 unwrappedWidth lineHeight availableWidth ≤
      max lineHeight 0 * wrappedLines (max unwrappedWidth 0) availableWidth := by
  have hwidth : 0 ≤ max unwrappedWidth 0 := le_max_right _ _
  have hsum : saturatingAdd clampI32 (max unwrappedWidth 0) (availableWidth - 1) ≤
      max unwrappedWidth 0 + (availableWidth - 1) := by
    rw [saturatingAdd_of_nonneg hwidth (by omega)]
    exact min_le_left _ _
  have hsum0 : 0 ≤ saturatingAdd clampI32 (max unwrappedWidth 0) (availableWidth - 1) :=
    clampI32_nonneg (by omega)
  have hquotient := Int.ediv_le_ediv havailable hsum
  rw [conservativeWrappedTextHeight, wrappedLines]
  simp only [if_neg (not_le.2 havailable)]
  rw [Int.tdiv_eq_ediv_of_nonneg hsum0]
  generalize saturatingAdd clampI32 (max unwrappedWidth 0) (availableWidth - 1) /
    availableWidth = lines at *
  have hmore : (if max unwrappedWidth 0 > availableWidth then
      saturatingAdd clampI32 (max lines 1) 1 else max lines 1) ≤
        max ((max unwrappedWidth 0 + (availableWidth - 1)) / availableWidth) 1 +
          if max unwrappedWidth 0 > availableWidth then 1 else 0 := by
    split
    · rw [saturatingAdd_of_nonneg (by omega) (by decide)]
      omega
    · omega
  have hmore0 : 0 ≤ (if max unwrappedWidth 0 > availableWidth then
      saturatingAdd clampI32 (max lines 1) 1 else max lines 1) := by
    split
    · exact clampI32_nonneg (by omega)
    · omega
  rw [saturatingMul_of_nonneg (le_max_right _ _) hmore0]
  exact (min_le_left _ _).trans (Int.mul_le_mul_of_nonneg_left hmore (le_max_right _ _))

end Wrapped

/-! ### Measures without saturation -/

/-- The fields of `a` are at most those of `b`. -/
structure UiMetrics.Below (a b : UiMetrics) : Prop where
  top : a.railTopPadding ≤ b.railTopPadding
  bottom : a.railBottomPadding ≤ b.railBottomPadding
  button : a.buttonHeight ≤ b.buttonHeight
  gap : a.groupGap ≤ b.groupGap
  width : a.railWidth ≤ b.railWidth

theorem railHeight_mono {a b : UiMetrics} (h : a.Below b) (spec : CommandRailSpec) :
    railHeight spec a ≤ railHeight spec b := by
  have hbutton := Int.mul_le_mul_of_nonneg_right h.button (Int.natCast_nonneg spec.commandCount)
  have hgap := Int.mul_le_mul_of_nonneg_right h.gap (Int.natCast_nonneg (spec.groupCount - 1))
  have htop := h.top
  have hbottom := h.bottom
  rw [railHeight, railHeight]
  omega

namespace MeasuredFontMetrics

variable (measured : MeasuredFontMetrics) (dpi : ℕ)

/-- A measured extent with its padding. -/
theorem padded_le {value padding : ℤ} (hpadding : 0 ≤ padding) :
    saturatingAdd clampI32 (max value 0) (scaleDip clampI32 padding dpi) ≤
      max value 0 + scaled padding dpi := by
  have hle := scaleDip_le hpadding dpi
  rw [saturatingAdd_of_nonneg (le_max_right _ _) (scaleDip_nonneg hpadding dpi)]
  omega

theorem padded_nonneg {value padding : ℤ} (hpadding : 0 ≤ padding) :
    0 ≤ saturatingAdd clampI32 (max value 0) (scaleDip clampI32 padding dpi) :=
  clampI32_nonneg (Int.add_nonneg (le_max_right _ _) (scaleDip_nonneg hpadding dpi))

theorem railMetrics_nonneg (density : RailDensity) :
    (measured.railMetrics clampI32 density dpi).Nonneg where
  top := by cases density <;> exact le_rfl
  bottom := by cases density <;> exact scaleDip_nonneg (by decide) dpi
  button := by cases density <;> exact le_max_of_le_left (scaleDip_nonneg (by decide) dpi)
  gap := by cases density <;> exact scaleDip_nonneg (by decide) dpi

theorem railWidth_nonneg (density : RailDensity) :
    0 ≤ (measured.railMetrics clampI32 density dpi).railWidth := by
  cases density <;> exact le_max_of_le_left (scaleDip_nonneg (by decide) dpi)

theorem railMetrics_below (density : RailDensity) :
    (measured.railMetrics clampI32 density dpi).Below (measured.railMetrics id density dpi) where
  top := by cases density <;> exact le_rfl
  bottom := by cases density <;> exact scaleDip_le (by decide) dpi
  button := by
    cases density <;> exact max_le_max (scaleDip_le (by decide) dpi) (padded_le dpi (by decide))
  gap := by cases density <;> exact scaleDip_le (by decide) dpi
  width := by
    cases density <;> exact max_le_max (scaleDip_le (by decide) dpi) (padded_le dpi (by decide))

theorem statusHeight_nonneg : 0 ≤ measured.statusHeight clampI32 dpi :=
  le_max_of_le_right (padded_nonneg dpi (by decide))

theorem statusHeight_le : measured.statusHeight clampI32 dpi ≤ measured.statusHeight id dpi :=
  max_le_max (max_le_max (scaleDip_le (by decide) dpi) (padded_le dpi (by decide)))
    (padded_le dpi (by decide))

/-- No measured height of wrapped text stands in for the computed one. -/
structure NoWrappedHeight : Prop where
  instruction : (measured.emptyInstructionWrappedHeight : ℤ) ≤ 0
  safety : (measured.emptySafetyWrappedHeight : ℤ) ≤ 0

variable {measured dpi}

section Text

variable {availableWidth wrappedHeight textWidth textHeight : ℤ}

theorem emptyStateTextHeight_of_nonpos (clamp : ℤ → ℤ) (hwrapped : wrappedHeight ≤ 0) :
    measured.emptyStateTextHeight clamp dpi availableWidth wrappedHeight textWidth textHeight =
      conservativeWrappedTextHeight clamp (max textWidth 0)
        (max textHeight (scaleDip clamp 16 dpi)) availableWidth :=
  if_neg fun h => absurd h.2 (not_lt.2 hwrapped)

theorem emptyStateTextHeight_nonneg (hwrapped : wrappedHeight ≤ 0) :
    0 ≤ measured.emptyStateTextHeight clampI32 dpi availableWidth wrappedHeight textWidth
      textHeight := by
  rw [emptyStateTextHeight_of_nonpos clampI32 hwrapped]
  exact conservativeWrappedTextHeight_nonneg

theorem emptyStateTextHeight_le {small : ℤ} (hwrapped : wrappedHeight ≤ 0) (hsmall : 0 < small)
    (h : small ≤ availableWidth) :
    measured.emptyStateTextHeight clampI32 dpi availableWidth wrappedHeight textWidth textHeight ≤
      measured.emptyStateTextHeight id dpi small wrappedHeight textWidth textHeight := by
  rw [emptyStateTextHeight_of_nonpos _ hwrapped, emptyStateTextHeight_of_nonpos _ hwrapped,
    conservativeWrappedTextHeight_id hsmall]
  have hline : max (max textHeight (scaleDip clampI32 16 dpi)) 0 ≤
      max (max textHeight (scaled 16 dpi)) 0 :=
    max_le_max (max_le_max le_rfl (scaleDip_le (by decide) dpi)) le_rfl
  have hlines := wrappedLines_antitone hsmall h (le_max_right (max textWidth 0) 0)
  have hone := one_le_wrappedLines (max (max textWidth 0) 0) availableWidth
  exact (conservativeWrappedTextHeight_le (by omega)).trans
    (Int.mul_le_mul hline hlines (by omega) (le_max_right _ _))

end Text

/-- The heights of the empty state one below the other, with the gaps between them. -/
def stackedHeight (content : EmptyStateContentMetrics) (gap : ℤ) (showSafety : Bool) : ℤ :=
  content.instructionHeight + gap + content.addHeight +
    if showSafety then gap + content.safetyHeight else 0

theorem totalHeight_id (availableWidth : ℤ) (showSafety : Bool) :
    (measured.emptyStateContentMetrics id dpi availableWidth showSafety).totalHeight =
      stackedHeight (measured.emptyStateContentMetrics id dpi availableWidth showSafety)
        (scaled 8 dpi) showSafety := rfl

section Content

variable (hmeasured : measured.NoWrappedHeight)

include hmeasured

theorem content_nonneg (dpi : ℕ) (availableWidth : ℤ) (showSafety : Bool) :
    let content := measured.emptyStateContentMetrics clampI32 dpi availableWidth showSafety
    0 ≤ content.instructionHeight ∧ 0 ≤ content.addHeight ∧ 0 ≤ content.safetyHeight := by
  refine ⟨emptyStateTextHeight_nonneg hmeasured.instruction,
    le_max_of_le_right (scaleDip_nonneg (by decide) dpi), ?_⟩
  cases showSafety with
  | true => exact emptyStateTextHeight_nonneg hmeasured.safety
  | false => exact le_rfl

theorem content_id_nonneg (dpi : ℕ) (availableWidth : ℤ) (showSafety : Bool) :
    let content := measured.emptyStateContentMetrics id dpi availableWidth showSafety
    0 ≤ content.instructionHeight ∧ 0 ≤ content.safetyHeight := by
  refine ⟨?_, ?_⟩
  · simp only [emptyStateContentMetrics, emptyStateTextHeight_of_nonpos id hmeasured.instruction]
    exact conservativeWrappedTextHeight_id_nonneg
  · simp only [emptyStateContentMetrics, emptyStateTextHeight_of_nonpos id hmeasured.safety]
    split
    · exact conservativeWrappedTextHeight_id_nonneg
    · exact le_rfl

/-- A larger width needs no more height, and saturation none either. -/
theorem stackedHeight_le (dpi : ℕ) (small availableWidth : ℤ) (hsmall : 0 < small)
    (h : small ≤ availableWidth) (showSafety : Bool) :
    stackedHeight (measured.emptyStateContentMetrics clampI32 dpi availableWidth showSafety)
        (scaleDip clampI32 8 dpi) showSafety ≤
      (measured.emptyStateContentMetrics id dpi small showSafety).totalHeight := by
  have hmax : small ≤ max availableWidth 0 := h.trans (le_max_left _ _)
  have hsmallMax : max small 0 = small := max_eq_left hsmall.le
  have hgap : scaleDip clampI32 8 dpi ≤ scaled 8 dpi := scaleDip_le (by decide) dpi
  have hline : scaleDip clampI32 16 dpi ≤ scaled 16 dpi := scaleDip_le (by decide) dpi
  have hinstruction :
      (measured.emptyStateContentMetrics clampI32 dpi availableWidth showSafety).instructionHeight ≤
        (measured.emptyStateContentMetrics id dpi small showSafety).instructionHeight := by
    simp only [emptyStateContentMetrics, hsmallMax]
    exact emptyStateTextHeight_le hmeasured.instruction hsmall hmax
  have hadd : (measured.emptyStateContentMetrics clampI32 dpi availableWidth showSafety).addHeight ≤
      (measured.emptyStateContentMetrics id dpi small showSafety).addHeight := by
    have hline0 : 0 ≤ scaleDip clampI32 16 dpi := scaleDip_nonneg (by decide) dpi
    have hpadding : scaleDip clampI32 10 dpi ≤ scaled 10 dpi := scaleDip_le (by decide) dpi
    refine max_le_max ?_ (scaleDip_le (by decide) dpi)
    rw [saturatingAdd_of_nonneg (le_max_of_le_right hline0) (scaleDip_nonneg (by decide) dpi)]
    simp only [saturatingAdd_id, scaleDip_id]
    omega
  have hsafety :
      (if showSafety then scaleDip clampI32 8 dpi +
        (measured.emptyStateContentMetrics clampI32 dpi availableWidth showSafety).safetyHeight
        else 0) ≤
      if showSafety then scaled 8 dpi +
        (measured.emptyStateContentMetrics id dpi small showSafety).safetyHeight else 0 := by
    cases showSafety with
    | false => exact le_rfl
    | true =>
        refine Int.add_le_add hgap ?_
        simp only [emptyStateContentMetrics, hsmallMax]
        exact emptyStateTextHeight_le hmeasured.safety hsmall hmax
  rw [totalHeight_id, stackedHeight, stackedHeight]
  omega

end Content

end MeasuredFontMetrics

end UiLayout

end DarkReNamer
