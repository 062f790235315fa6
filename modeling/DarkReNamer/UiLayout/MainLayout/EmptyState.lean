import DarkReNamer.UiLayout.MainLayout.Minimum

/-!
# The empty state in its list

The texts and the button of the empty state have their full heights exactly where they fit one
below the other, with the gaps between them, under the header of the list.
-/

namespace DarkReNamer

namespace UiLayout

open MeasuredFontMetrics

/-- A row that fits above `bottom` has its desired height. -/
theorem row_eq {height : ℤ} (y bottom : ℤ) (hheight : 0 ≤ height) (hy : 0 ≤ y)
    (hfits : y + height ≤ bottom) (hbottom : bottom ≤ i32Max) :
    max (min height (saturatingSub clampI32 bottom y)) 0 = height ∧
      saturatingAdd clampI32 y height = y + height := by
  rw [saturatingSub_eq_of_le hy (by omega) hbottom,
    saturatingAdd_eq_of_le hy hheight (hfits.trans hbottom)]
  omega

/-- A row that has its desired height fits. -/
theorem fits_of_row_eq {height y bottom : ℤ} (hheight : 0 ≤ height)
    (hy : 0 ≤ y) (hbelow : y ≤ bottom)
    (hbottom : bottom ≤ i32Max)
    (hrow : max (min height (saturatingSub clampI32 bottom y)) 0 = height) :
    y + height ≤ bottom ∧ saturatingAdd clampI32 y height = y + height := by
  rw [saturatingSub_eq_of_le hy hbelow hbottom] at hrow
  have hfits : y + height ≤ bottom := by omega
  exact ⟨hfits, saturatingAdd_eq_of_le hy hheight (hfits.trans hbottom)⟩

/-- The gap behind a row, as far as there is room for it. -/
theorem gap_eq {gap y bottom : ℤ} (hgap : 0 ≤ gap) (hy : 0 ≤ y) (hbelow : y ≤ bottom)
    (hbottom : bottom ≤ i32Max) :
    saturatingAdd clampI32 y (max (min gap (saturatingSub clampI32 bottom y)) 0) =
      y + min gap (bottom - y) := by
  rw [saturatingSub_eq_of_le hy hbelow hbottom, max_eq_left (by omega),
    saturatingAdd_eq_of_le hy (by omega) (by omega)]

/-- All rows have their desired heights. -/
structure EmptyStateRows.Full (rows : EmptyStateRows) (content : EmptyStateContentMetrics) :
    Prop where
  instruction : rows.instructionHeight = content.instructionHeight
  button : rows.buttonHeight = content.addHeight
  safety : rows.safetyHeight = content.safetyHeight

section Rows

variable {content : EmptyStateContentMetrics} {data : LayoutRect} {gap : ℤ} {showSafety : Bool}
  (hy : 0 ≤ data.y) (hheight : 0 ≤ data.height) (hbottom : data.y + data.height ≤ i32Max)
  (hgap : 0 ≤ gap) (hinstruction : 0 ≤ content.instructionHeight)

include hy hheight hbottom hgap hinstruction

/-- With room for all rows each one has it. -/
theorem full_of_stackedHeight_le (hadd : 0 ≤ content.addHeight)
    (hsafety : 0 ≤ content.safetyHeight)
    (hhidden : showSafety = false → content.safetyHeight = 0)
    (htotal : content.totalHeight = stackedHeight content gap showSafety)
    (hroom : stackedHeight content gap showSafety ≤ data.height) :
    (emptyStateRows clampI32 content data gap showSafety).Full content := by
  have hbottomEq : data.bottom clampI32 = data.y + data.height :=
    saturatingAdd_eq_of_le hy hheight hbottom
  have hnote : 0 ≤ if showSafety then gap + content.safetyHeight else 0 := by
    split <;> omega
  rw [stackedHeight] at htotal hroom
  have hspare : saturatingSub clampI32 data.height content.totalHeight =
      data.height - content.totalHeight :=
    saturatingSub_eq_of_le (by omega) (by omega) (by omega)
  obtain ⟨top, htop⟩ : ∃ top, saturatingAdd clampI32 data.y
      ((max (saturatingSub clampI32 data.height content.totalHeight) 0).tdiv 2) = top := ⟨_, rfl⟩
  have htopEq : data.y ≤ top ∧ top + content.totalHeight ≤ data.y + data.height := by
    rw [← htop, hspare, Int.tdiv_eq_ediv_of_nonneg (le_max_right _ _),
      saturatingAdd_eq_of_le hy (by omega) (by omega)]
    omega
  obtain ⟨htopLe, htopRoom⟩ := htopEq
  obtain ⟨hrow, hnext⟩ := row_eq top (data.y + data.height) hinstruction (by omega)
    (by omega) hbottom
  obtain ⟨hspace, hspaceNext⟩ := row_eq (top + content.instructionHeight)
    (data.y + data.height) hgap (by omega) (by omega) hbottom
  obtain ⟨hbutton, hbuttonNext⟩ := row_eq (top + content.instructionHeight + gap)
    (data.y + data.height) hadd (by omega) (by omega) hbottom
  have hsafetyRow : max (min content.safetyHeight (saturatingSub clampI32 (data.y + data.height)
      (emptyStateRows clampI32 content data gap showSafety).safetyY)) 0 =
        content.safetyHeight := by
    cases showSafety with
    | true =>
        simp only [if_true] at htotal hroom
        obtain ⟨hnote, hnoteNext⟩ := row_eq
          (top + content.instructionHeight + gap + content.addHeight) (data.y + data.height) hgap
          (by omega) (by omega) hbottom
        simp only [emptyStateRows, hbottomEq, htop, hrow, hnext, hspace, hspaceNext, hbutton,
          hbuttonNext, hnote, hnoteNext, if_true]
        exact (row_eq _ _ hsafety (by omega) (by omega) hbottom).1
    | false =>
        simp only [emptyStateRows, hbottomEq, htop, hrow, hnext, hspace, hspaceNext, hbutton,
          hbuttonNext, Bool.false_eq_true, if_false]
        rw [hhidden rfl]
        exact (row_eq _ _ le_rfl (by omega) (by omega) hbottom).1
  constructor
  · simp only [emptyStateRows, hbottomEq, htop, hrow]
  · simp only [emptyStateRows, hbottomEq, htop, hrow, hnext, hspace, hspaceNext, hbutton]
  · rw [← hsafetyRow, ← hbottomEq]
    rfl

/-- Rows of their desired heights lie below each other with the whole gaps between them, where no
row behind a gap is empty. -/
theorem stackedHeight_le_of_full (hadd : 0 ≤ content.addHeight)
    (hbutton : 0 < gap → 0 < content.addHeight)
    (hnote : showSafety = true → 0 < gap → 0 < content.safetyHeight)
    (htotal : content.totalHeight = min (stackedHeight content gap showSafety) i32Max)
    (hfull : (emptyStateRows clampI32 content data gap showSafety).Full content) :
    stackedHeight content gap showSafety ≤ data.height := by
  have hi32Min : i32Min = -2147483648 := rfl
  have hi32Max : i32Max = 2147483647 := rfl
  have hbottomEq : data.bottom clampI32 = data.y + data.height :=
    saturatingAdd_eq_of_le hy hheight hbottom
  by_contra hless
  -- without spare room the rows start at the top, and what does not fit is cut from the last
  have htop : saturatingAdd clampI32 data.y
      ((max (saturatingSub clampI32 data.height content.totalHeight) 0).tdiv 2) = data.y := by
    have hspare : max (saturatingSub clampI32 data.height content.totalHeight) 0 = 0 := by
      rw [saturatingSub, clampI32]
      omega
    rw [hspare, Int.zero_tdiv, saturatingAdd_eq_of_le hy le_rfl (by omega), Int.add_zero]
  have hrow := hfull.instruction
  have hbuttonRow := hfull.button
  have hsafetyRow := hfull.safety
  simp only [emptyStateRows, hbottomEq, htop] at hrow hbuttonRow hsafetyRow
  obtain ⟨hinstructionFits, hnext⟩ := fits_of_row_eq hinstruction hy (by omega) hbottom hrow
  simp only [hrow, hnext] at hbuttonRow hsafetyRow
  rw [gap_eq hgap (by omega) hinstructionFits hbottom] at hbuttonRow hsafetyRow
  obtain ⟨hbuttonFits, hbuttonNext⟩ :=
    fits_of_row_eq hadd (by omega) (by omega) hbottom hbuttonRow
  have hgapFits : gap ≤ data.y + data.height - (data.y + content.instructionHeight) := by
    by_contra hcut
    have hpositive := hbutton (by omega)
    omega
  rw [min_eq_left hgapFits] at hbuttonFits hbuttonNext hbuttonRow hsafetyRow
  rw [stackedHeight] at hless
  cases hshown : showSafety with
  | false =>
      simp only [hshown, Bool.false_eq_true, if_false] at hless
      omega
  | true =>
      simp only [hshown, if_true, hbuttonRow, hbuttonNext] at hless hsafetyRow
      rw [gap_eq hgap (by omega) hbuttonFits hbottom] at hsafetyRow
      have hpositive := hnote hshown
      obtain ⟨hsafetyFits, -⟩ :=
        fits_of_row_eq (by omega) (by omega) (by omega) hbottom hsafetyRow
      omega

end Rows

variable {measured : MeasuredFontMetrics} {dpi : ℕ}

/-- The width that the paddings leave. -/
def contentWidth (dpi : ℕ) (width : ℤ) : ℤ :=
  saturatingSub clampI32 width
    (saturatingMul clampI32 (min (scaleDip clampI32 12 dpi) (width.tdiv 2)) 2)

theorem contentWidth_eq {width : ℤ} (h : 0 ≤ width) (hmax : width ≤ i32Max) :
    contentWidth dpi width = width - 2 * min (scaleDip clampI32 12 dpi) (width / 2) := by
  have hpadding : 0 ≤ scaleDip clampI32 12 dpi := scaleDip_nonneg (by decide) dpi
  rw [contentWidth, Int.tdiv_eq_ediv_of_nonneg h, saturatingMul_of_nonneg (by omega) (by decide),
    min_eq_left (by omega), saturatingSub_eq_of_le (by omega) (by omega) hmax]
  omega

/-- The total height of the content where it does not saturate. -/
theorem totalHeight_eq (hmeasured : measured.NoWrappedHeight) (availableWidth : ℤ)
    (showSafety : Bool) :
    (measured.emptyStateContentMetrics clampI32 dpi availableWidth showSafety).totalHeight =
      min (stackedHeight (measured.emptyStateContentMetrics clampI32 dpi availableWidth showSafety)
        (scaleDip clampI32 8 dpi) showSafety) i32Max := by
  obtain ⟨hinstruction, hadd, hsafety⟩ :=
    content_nonneg hmeasured dpi availableWidth showSafety
  have hgap : 0 ≤ scaleDip clampI32 8 dpi := scaleDip_nonneg (by decide) dpi
  have hnote : 0 ≤ i32Max := by decide
  have htotal : (measured.emptyStateContentMetrics clampI32 dpi availableWidth
      showSafety).totalHeight = saturatingAdd clampI32 (saturatingAdd clampI32
        (saturatingAdd clampI32 (measured.emptyStateContentMetrics clampI32 dpi availableWidth
          showSafety).instructionHeight (scaleDip clampI32 8 dpi))
        (measured.emptyStateContentMetrics clampI32 dpi availableWidth showSafety).addHeight)
        (if showSafety then saturatingAdd clampI32 (scaleDip clampI32 8 dpi)
          (measured.emptyStateContentMetrics clampI32 dpi availableWidth showSafety).safetyHeight
          else 0) := rfl
  rw [stackedHeight, htotal]
  generalize measured.emptyStateContentMetrics clampI32 dpi availableWidth showSafety = content at *
  rw [saturatingAdd_of_nonneg hinstruction hgap, saturatingAdd_of_nonneg (by omega) hadd]
  cases showSafety with
  | true =>
      simp only [if_true]
      rw [saturatingAdd_of_nonneg hgap hsafety, saturatingAdd_of_nonneg (by omega) (by omega)]
      omega
  | false =>
      simp only [Bool.false_eq_true, if_false]
      rw [saturatingAdd_of_nonneg (by omega) le_rfl]
      omega

end UiLayout

end DarkReNamer
