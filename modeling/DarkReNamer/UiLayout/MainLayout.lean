import DarkReNamer.UiLayout.Columns
import DarkReNamer.UiLayout.Rails

/-!
# The main window

Rails, list, status strip and empty state of the main window for a client size
(`calculate_main_layout_with_safety`), and the separately computed smallest size at which all of
it fits (`minimum_main_client_width`, `minimum_main_client_height_with_safety`).
-/

namespace DarkReNamer

namespace UiLayout

inductive RailDensity where
  | comfortable
  | compact
  deriving DecidableEq

inductive RailDensityPreference where
  | automatic
  | comfortable
  | compact
  | menuOnly
  deriving DecidableEq

namespace RailDensityPreference

def candidates : RailDensityPreference → List RailDensity
  | automatic => [.comfortable, .compact]
  | comfortable => [.comfortable]
  | compact => [.compact]
  | menuOnly => []

def minimumDensity : RailDensityPreference → Option RailDensity
  | automatic | compact => some .compact
  | comfortable => some .comfortable
  | menuOnly => none

end RailDensityPreference

/-- The text sizes that the layout of the main window reads. -/
structure MeasuredFontMetrics where
  listHeaderHeight : I32
  buttonTextWidth : I32
  buttonTextHeight : I32
  statusTextHeight : I32
  cancelTextWidth : I32
  cancelTextHeight : I32
  emptyInstructionTextWidth : I32
  emptyInstructionTextHeight : I32
  emptySafetyTextWidth : I32
  emptySafetyTextHeight : I32
  emptyAddTextWidth : I32
  emptyAddTextHeight : I32
  emptyWrapWidth : I32
  emptyInstructionWrappedHeight : I32
  emptySafetyWrappedHeight : I32
  dropOverlayTextWidth : I32
  dropOverlayTextHeight : I32

structure StatusLayoutInput where
  cancelVisible : Bool
  measuredCountWidth : I32

structure EmptyStateContentMetrics where
  instructionHeight : ℤ
  safetyHeight : ℤ
  addWidth : ℤ
  addHeight : ℤ
  totalHeight : ℤ

inductive RailMode where
  | comfortable
  | compact
  | menuOnly
  deriving DecidableEq

structure EmptyStateLayout where
  instruction : LayoutRect
  safety : LayoutRect
  add : LayoutRect

structure WorkspaceChromeGeometry where
  leftListDivider : LayoutRect
  rightListDivider : LayoutRect

structure StatusChromeGeometry where
  outer : LayoutRect
  messageCountBoundary : ℤ
  topLineRight : ℤ

structure MainLayout where
  railMode : RailMode
  railWidth : ℤ
  leftButtons : List CommandPlacement
  rightButtons : List CommandPlacement
  workspaceChrome : WorkspaceChromeGeometry
  list : LayoutRect
  statusChrome : StatusChromeGeometry
  statusMessage : LayoutRect
  statusCount : LayoutRect
  cancel : LayoutRect
  emptyInstruction : LayoutRect
  emptySafety : LayoutRect
  emptyAdd : LayoutRect
  dropOverlay : LayoutRect

/-- `STATUS_HEIGHT`. -/
def statusHeightDip : ℤ := 18

section Layout

variable (clamp : ℤ → ℤ)

def RailDensity.metrics (density : RailDensity) (dpi : ℕ) : UiMetrics :=
  let (railBottomPadding, buttonHeight, groupGap, railWidth) :=
    match density with
    | .comfortable => ((4, 32, 8, 52) : ℤ × ℤ × ℤ × ℤ)
    | .compact => (2, 28, 4, 52)
  { railTopPadding := 0
    railBottomPadding := scaleDip clamp railBottomPadding dpi
    buttonHeight := scaleDip clamp buttonHeight dpi
    groupGap := scaleDip clamp groupGap dpi
    railWidth := scaleDip clamp railWidth dpi }

namespace MeasuredFontMetrics

variable (measured : MeasuredFontMetrics)

/-- The metrics of a density, widened for the measured button texts. -/
def railMetrics (density : RailDensity) (dpi : ℕ) : UiMetrics :=
  let metrics := density.metrics clamp dpi
  let (horizontalPadding, verticalPadding) :=
    match density with
    | .comfortable => ((12, 10) : ℤ × ℤ)
    | .compact => (10, 6)
  { metrics with
    railWidth := max metrics.railWidth (saturatingAdd clamp
      (max (measured.buttonTextWidth : ℤ) 0) (scaleDip clamp horizontalPadding dpi))
    buttonHeight := max metrics.buttonHeight (saturatingAdd clamp
      (max (measured.buttonTextHeight : ℤ) 0) (scaleDip clamp verticalPadding dpi)) }

def statusHeight (dpi : ℕ) : ℤ :=
  max (max (scaleDip clamp statusHeightDip dpi)
      (saturatingAdd clamp (max (measured.statusTextHeight : ℤ) 0) (scaleDip clamp 4 dpi)))
    (saturatingAdd clamp (max (measured.cancelTextHeight : ℤ) 0) (scaleDip clamp 6 dpi))

def emptyStateMinimumWidth (dpi : ℕ) : ℤ :=
  let textPadding := scaleDip clamp 24 dpi
  max (max (scaleDip clamp 240 dpi)
      (saturatingAdd clamp (max (measured.emptyInstructionTextWidth : ℤ) 0) textPadding))
    (saturatingAdd clamp (max (measured.emptyAddTextWidth : ℤ) 0) textPadding)

end MeasuredFontMetrics

/-- Full lines of text in a width, with one line more where the text wraps. -/
def conservativeWrappedTextHeight (unwrappedWidth lineHeight availableWidth : ℤ) : ℤ :=
  let lineHeight := max lineHeight 0
  if availableWidth ≤ 0 then 0
  else
    let width := max unwrappedWidth 0
    let lines := max ((saturatingAdd clamp width (availableWidth - 1)).tdiv availableWidth) 1
    let lines := if width > availableWidth then saturatingAdd clamp lines 1 else lines
    saturatingMul clamp lineHeight lines

namespace MeasuredFontMetrics

variable (measured : MeasuredFontMetrics)

/-- The height of a text of the empty state, which a measurement at this width overrides. -/
def emptyStateTextHeight (dpi : ℕ) (availableWidth wrappedHeight textWidth textHeight : ℤ) : ℤ :=
  if (measured.emptyWrapWidth : ℤ) = availableWidth ∧ wrappedHeight > 0 then wrappedHeight
  else conservativeWrappedTextHeight clamp (max textWidth 0)
    (max textHeight (scaleDip clamp 16 dpi)) availableWidth

def emptyStateContentMetrics (dpi : ℕ) (availableWidth : ℤ) (showSafety : Bool) :
    EmptyStateContentMetrics :=
  let availableWidth := max availableWidth 0
  let fallbackLineHeight := scaleDip clamp 16 dpi
  let instructionHeight := measured.emptyStateTextHeight clamp dpi availableWidth
    measured.emptyInstructionWrappedHeight measured.emptyInstructionTextWidth
    measured.emptyInstructionTextHeight
  let safetyHeight := if showSafety then
      measured.emptyStateTextHeight clamp dpi availableWidth
        measured.emptySafetyWrappedHeight measured.emptySafetyTextWidth
        measured.emptySafetyTextHeight
    else 0
  let addWidth := min (max (saturatingAdd clamp (max (measured.emptyAddTextWidth : ℤ) 0)
    (scaleDip clamp 24 dpi)) (scaleDip clamp 112 dpi)) availableWidth
  let addHeight := max (saturatingAdd clamp
    (max (measured.emptyAddTextHeight : ℤ) fallbackLineHeight) (scaleDip clamp 10 dpi))
    (scaleDip clamp 28 dpi)
  let gap := scaleDip clamp 8 dpi
  { instructionHeight, safetyHeight, addWidth, addHeight
    totalHeight := saturatingAdd clamp
      (saturatingAdd clamp (saturatingAdd clamp instructionHeight gap) addHeight)
      (if showSafety then saturatingAdd clamp gap safetyHeight else 0) }

def emptyStateRequiredHeight (dpi : ℕ) (showSafety : Bool) : ℤ :=
  let contentWidth := saturatingSub clamp (measured.emptyStateMinimumWidth clamp dpi)
    (scaleDip clamp 24 dpi)
  saturatingAdd clamp (saturatingAdd clamp
    (measured.emptyStateContentMetrics clamp dpi contentWidth showSafety).totalHeight
    (scaleDip clamp 24 dpi)) (max (measured.listHeaderHeight : ℤ) 0)

end MeasuredFontMetrics

section Client

variable (dpi : ℕ) (measured : MeasuredFontMetrics)

def calculateDropOverlayLayout (list : LayoutRect) : LayoutRect :=
  let horizontalPadding := min (scaleDip clamp 12 dpi) (list.width.tdiv 2)
  let width := saturatingSub clamp list.width (saturatingMul clamp horizontalPadding 2)
  let lineHeight := max (measured.dropOverlayTextHeight : ℤ) (scaleDip clamp 16 dpi)
  let desiredHeight := max (saturatingAdd clamp
    (conservativeWrappedTextHeight clamp measured.dropOverlayTextWidth lineHeight width)
    (scaleDip clamp 10 dpi)) (scaleDip clamp 28 dpi)
  let height := max (min desiredHeight list.height) 0
  { x := saturatingAdd clamp list.x horizontalPadding
    y := saturatingAdd clamp list.y ((saturatingSub clamp list.height height).tdiv 2)
    width, height }

/-- Top and height of the instruction, the button and the safety note. -/
structure EmptyStateRows where
  instructionY : ℤ
  instructionHeight : ℤ
  buttonY : ℤ
  buttonHeight : ℤ
  safetyY : ℤ
  safetyHeight : ℤ

/-- The rows one below the other, in the middle of the data area of the list. -/
def emptyStateRows (content : EmptyStateContentMetrics) (data : LayoutRect) (desiredGap : ℤ)
    (showSafety : Bool) : EmptyStateRows :=
  let top := saturatingAdd clamp data.y
    ((max (saturatingSub clamp data.height content.totalHeight) 0).tdiv 2)
  let bottom := data.bottom clamp
  let instructionHeight := max (min content.instructionHeight (saturatingSub clamp bottom top)) 0
  let y := saturatingAdd clamp top instructionHeight
  let buttonY := saturatingAdd clamp y (max (min desiredGap (saturatingSub clamp bottom y)) 0)
  let buttonHeight := max (min content.addHeight (saturatingSub clamp bottom buttonY)) 0
  let y := saturatingAdd clamp buttonY buttonHeight
  let safetyY := if showSafety then
      saturatingAdd clamp y (max (min desiredGap (saturatingSub clamp bottom y)) 0)
    else y
  let safetyHeight := max (min content.safetyHeight (saturatingSub clamp bottom safetyY)) 0
  ⟨top, instructionHeight, buttonY, buttonHeight, safetyY, safetyHeight⟩

/-- The part of the list below its header. -/
def listData (list : LayoutRect) : LayoutRect :=
  let headerHeight := min (max (measured.listHeaderHeight : ℤ) 0) list.height
  { x := list.x
    y := saturatingAdd clamp list.y headerHeight
    width := list.width
    height := saturatingSub clamp list.height headerHeight }

def calculateEmptyStateLayout (list : LayoutRect) (showSafety : Bool) : EmptyStateLayout :=
  let data := listData clamp measured list
  let horizontalPadding := min (scaleDip clamp 12 dpi) (data.width.tdiv 2)
  let contentWidth := saturatingSub clamp data.width (saturatingMul clamp horizontalPadding 2)
  let content := measured.emptyStateContentMetrics clamp dpi contentWidth showSafety
  let rows := emptyStateRows clamp content data (scaleDip clamp 8 dpi) showSafety
  let x := saturatingAdd clamp data.x horizontalPadding
  { instruction := ⟨x, rows.instructionY, contentWidth, rows.instructionHeight⟩
    safety := ⟨x, rows.safetyY, contentWidth, rows.safetyHeight⟩
    add := ⟨saturatingAdd clamp data.x ((saturatingSub clamp data.width content.addWidth).tdiv 2),
      rows.buttonY, content.addWidth, rows.buttonHeight⟩ }

variable (preference : RailDensityPreference) (showSafety : Bool)

/-- A density whose rails fit a client of this width with this height above the status strip. -/
def tryDensity (width railHeight : ℤ) (density : RailDensity) :
    Option (RailDensity × ℤ × List CommandPlacement × List CommandPlacement) :=
  let metrics := measured.railMetrics clamp density dpi
  let railsWidth := saturatingMul clamp metrics.railWidth 2
  if saturatingAdd clamp railsWidth 2 ≥ width then none
  else do
    let left ← (calculateCommandRailLayout clamp leftRail railHeight metrics).toOption
    let right ← (calculateCommandRailLayout clamp rightRail railHeight metrics).toOption
    return (density, metrics.railWidth, left, right)

def railMode : RailDensity → RailMode
  | .comfortable => .comfortable
  | .compact => .compact

/-- A text of the status strip below the top line and off its sides. -/
def insetStatusText (rect : LayoutRect) : LayoutRect :=
  let horizontalInset := min (scaleDip clamp 8 dpi) (rect.width.tdiv 2)
  let topLineHeight := if rect.height > 0 then 1 else 0
  { x := saturatingAdd clamp rect.x horizontalInset
    y := saturatingAdd clamp rect.y topLineHeight
    width := saturatingSub clamp rect.width (saturatingMul clamp horizontalInset 2)
    height := saturatingSub clamp rect.height topLineHeight }

/-- The dividers and the list between the rails. -/
def workspace (width railWidth railHeight : ℤ) : WorkspaceChromeGeometry × LayoutRect :=
  if railWidth > 0 then
    (⟨⟨railWidth, 0, 1, railHeight⟩,
        ⟨saturatingSub clamp (saturatingSub clamp width railWidth) 1, 0, 1, railHeight⟩⟩,
      ⟨saturatingAdd clamp railWidth 1, 0, saturatingSub clamp
        (saturatingSub clamp width (saturatingMul clamp railWidth 2)) 2, railHeight⟩)
  else (⟨⟨0, 0, 0, 0⟩, ⟨0, 0, 0, 0⟩⟩, ⟨0, 0, width, railHeight⟩)

def calculateMainLayoutWithSafety (clientWidth clientHeight : ℤ) (status : StatusLayoutInput) :
    MainLayout :=
  let width := max clientWidth 0
  let height := max clientHeight 0
  let statusHeight := min (measured.statusHeight clamp dpi) height
  let railHeight := saturatingSub clamp height statusHeight
  let (railMode, railWidth, leftButtons, rightButtons) :=
    match preference.candidates.findSome? (tryDensity clamp dpi measured width railHeight) with
    | some (density, railWidth, left, right) => (railMode density, railWidth, left, right)
    | none => (.menuOnly, 0, [], [])
  let (workspaceChrome, list) := workspace clamp width railWidth railHeight
  let cancelPreferred := if status.cancelVisible then
      saturatingAdd clamp (max (measured.cancelTextWidth : ℤ) (scaleDip clamp 36 dpi))
        (scaleDip clamp 16 dpi)
    else 0
  let cancelWidth := min cancelPreferred width
  let afterCancel := saturatingSub clamp width cancelWidth
  let countPreferred := saturatingAdd clamp
    (max (status.measuredCountWidth : ℤ) (scaleDip clamp 44 dpi)) (scaleDip clamp 16 dpi)
  let countWidth := min countPreferred afterCancel
  let messageWidth := saturatingSub clamp afterCancel countWidth
  let topLineRight := saturatingAdd clamp messageWidth countWidth
  let empty := calculateEmptyStateLayout clamp dpi measured list showSafety
  { railMode, railWidth, leftButtons, rightButtons, workspaceChrome, list
    statusChrome := ⟨⟨0, railHeight, width, statusHeight⟩, messageWidth, topLineRight⟩
    statusMessage := insetStatusText clamp dpi ⟨0, railHeight, messageWidth, statusHeight⟩
    statusCount := insetStatusText clamp dpi ⟨messageWidth, railHeight, countWidth, statusHeight⟩
    cancel := ⟨topLineRight, railHeight, cancelWidth, statusHeight⟩
    emptyInstruction := empty.instruction
    emptySafety := empty.safety
    emptyAdd := empty.add
    dropOverlay := calculateDropOverlayLayout clamp dpi measured list }

end Client

/-! ### The smallest size -/

/-- `unwrap_or(i32::MAX)`. -/
def requiredOrMax (required : Except LayoutError ℤ) : ℤ :=
  match required with
  | .ok height => height
  | .error _ => i32Max

/-- The smallest client height for both rails and the empty state. -/
def minimumMainClientHeightWithSafety (dpi : ℕ) (measured : MeasuredFontMetrics)
    (preference : RailDensityPreference) (showSafety : Bool) : ℤ :=
  let railHeight := preference.minimumDensity.elim 0 fun density =>
    let metrics := measured.railMetrics clamp density dpi
    max (requiredOrMax (requiredCommandRailHeight clamp leftRail metrics))
      (requiredOrMax (requiredCommandRailHeight clamp rightRail metrics))
  saturatingAdd clamp
    (max railHeight (measured.emptyStateRequiredHeight clamp dpi showSafety))
    (measured.statusHeight clamp dpi)

def minimumContentWidthPx (dpi : ℕ) (statusWidthPx : ℤ) : ℤ :=
  let rails := saturatingMul clamp (RailDensity.comfortable.metrics clamp dpi).railWidth 2
  let names := saturatingMul clamp (scaleDip clamp (columnMinimum .current) dpi) 2
  let location := scaleDip clamp (columnMinimum .location) dpi
  let gutter := max (scaleDip clamp listColumnFitGutterDip dpi) 1
  saturatingAdd clamp (saturatingAdd clamp (saturatingAdd clamp (saturatingAdd clamp rails names)
    location) gutter) (max statusWidthPx 0)

/-- The smallest client width for the columns and the empty state between both rails. -/
def minimumMainClientWidth (dpi : ℕ) (measured : MeasuredFontMetrics)
    (preference : RailDensityPreference) (statusWidthPx : ℤ) : ℤ :=
  let railWidth := ((preference.candidates.map fun density =>
    (measured.railMetrics clamp density dpi).railWidth).max?).getD 0
  let baselineRailWidth := preference.minimumDensity.elim 0 fun density =>
    (density.metrics clamp dpi).railWidth
  let workspaceDividerWidth := saturatingMul clamp (if railWidth > 0 then 1 else 0) 2
  max (saturatingAdd clamp (saturatingAdd clamp (minimumContentWidthPx clamp dpi statusWidthPx)
      (saturatingMul clamp (saturatingSub clamp railWidth baselineRailWidth) 2))
      workspaceDividerWidth)
    (saturatingAdd clamp (saturatingAdd clamp (saturatingMul clamp railWidth 2)
      (measured.emptyStateMinimumWidth clamp dpi)) workspaceDividerWidth)

end Layout

end UiLayout

end DarkReNamer
