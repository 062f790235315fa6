import DarkReNamer.UiLayout

/-!
# The prompt

Client area and controls of a prompt with up to two values and a choice
(`calculate_prompt_layout`). Widths and heights are shrunk to the maximum on their own: first the
padding and the gaps, then label and edit, the heights of the sections and the buttons.
-/

namespace DarkReNamer

namespace UiLayout

/-- The text sizes that the layout of a prompt reads. -/
structure PromptFontMetrics where
  titleWidth : I32
  titleHeight : I32
  labelWidth : I32
  labelHeight : I32
  lineHeight : I32

structure PromptFields where
  valueOne : Bool
  valueTwo : Bool
  choice : Bool

/-- The heights of the sections that are present. -/
def PromptFields.sections (fields : PromptFields)
    (title field separator button : ℤ) : List ℤ :=
  [some title, if fields.valueOne then some field else none,
    if fields.valueTwo then some field else none, if fields.choice then some field else none,
    some separator, some button].reduceOption

structure PromptLayout where
  client : LayoutRect
  title : LayoutRect
  editOne : Option LayoutRect
  labelOne : Option LayoutRect
  editTwo : Option LayoutRect
  labelTwo : Option LayoutRect
  choice : Option LayoutRect
  separator : LayoutRect
  ok : LayoutRect
  cancel : LayoutRect

/-! ### Heights of the sections -/

/-- Heights given so far, the pixels left, and whether a section grew. -/
structure Growth where
  heights : List ℤ
  remaining : ℤ
  progressed : Bool

/-- One pixel for each section while pixels remain. -/
def onePixelEach : List ℤ → ℤ → List ℤ × ℤ
  | [], remaining => ([], remaining)
  | height :: heights, remaining =>
    if remaining = 0 then (height :: heights, remaining)
    else
      let rest := onePixelEach heights (remaining - 1)
      (1 :: rest.1, rest.2)

/-- One round: a pixel more for each section below its desired height while pixels remain. -/
def growRound : List ℤ → List ℤ → ℤ → Growth
  | height :: heights, target :: desired, remaining =>
    if remaining = 0 then ⟨height :: heights, remaining, false⟩
    else if height < target then
      let rest := growRound heights desired (remaining - 1)
      ⟨(height + 1) :: rest.heights, rest.remaining, true⟩
    else
      let rest := growRound heights desired remaining
      ⟨height :: rest.heights, rest.remaining, rest.progressed⟩
  | heights, _, remaining => ⟨heights, remaining, false⟩

/-- A round in which a section grew took a pixel. -/
theorem growRound_remaining {heights desired : List ℤ} {remaining : ℤ} (h : 0 ≤ remaining) :
    0 ≤ (growRound heights desired remaining).remaining ∧
      (growRound heights desired remaining).remaining ≤ remaining ∧
      ((growRound heights desired remaining).progressed →
        (growRound heights desired remaining).remaining < remaining) := by
  fun_induction growRound heights desired remaining with
  | case1 => simp
  | case2 height heights target desired remaining hremaining hlt rest ih =>
      obtain ⟨hnonneg, hle, -⟩ := ih (by omega)
      have hless : rest.remaining < remaining := Int.lt_of_le_of_lt hle (by omega)
      exact ⟨hnonneg, Int.le_of_lt hless, fun _ => hless⟩
  | case3 height heights target desired remaining hremaining hlt rest ih => exact ih h
  | case4 => simpa using h

/-- Rounds until no pixel remains or no section grows. -/
def growSections (desired heights : List ℤ) (remaining : ℤ) : List ℤ :=
  if _ : 0 < remaining then
    let round := growRound heights desired remaining
    if _ : round.progressed then growSections desired round.heights round.remaining
    else round.heights
  else heights
termination_by remaining.toNat
decreasing_by
  rename_i hremaining hprogressed
  have hless := (growRound_remaining (Int.le_of_lt hremaining)).2.2 hprogressed
  omega

section Prompt

variable (clamp : ℤ → ℤ)

/-- The sum of the desired heights. -/
def desiredTotal (desired : List ℤ) : ℤ :=
  desired.foldl (saturatingAdd clamp) 0

/-- The heights for the desired ones; the slice that receives them has one place for each. -/
def fitPromptSectionHeights (desired : List ℤ) (available : ℤ) : List ℤ :=
  let available := max available 0
  if desiredTotal clamp desired ≤ available then desired
  else
    let (heights, remaining) := onePixelEach (desired.map fun _ => 0) available
    growSections desired heights remaining

/-! ### Widths -/

variable (dpi : ℕ) (measured : PromptFontMetrics)

def desiredLabelWidth : ℤ :=
  max (saturatingAdd clamp (max (measured.labelWidth : ℤ) 0) (scaleDip clamp 8 dpi))
    (scaleDip clamp 70 dpi)

def desiredContentWidth : ℤ :=
  let desiredFieldWidth := saturatingAdd clamp
    (saturatingAdd clamp (scaleDip clamp 275 dpi) (scaleDip clamp 8 dpi))
    (desiredLabelWidth clamp dpi measured)
  max (max (scaleDip clamp 356 dpi) (max (measured.titleWidth : ℤ) 0)) desiredFieldWidth

def desiredClientWidth : ℤ :=
  saturatingAdd clamp (desiredContentWidth clamp dpi measured)
    (saturatingMul clamp (scaleDip clamp 12 dpi) 2)

/-- How the width of the client area is divided. -/
structure PromptColumns where
  horizontalPadding : ℤ
  contentWidth : ℤ
  horizontalGap : ℤ
  labelWidth : ℤ
  editWidth : ℤ

def promptColumns (clientWidth : ℤ) : PromptColumns :=
  let horizontalPadding := min (scaleDip clamp 12 dpi)
    ((saturatingSub clamp clientWidth 1).tdiv 2)
  let contentWidth := max (saturatingSub clamp clientWidth
    (saturatingMul clamp horizontalPadding 2)) 1
  let horizontalGap := min (scaleDip clamp 8 dpi) ((saturatingSub clamp contentWidth 2).tdiv 4)
  let fieldSpace := saturatingSub clamp contentWidth horizontalGap
  let labelWidth := min (min (desiredLabelWidth clamp dpi measured) (max (fieldSpace.tdiv 3) 1))
    fieldSpace
  { horizontalPadding, contentWidth, horizontalGap, labelWidth
    editWidth := saturatingSub clamp fieldSpace labelWidth }

/-! ### Heights -/

variable (fields : PromptFields)

def promptSections : List ℤ :=
  let lineHeight := max (measured.lineHeight : ℤ) (scaleDip clamp 16 dpi)
  let desiredTitleHeight := max (measured.titleHeight : ℤ) lineHeight
  let desiredFieldHeight := max (saturatingAdd clamp lineHeight (scaleDip clamp 8 dpi))
    (max (measured.labelHeight : ℤ) 0)
  let desiredButtonHeight := saturatingAdd clamp lineHeight (scaleDip clamp 14 dpi)
  let desiredSeparatorHeight := max (scaleDip clamp 2 dpi) 1
  fields.sections desiredTitleHeight desiredFieldHeight desiredSeparatorHeight desiredButtonHeight

def desiredClientHeight : ℤ :=
  let sections := promptSections clamp dpi measured fields
  saturatingAdd clamp
    (saturatingAdd clamp (desiredTotal clamp sections)
      (saturatingMul clamp (scaleDip clamp 8 dpi) (sections.length - 1 : ℕ)))
    (saturatingMul clamp (scaleDip clamp 12 dpi) 2)

/-- How the height of the client area is divided. -/
structure PromptRows where
  verticalPadding : ℤ
  verticalGap : ℤ
  heights : List ℤ

def promptRows (sections : List ℤ) (clientHeight : ℤ) : PromptRows :=
  let gapCount := sections.length - 1
  let minimumSectionsHeight : ℤ := sections.length
  let verticalPadding := min (scaleDip clamp 12 dpi)
    ((max (saturatingSub clamp clientHeight minimumSectionsHeight) 0).tdiv 2)
  let availableAfterPadding := max (saturatingSub clamp clientHeight
    (saturatingMul clamp verticalPadding 2)) 0
  let verticalGap := if gapCount = 0 then 0
    else min (scaleDip clamp 8 dpi)
      ((max (saturatingSub clamp availableAfterPadding minimumSectionsHeight) 0).tdiv gapCount)
  let availableForSections := saturatingSub clamp availableAfterPadding
    (saturatingMul clamp verticalGap gapCount)
  { verticalPadding, verticalGap
    heights := fitPromptSectionHeights clamp sections availableForSections }

/-! ### Controls -/

/-- The heights not yet used and the top of the next section. -/
structure PromptCursor where
  heights : List ℤ
  y : ℤ

/-- `next_height`. -/
def PromptCursor.nextHeight (cursor : PromptCursor) : ℤ := cursor.heights.headD 0

/-- The cursor after a section and the gap below it. -/
def PromptCursor.advance (cursor : PromptCursor) (verticalGap : ℤ) : PromptCursor :=
  ⟨cursor.heights.tail,
    saturatingAdd clamp (saturatingAdd clamp cursor.y cursor.nextHeight) verticalGap⟩

/-- `field`: edit and label of a value, if it is present. -/
def promptField (columns : PromptColumns) (verticalGap : ℤ) (present : Bool)
    (cursor : PromptCursor) : Option (LayoutRect × LayoutRect) × PromptCursor :=
  if present then
    let height := cursor.nextHeight
    let label := ⟨columns.horizontalPadding, cursor.y, columns.labelWidth, height⟩
    let edit := ⟨saturatingAdd clamp (saturatingAdd clamp columns.horizontalPadding
      columns.labelWidth) columns.horizontalGap, cursor.y, columns.editWidth, height⟩
    (some (edit, label), cursor.advance clamp verticalGap)
  else (none, cursor)

def promptChoice (columns : PromptColumns) (verticalGap : ℤ) (present : Bool)
    (cursor : PromptCursor) : Option LayoutRect × PromptCursor :=
  if present then
    (some ⟨columns.horizontalPadding, cursor.y,
      min (scaleDip clamp 185 dpi) columns.contentWidth, cursor.nextHeight⟩,
      cursor.advance clamp verticalGap)
  else (none, cursor)

/-- The buttons, `ok` first. -/
def promptButtons (columns : PromptColumns) (clientWidth : ℤ) (cursor : PromptCursor) :
    LayoutRect × LayoutRect :=
  let buttonGap := min columns.horizontalGap ((saturatingSub clamp columns.contentWidth 2).tdiv 3)
  let availableForButtons := saturatingSub clamp columns.contentWidth buttonGap
  let buttonWidth := min (scaleDip clamp 75 dpi) (availableForButtons.tdiv 2)
  let cancelX := saturatingSub clamp (saturatingSub clamp clientWidth columns.horizontalPadding)
    buttonWidth
  let okX := saturatingSub clamp (saturatingSub clamp cancelX buttonGap) buttonWidth
  (⟨okX, cursor.y, buttonWidth, cursor.nextHeight⟩,
    ⟨cancelX, cursor.y, buttonWidth, cursor.nextHeight⟩)

/-- The controls of a client area whose width and height are divided so. -/
def placeControls (columns : PromptColumns) (rows : PromptRows) (clientWidth clientHeight : ℤ) :
    PromptLayout :=
  let cursor : PromptCursor := ⟨rows.heights, rows.verticalPadding⟩
  let title : LayoutRect :=
    ⟨columns.horizontalPadding, cursor.y, columns.contentWidth, cursor.nextHeight⟩
  let cursor := cursor.advance clamp rows.verticalGap
  let one := promptField clamp columns rows.verticalGap fields.valueOne cursor
  let two := promptField clamp columns rows.verticalGap fields.valueTwo one.2
  let choice := promptChoice clamp dpi columns rows.verticalGap fields.choice two.2
  let separator : LayoutRect := ⟨0, choice.2.y, clientWidth, choice.2.nextHeight⟩
  let buttons := promptButtons clamp dpi columns clientWidth
    (choice.2.advance clamp rows.verticalGap)
  { client := ⟨0, 0, clientWidth, clientHeight⟩
    title
    editOne := one.1.map Prod.fst
    labelOne := one.1.map Prod.snd
    editTwo := two.1.map Prod.fst
    labelTwo := two.1.map Prod.snd
    choice := choice.1
    separator
    ok := buttons.1
    cancel := buttons.2 }

def calculatePromptLayout (maximumClient : LayoutRect) : PromptLayout :=
  let clientWidth := max (min (desiredClientWidth clamp dpi measured)
    (max maximumClient.width 1)) 1
  let clientHeight := max (min (desiredClientHeight clamp dpi measured fields)
    (max maximumClient.height 1)) 1
  placeControls clamp dpi fields (promptColumns clamp dpi measured clientWidth)
    (promptRows clamp dpi (promptSections clamp dpi measured fields) clientHeight)
    clientWidth clientHeight

end Prompt

end UiLayout

end DarkReNamer
