import DarkReNamer.UiLayout.Prompt.SectionHeights
import Mathlib.Data.List.ReduceOption

/-!
# The prompt and its client area

Whatever the largest client area is, the prompt keeps to it: the columns fill the width between
the paddings, the sections are stacked in the height between them, and no control overlaps
another one.
-/

namespace DarkReNamer

namespace UiLayout

/-! ### Stacks of rectangles -/

/-- Rectangles of an area of the given width between two heights, none of which overlap. -/
structure Stack (width top bottom : ℤ) (rects : List LayoutRect) : Prop where
  order : top ≤ bottom
  inside : ∀ rect ∈ rects, 0 ≤ rect.x ∧ 0 ≤ rect.width ∧ rect.x + rect.width ≤ width ∧
    top ≤ rect.y ∧ 0 ≤ rect.height ∧ rect.y + rect.height ≤ bottom
  apart : rects.Pairwise LayoutRect.Apart

namespace Stack

variable {width top middle bottom : ℤ} {rects upper lower : List LayoutRect}

theorem nil (h : top ≤ bottom) : Stack width top bottom [] :=
  ⟨h, fun _ hmem => absurd hmem List.not_mem_nil, List.Pairwise.nil⟩

theorem singleton (rect : LayoutRect) (hx : 0 ≤ rect.x) (hwidth : 0 ≤ rect.width)
    (hright : rect.x + rect.width ≤ width) (hheight : 0 ≤ rect.height)
    (hbottom : rect.y + rect.height ≤ bottom) : Stack width rect.y bottom [rect] :=
  ⟨(Int.le_add_of_nonneg_right hheight).trans hbottom,
    List.forall_mem_singleton.2 ⟨hx, hwidth, hright, le_rfl, hheight, hbottom⟩,
    List.pairwise_singleton _ _⟩

theorem append (hupper : Stack width top middle upper) (hlower : Stack width middle bottom lower) :
    Stack width top bottom (upper ++ lower) := by
  refine ⟨hupper.order.trans hlower.order, fun rect hmem => ?_, ?_⟩
  · have hupperOrder := hupper.order
    have hlowerOrder := hlower.order
    rcases List.mem_append.1 hmem with hmem | hmem
    · have hinside := hupper.inside rect hmem
      omega
    · have hinside := hlower.inside rect hmem
      omega
  · refine List.pairwise_append.2 ⟨hupper.apart, hlower.apart, fun a ha b hb => ?_⟩
    obtain ⟨-, -, -, -, -, hbottom⟩ := hupper.inside a ha
    obtain ⟨-, -, -, htop, -, -⟩ := hlower.inside b hb
    exact Or.inr (Or.inr (Or.inl (hbottom.trans htop)))

end Stack

/-! ### Columns -/

/-- The columns fill the client width. -/
structure PromptColumns.Fill (columns : PromptColumns) (clientWidth : ℤ) : Prop where
  padding : 0 ≤ columns.horizontalPadding
  gap : 0 ≤ columns.horizontalGap
  label : 0 ≤ columns.labelWidth
  edit : 0 ≤ columns.editWidth
  content : 1 ≤ columns.contentWidth
  fields : columns.labelWidth + columns.horizontalGap + columns.editWidth = columns.contentWidth
  client : columns.horizontalPadding * 2 + columns.contentWidth = clientWidth

/-- A part of the content width without the two pixels that are kept, none if there are less. -/
theorem tdiv_content {contentWidth parts : ℤ} (hcontent : 1 ≤ contentWidth) (hparts : 1 < parts) :
    0 ≤ (contentWidth - 2).tdiv parts ∧ (contentWidth - 2).tdiv parts ≤ contentWidth := by
  rcases Int.lt_or_le contentWidth 2 with hless | hle
  · have hone : contentWidth - 2 = -1 := by omega
    rw [hone, Int.neg_tdiv, Int.tdiv_eq_ediv_of_nonneg (by decide),
      Int.ediv_eq_zero_of_lt (by decide) hparts]
    omega
  · have hself := Int.ediv_le_self parts (show 0 ≤ contentWidth - 2 by omega)
    rw [Int.tdiv_eq_ediv_of_nonneg (by omega)]
    exact ⟨Int.ediv_nonneg (by omega) (by omega), by omega⟩

theorem desiredLabelWidth_nonneg (dpi : ℕ) (measured : PromptFontMetrics) :
    0 ≤ desiredLabelWidth clampI32 dpi measured :=
  le_max_of_le_right (scaleDip_nonneg (by decide) dpi)

theorem promptColumns_fill (dpi : ℕ) (measured : PromptFontMetrics) {clientWidth : ℤ}
    (hclient : 1 ≤ clientWidth) (hmax : clientWidth ≤ i32Max) :
    (promptColumns clampI32 dpi measured clientWidth).Fill clientWidth := by
  have hlabel := desiredLabelWidth_nonneg dpi measured
  have hpadding : 0 ≤ scaleDip clampI32 12 dpi := scaleDip_nonneg (by decide) dpi
  have hgap : 0 ≤ scaleDip clampI32 8 dpi := scaleDip_nonneg (by decide) dpi
  rw [promptColumns]
  rw [saturatingSub_eq_of_le (by decide) hclient hmax, Int.tdiv_eq_ediv_of_nonneg (by omega)]
  generalize desiredLabelWidth clampI32 dpi measured = label at *
  generalize scaleDip clampI32 12 dpi = desiredPadding at *
  generalize scaleDip clampI32 8 dpi = desiredGap at *
  obtain ⟨padding, hpaddingEq⟩ : ∃ padding, min desiredPadding ((clientWidth - 1) / 2) = padding :=
    ⟨_, rfl⟩
  have hpadding2 : saturatingMul clampI32 padding 2 = padding * 2 := by
    rw [saturatingMul_of_nonneg (by omega) (by decide), min_eq_left (by omega)]
  have hcontent : max (saturatingSub clampI32 clientWidth (padding * 2)) 1 =
      clientWidth - padding * 2 := by
    rw [saturatingSub_eq_of_le (by omega) (by omega) hmax, max_eq_left (by omega)]
  simp only [hpaddingEq, hpadding2, hcontent]
  generalize hcontentEq : clientWidth - padding * 2 = content at *
  have hmin : i32Min ≤ -1 := by decide
  have hquarter : saturatingSub clampI32 content 2 = content - 2 :=
    clampI32_eq (by omega) (by omega)
  obtain ⟨gap, hgapEq⟩ : ∃ gap, min desiredGap ((content - 2).tdiv 4) = gap := ⟨_, rfl⟩
  have hgapBounds : 0 ≤ gap ∧ gap ≤ content := by
    have hpart := tdiv_content (show 1 ≤ content by omega) (show (1 : ℤ) < 4 by decide)
    omega
  have hspace : saturatingSub clampI32 content gap = content - gap :=
    saturatingSub_eq_of_le hgapBounds.1 hgapBounds.2 (by omega)
  simp only [hquarter, hgapEq, hspace]
  rw [Int.tdiv_eq_ediv_of_nonneg (by omega)]
  obtain ⟨labelWidth, hlabelEq⟩ : ∃ labelWidth, min (min label (max ((content - gap) / 3) 1))
      (content - gap) = labelWidth := ⟨_, rfl⟩
  rw [hlabelEq, saturatingSub_eq_of_le (by omega) (by omega) (by omega)]
  constructor <;> dsimp only <;> omega

/-! ### Rows -/

/-- The sections, each with a gap below it, need no more than the client height and one gap. -/
structure PromptRows.Fit (rows : PromptRows) (sections : ℕ) (clientHeight : ℤ) : Prop where
  padding : 0 ≤ rows.verticalPadding
  gap : 0 ≤ rows.verticalGap
  length : rows.heights.length = sections
  nonneg : ∀ height ∈ rows.heights, 0 ≤ height
  fits : rows.verticalPadding + (rows.heights.map (· + rows.verticalGap)).sum ≤
    clientHeight + rows.verticalGap

theorem sum_spaced (heights : List ℤ) (gap : ℤ) :
    (heights.map (· + gap)).sum = heights.sum + gap * heights.length := by
  induction heights with
  | nil => simp
  | cons height heights ih =>
      rw [List.map_cons, List.sum_cons, List.sum_cons, ih, List.length_cons, Int.natCast_succ,
        Int.mul_add, Int.mul_one]
      omega

theorem promptRows_fit (dpi : ℕ) {sections : List ℤ} {clientHeight : ℤ}
    (hsections : sections ≠ []) (hnonneg : ∀ height ∈ sections, 0 ≤ height)
    (hsum : sections.sum ≤ i32Max) (hlength : (sections.length : ℤ) ≤ i32Max)
    (hclient : 1 ≤ clientHeight) (hmax : clientHeight ≤ i32Max) :
    (promptRows clampI32 dpi sections clientHeight).Fit sections.length clientHeight := by
  have hpadding0 : 0 ≤ scaleDip clampI32 12 dpi := scaleDip_nonneg (by decide) dpi
  have hgap0 : 0 ≤ scaleDip clampI32 8 dpi := scaleDip_nonneg (by decide) dpi
  have hmin : i32Min ≤ -i32Max := by decide
  obtain ⟨count, hcount⟩ : ∃ count, sections.length = count + 1 :=
    ⟨sections.length - 1, (Nat.succ_pred_eq_of_pos (List.length_pos_iff.2 hsections)).symm⟩
  have hheights (available : ℤ) := sum_fitPromptSectionHeights_le available
    ((desiredTotal_eq hnonneg hsum).trans (desiredTotal_id sections).symm)
  have hlengths (available : ℤ) := length_fitPromptSectionHeights available sections
  have hheights0 (available : ℤ) := fitPromptSectionHeights_nonneg available hnonneg
  rw [hcount] at hlength hlengths
  rw [promptRows, hcount, Nat.add_sub_cancel]
  generalize scaleDip clampI32 12 dpi = desiredPadding at *
  generalize scaleDip clampI32 8 dpi = desiredGap at *
  generalize hminimum : ((count + 1 : ℕ) : ℤ) = minimum at *
  have hless : saturatingSub clampI32 clientHeight minimum = clientHeight - minimum :=
    clampI32_eq (by omega) (by omega)
  obtain ⟨padding, hpadding⟩ : ∃ padding,
      min desiredPadding ((max (clientHeight - minimum) 0).tdiv 2) = padding := ⟨_, rfl⟩
  have hpaddingHalf := hpadding
  rw [Int.tdiv_eq_ediv_of_nonneg (le_max_right _ _)] at hpaddingHalf
  have hpadding2 : saturatingMul clampI32 padding 2 = padding * 2 := by
    rw [saturatingMul_of_nonneg (by omega) (by decide), min_eq_left (by omega)]
  have hafter : max (saturatingSub clampI32 clientHeight (padding * 2)) 0 =
      clientHeight - padding * 2 := by
    rw [saturatingSub_eq_of_le (by omega) (by omega) hmax, max_eq_left (by omega)]
  simp only [hless, hpadding, hpadding2, hafter]
  generalize hafterEq : clientHeight - padding * 2 = after at *
  have hrest : saturatingSub clampI32 after minimum = after - minimum :=
    clampI32_eq (by omega) (by omega)
  obtain ⟨gap, hgap⟩ : ∃ gap, (if count = 0 then 0 else
      min desiredGap ((max (after - minimum) 0).tdiv count)) = gap := ⟨_, rfl⟩
  have hgapBounds : 0 ≤ gap ∧ 0 ≤ gap * count ∧ gap * count ≤ max (after - minimum) 0 := by
    by_cases hzero : count = 0
    · rw [if_pos hzero] at hgap
      simp [← hgap]
    · rw [if_neg hzero, Int.tdiv_eq_ediv_of_nonneg (le_max_right _ _)] at hgap
      have hquotient : 0 ≤ max (after - minimum) 0 / count :=
        Int.ediv_nonneg (le_max_right _ _) (Int.natCast_nonneg count)
      have hgapNonneg : 0 ≤ gap := by
        rw [← hgap]
        exact le_min hgap0 hquotient
      refine ⟨hgapNonneg, Int.mul_nonneg hgapNonneg (Int.natCast_nonneg count), ?_⟩
      refine (Int.mul_le_mul_of_nonneg_right ?_ (Int.natCast_nonneg count)).trans
        (Int.ediv_mul_le (max (after - minimum) 0) (by omega))
      rw [← hgap]
      exact min_le_right _ _
  have hgaps : saturatingMul clampI32 gap count = gap * count := by
    rw [saturatingMul_of_nonneg hgapBounds.1 (Int.natCast_nonneg count), min_eq_left (by omega)]
  have havailable : saturatingSub clampI32 after (gap * count) = after - gap * count :=
    saturatingSub_eq_of_le hgapBounds.2.1 (by omega) (by omega)
  simp only [hrest, hgap, hgaps, havailable]
  refine ⟨?_, hgapBounds.1, hlengths _, hheights0 _, ?_⟩
  · dsimp only
    omega
  · have hsumLe := hheights (after - gap * count)
    dsimp only
    rw [sum_spaced, hlengths, Int.natCast_succ, Int.mul_add, Int.mul_one]
    omega

/-! ### Controls -/

/-- Room for the remaining sections, each with a gap below it, above the bottom and one gap. -/
structure PromptCursor.Room (cursor : PromptCursor) (gap bottom : ℤ) (sections : ℕ) : Prop where
  length : cursor.heights.length = sections
  nonneg : ∀ height ∈ cursor.heights, 0 ≤ height
  top : 0 ≤ cursor.y
  fits : cursor.y + (cursor.heights.map (· + gap)).sum ≤ bottom + gap

namespace PromptCursor.Room

variable {cursor : PromptCursor} {gap bottom : ℤ} {sections : ℕ}

theorem nextHeight (h : cursor.Room gap bottom (sections + 1)) (hgap : 0 ≤ gap) :
    0 ≤ cursor.nextHeight ∧ cursor.y + cursor.nextHeight ≤ bottom := by
  obtain ⟨hlength, hnonneg, htop, hfits⟩ := h
  obtain ⟨height, heights, heq⟩ := List.exists_cons_of_length_eq_add_one hlength
  rw [heq] at hnonneg hfits
  obtain ⟨hheight, hrest⟩ := List.forall_mem_cons.1 hnonneg
  have hspaced : 0 ≤ (heights.map (· + gap)).sum :=
    List.sum_nonneg (List.forall_mem_map.2 fun _ hmem => Int.add_nonneg (hrest _ hmem) hgap)
  rw [List.map_cons, List.sum_cons] at hfits
  rw [PromptCursor.nextHeight, heq, List.headD_cons]
  omega

/-- Below a section that is not the last one there is room for the others. -/
theorem advance (h : cursor.Room gap bottom (sections + 2)) (hgap : 0 ≤ gap)
    (hbottom : bottom ≤ i32Max) :
    (cursor.advance clampI32 gap).Room gap bottom (sections + 1) ∧
      (cursor.advance clampI32 gap).y = cursor.y + cursor.nextHeight + gap := by
  obtain ⟨hheight, hend⟩ := h.nextHeight hgap
  obtain ⟨hlength, hnonneg, htop, hfits⟩ := h
  obtain ⟨height, heights, heq⟩ := List.exists_cons_of_length_eq_add_one hlength
  have hnext : cursor.nextHeight = height := by
    rw [PromptCursor.nextHeight, heq, List.headD_cons]
  rw [heq, List.length_cons] at hlength
  rw [heq] at hnonneg hfits
  rw [List.map_cons, List.sum_cons] at hfits
  obtain ⟨-, hrest⟩ := List.forall_mem_cons.1 hnonneg
  obtain ⟨next, later, hlater⟩ := List.exists_cons_of_length_eq_add_one
    (show heights.length = sections + 1 by omega)
  have hspaced : gap ≤ (heights.map (· + gap)).sum := by
    have hlaterNonneg : 0 ≤ (later.map (· + gap)).sum := by
      refine List.sum_nonneg (List.forall_mem_map.2 fun _ hmem => Int.add_nonneg (hrest _ ?_) hgap)
      rw [hlater]
      exact List.mem_cons_of_mem next hmem
    have hnextNonneg : 0 ≤ next := hrest next (by rw [hlater]; exact List.mem_cons_self)
    rw [hlater, List.map_cons, List.sum_cons]
    omega
  have hy : (cursor.advance clampI32 gap).y = cursor.y + cursor.nextHeight + gap := by
    rw [PromptCursor.advance, saturatingAdd_eq_of_le htop hheight (by omega)]
    exact saturatingAdd_eq_of_le (by omega) hgap (by omega)
  have hheights : (cursor.advance clampI32 gap).heights = heights := by
    rw [PromptCursor.advance, heq, List.tail_cons]
  refine ⟨⟨?_, ?_, by omega, ?_⟩, hy⟩
  · rw [hheights]
    omega
  · rwa [hheights]
  · rw [hheights, hy]
    omega

end PromptCursor.Room

section Controls

variable {columns : PromptColumns} {clientWidth gap bottom : ℤ} {cursor : PromptCursor}
  {sections : ℕ}

/-- The rectangles of a field, label first. -/
def fieldRects (field : Option (LayoutRect × LayoutRect)) : List LayoutRect :=
  (field.map Prod.snd).toList ++ (field.map Prod.fst).toList

theorem promptField_stack (hcolumns : columns.Fill clientWidth) (hwidth : clientWidth ≤ i32Max)
    (hgap : 0 ≤ gap) (hbottom : bottom ≤ i32Max) (present : Bool)
    (hroom : cursor.Room gap bottom (present.toNat + (sections + 1))) :
    (promptField clampI32 columns gap present cursor).2.Room gap bottom (sections + 1) ∧
      Stack clientWidth cursor.y (promptField clampI32 columns gap present cursor).2.y
        (fieldRects (promptField clampI32 columns gap present cursor).1) := by
  cases present with
  | false =>
      rw [Bool.toNat_false, Nat.zero_add] at hroom
      exact ⟨hroom, .nil le_rfl⟩
  | true =>
      obtain ⟨hpadding, hcolumnGap, hlabel, hedit, hcontent, hfields, hclient⟩ := hcolumns
      have hroom : cursor.Room gap bottom (sections + 2) := by
        rwa [Bool.toNat_true, Nat.add_comm] at hroom
      obtain ⟨hheight, hend⟩ := hroom.nextHeight hgap
      obtain ⟨hadvance, hy⟩ := hroom.advance hgap hbottom
      have hx : saturatingAdd clampI32 (saturatingAdd clampI32 columns.horizontalPadding
          columns.labelWidth) columns.horizontalGap =
          columns.horizontalPadding + columns.labelWidth + columns.horizontalGap := by
        rw [saturatingAdd_eq_of_le hpadding hlabel (by omega),
          saturatingAdd_eq_of_le (by omega) hcolumnGap (by omega)]
      rw [promptField, if_pos rfl, hx]
      refine ⟨hadvance, ?_, ?_, ?_⟩
      · dsimp only
        omega
      · simp only [fieldRects, Option.map_some, Option.toList_some, List.singleton_append,
          List.forall_mem_cons, List.not_mem_nil, false_imp_iff, implies_true, and_true]
        omega
      · simp only [fieldRects, Option.map_some, Option.toList_some, List.singleton_append,
          List.pairwise_pair, LayoutRect.Apart]
        omega

theorem promptChoice_stack (dpi : ℕ) (hcolumns : columns.Fill clientWidth) (hgap : 0 ≤ gap)
    (hbottom : bottom ≤ i32Max) (present : Bool)
    (hroom : cursor.Room gap bottom (present.toNat + (sections + 1))) :
    (promptChoice clampI32 dpi columns gap present cursor).2.Room gap bottom (sections + 1) ∧
      Stack clientWidth cursor.y (promptChoice clampI32 dpi columns gap present cursor).2.y
        (promptChoice clampI32 dpi columns gap present cursor).1.toList := by
  cases present with
  | false =>
      rw [Bool.toNat_false, Nat.zero_add] at hroom
      exact ⟨hroom, .nil le_rfl⟩
  | true =>
      obtain ⟨hpadding, hcolumnGap, hlabel, hedit, hcontent, hfields, hclient⟩ := hcolumns
      have hroom : cursor.Room gap bottom (sections + 2) := by
        rwa [Bool.toNat_true, Nat.add_comm] at hroom
      obtain ⟨hheight, hend⟩ := hroom.nextHeight hgap
      obtain ⟨hadvance, hy⟩ := hroom.advance hgap hbottom
      have hchoice : 0 ≤ scaleDip clampI32 185 dpi := scaleDip_nonneg (by decide) dpi
      rw [promptChoice, if_pos rfl]
      have hchoiceRight : columns.horizontalPadding +
          min (scaleDip clampI32 185 dpi) columns.contentWidth ≤ clientWidth := by
        omega
      have hbelow : cursor.y + cursor.nextHeight ≤ (cursor.advance clampI32 gap).y := by omega
      exact ⟨hadvance, Stack.singleton ⟨columns.horizontalPadding, cursor.y,
        min (scaleDip clampI32 185 dpi) columns.contentWidth, cursor.nextHeight⟩
        hpadding (le_min hchoice (by omega)) hchoiceRight hheight hbelow⟩

theorem promptButtons_stack (dpi : ℕ) (hcolumns : columns.Fill clientWidth)
    (hwidth : clientWidth ≤ i32Max) (hgap : 0 ≤ gap)
    (hroom : cursor.Room gap bottom (sections + 1)) :
    Stack clientWidth cursor.y bottom
      [(promptButtons clampI32 dpi columns clientWidth cursor).1,
        (promptButtons clampI32 dpi columns clientWidth cursor).2] := by
  obtain ⟨hpadding, hcolumnGap, hlabel, hedit, hcontent, hfields, hclient⟩ := hcolumns
  obtain ⟨hheight, hend⟩ := hroom.nextHeight hgap
  have hbutton : 0 ≤ scaleDip clampI32 75 dpi := scaleDip_nonneg (by decide) dpi
  have hmin : i32Min ≤ -1 := by decide
  have hpart := tdiv_content hcontent (show (1 : ℤ) < 3 by decide)
  have hthird : saturatingSub clampI32 columns.contentWidth 2 = columns.contentWidth - 2 :=
    clampI32_eq (by omega) (by omega)
  obtain ⟨buttonGap, hbuttonGap⟩ : ∃ buttonGap,
      min columns.horizontalGap ((columns.contentWidth - 2).tdiv 3) = buttonGap := ⟨_, rfl⟩
  have havailable : saturatingSub clampI32 columns.contentWidth buttonGap =
      columns.contentWidth - buttonGap :=
    saturatingSub_eq_of_le (by omega) (by omega) (by omega)
  simp only [promptButtons, hthird, hbuttonGap, havailable]
  rw [Int.tdiv_eq_ediv_of_nonneg (by omega)]
  generalize scaleDip clampI32 75 dpi = desiredWidth at *
  obtain ⟨width, hwidthEq⟩ : ∃ width,
      min desiredWidth ((columns.contentWidth - buttonGap) / 2) = width := ⟨_, rfl⟩
  have hcancel : saturatingSub clampI32 (saturatingSub clampI32 clientWidth
      columns.horizontalPadding) width = clientWidth - columns.horizontalPadding - width := by
    rw [saturatingSub_eq_of_le hpadding (by omega) hwidth,
      saturatingSub_eq_of_le (by omega) (by omega) (by omega)]
  have hok : saturatingSub clampI32 (saturatingSub clampI32
      (clientWidth - columns.horizontalPadding - width) buttonGap) width =
      clientWidth - columns.horizontalPadding - width - buttonGap - width := by
    rw [saturatingSub_eq_of_le (b := buttonGap) (by omega) (by omega) (by omega),
      saturatingSub_eq_of_le (by omega) (by omega) (by omega)]
  rw [hwidthEq, hcancel, hok]
  refine ⟨by omega, ?_, ?_⟩
  · simp only [List.forall_mem_cons, List.not_mem_nil, false_imp_iff, implies_true, and_true]
    omega
  · simp only [List.pairwise_pair, LayoutRect.Apart]
    omega

end Controls

/-! ### The layout -/

namespace PromptLayout

variable (layout : PromptLayout)

/-- Title, labels, edits, choice, separator and buttons. -/
def controls : List LayoutRect :=
  [layout.title] ++ (layout.labelOne.toList ++ layout.editOne.toList) ++
    (layout.labelTwo.toList ++ layout.editTwo.toList) ++ layout.choice.toList ++
    [layout.separator] ++ [layout.ok, layout.cancel]

/-- The client area keeps to the maximum and holds the controls side by side. -/
structure Contained (maximumClient : LayoutRect) : Prop where
  width : layout.client.width ≤ max maximumClient.width 1
  height : layout.client.height ≤ max maximumClient.height 1
  client : layout.client.Inside layout.client.width layout.client.height
  inside : ∀ rect ∈ layout.controls, rect.Inside layout.client.width layout.client.height
  apart : layout.controls.Pairwise LayoutRect.Apart

end PromptLayout

section Sections

theorem PromptFields.length_sections (fields : PromptFields) (title field separator button : ℤ) :
    (fields.sections title field separator button).length =
      fields.valueOne.toNat + (fields.valueTwo.toNat + (fields.choice.toNat + 2)) + 1 := by
  obtain ⟨one, two, choice⟩ := fields
  cases one <;> cases two <;> cases choice <;> rfl

theorem PromptFields.mem_sections {fields : PromptFields}
    {title field separator button height : ℤ}
    (h : height ∈ fields.sections title field separator button) :
    height = title ∨ height = field ∨ height = separator ∨ height = button := by
  obtain ⟨one, two, choice⟩ := fields
  cases one <;> cases two <;> cases choice <;>
    simp [PromptFields.sections] at h <;> omega

theorem PromptFields.sum_sections (fields : PromptFields) (title field separator button : ℤ) :
    (fields.sections title field separator button).sum =
      title + (if fields.valueOne then field else 0) + (if fields.valueTwo then field else 0) +
        (if fields.choice then field else 0) + separator + button := by
  obtain ⟨one, two, choice⟩ := fields
  cases one <;> cases two <;> cases choice <;>
    simp [PromptFields.sections] <;> omega

variable (dpi : ℕ) (measured : PromptFontMetrics) (fields : PromptFields)

theorem promptSections_nonneg :
    ∀ height ∈ promptSections clampI32 dpi measured fields, 0 ≤ height := by
  intro height hmem
  have hline : 0 ≤ max (measured.lineHeight : ℤ) (scaleDip clampI32 16 dpi) :=
    le_max_of_le_right (scaleDip_nonneg (by decide) dpi)
  rcases PromptFields.mem_sections hmem with rfl | rfl | rfl | rfl
  · exact le_max_of_le_right hline
  · exact le_max_of_le_right (le_max_right _ _)
  · exact le_max_of_le_right (by decide)
  · exact clampI32_nonneg (Int.add_nonneg hline (scaleDip_nonneg (by decide) dpi))

theorem PromptFields.sum_sections_le {fields : PromptFields}
    {title field separator button title' field' separator' button' : ℤ} (htitle : title ≤ title')
    (hfield : field ≤ field') (hseparator : separator ≤ separator') (hbutton : button ≤ button') :
    (fields.sections title field separator button).sum ≤
      (fields.sections title' field' separator' button').sum := by
  rw [sum_sections, sum_sections]
  split <;> split <;> split <;> omega

/-- Saturation takes height away, if anything. -/
theorem sum_promptSections_le : (promptSections clampI32 dpi measured fields).sum ≤
    desiredClientHeight id dpi measured fields := by
  have hscaled {value : ℤ} (h : 0 ≤ value) := scaleDip_nonneg h dpi
  have hline : max (measured.lineHeight : ℤ) (scaleDip clampI32 16 dpi) ≤
      max (measured.lineHeight : ℤ) (scaled 16 dpi) :=
    max_le_max le_rfl (scaleDip_le (by decide) dpi)
  have hline0 : 0 ≤ max (measured.lineHeight : ℤ) (scaleDip clampI32 16 dpi) :=
    le_max_of_le_right (hscaled (by decide))
  have hadd {value : ℤ} (h : 0 ≤ value) : saturatingAdd clampI32
      (max (measured.lineHeight : ℤ) (scaleDip clampI32 16 dpi)) (scaleDip clampI32 value dpi) ≤
        max (measured.lineHeight : ℤ) (scaled 16 dpi) + scaled value dpi := by
    rw [saturatingAdd_of_nonneg hline0 (hscaled h)]
    exact (min_le_left _ _).trans (Int.add_le_add hline (scaleDip_le h dpi))
  have hsum : (promptSections clampI32 dpi measured fields).sum ≤
      (promptSections id dpi measured fields).sum :=
    PromptFields.sum_sections_le (max_le_max le_rfl hline)
      (max_le_max (hadd (by decide)) le_rfl)
      (max_le_max (scaleDip_le (by decide) dpi) le_rfl) (hadd (by decide))
  have hgaps : 0 ≤ scaled 8 dpi * ((promptSections id dpi measured fields).length - 1 : ℕ) :=
    Int.mul_nonneg (scaled_nonneg (by decide) dpi) (Int.natCast_nonneg _)
  have hpadding : 0 ≤ scaled 12 dpi := scaled_nonneg (by decide) dpi
  simp only [desiredClientHeight, saturatingAdd_id, saturatingMul_id, scaleDip_id, desiredTotal_id]
  omega

end Sections

theorem placeControls_stack (dpi : ℕ) {fields : PromptFields} {columns : PromptColumns}
    {rows : PromptRows} {clientWidth clientHeight : ℤ} (hcolumns : columns.Fill clientWidth)
    (hrows : rows.Fit (fields.valueOne.toNat + (fields.valueTwo.toNat +
      (fields.choice.toNat + 2)) + 1) clientHeight)
    (hwidth : clientWidth ≤ i32Max) (hheight : clientHeight ≤ i32Max) :
    Stack clientWidth rows.verticalPadding clientHeight
      (placeControls clampI32 dpi fields columns rows clientWidth clientHeight).controls := by
  obtain ⟨hpadding, hgap, hlength, hnonneg, hfits⟩ := hrows
  have htop : PromptCursor.Room ⟨rows.heights, rows.verticalPadding⟩ rows.verticalGap clientHeight
      (fields.valueOne.toNat + (fields.valueTwo.toNat + (fields.choice.toNat + 1)) + 2) :=
    ⟨hlength, hnonneg, hpadding, hfits⟩
  obtain ⟨htitle, htitleEnd⟩ := htop.nextHeight hgap
  obtain ⟨hbelowTitle, htitleY⟩ := htop.advance hgap hheight
  obtain ⟨hbelowOne, hone⟩ := promptField_stack hcolumns hwidth hgap hheight fields.valueOne
    hbelowTitle
  obtain ⟨hbelowTwo, htwo⟩ := promptField_stack hcolumns hwidth hgap hheight fields.valueTwo
    hbelowOne
  obtain ⟨hbelowChoice, hchoice⟩ := promptChoice_stack dpi hcolumns hgap hheight fields.choice
    hbelowTwo
  obtain ⟨hseparator, hseparatorEnd⟩ := hbelowChoice.nextHeight hgap
  obtain ⟨hbelowSeparator, hseparatorY⟩ := hbelowChoice.advance hgap hheight
  have hbuttons := promptButtons_stack dpi hcolumns hwidth hgap hbelowSeparator
  obtain ⟨hpaddingX, -, -, -, hcontent, -, hclient⟩ := hcolumns
  have hclientWidth : 0 ≤ clientWidth := by omega
  have hcontentRight : columns.horizontalPadding + columns.contentWidth ≤ clientWidth := by omega
  have htitleStack := Stack.singleton
    ⟨columns.horizontalPadding, rows.verticalPadding, columns.contentWidth, _⟩
    hpaddingX (Int.le_trans (by decide) hcontent) hcontentRight htitle
    (htitleY ▸ Int.le_add_of_nonneg_right hgap)
  have hseparatorStack := Stack.singleton ⟨0, _, clientWidth, _⟩
    le_rfl hclientWidth (Int.zero_add clientWidth).le hseparator
    (hseparatorY ▸ Int.le_add_of_nonneg_right hgap)
  exact ((((htitleStack.append hone).append htwo).append hchoice).append hseparatorStack).append
    hbuttons

/-- In every client area up to the maximum the prompt has its controls side by side, and a section
keeps a pixel as long as there are enough of them. -/
theorem promptLayout_contained :
    (∀ (dpi : ℕ) (measured : PromptFontMetrics) (fields : PromptFields)
      (maximumClient : LayoutRect),
      desiredClientHeight id dpi measured fields ≤ i32Max →
        (calculatePromptLayout clampI32 dpi measured fields maximumClient).Contained
          maximumClient) ∧
    ∀ (desired : List ℤ) (available : ℤ),
      desiredTotal clampI32 desired = desiredTotal id desired →
        (fitPromptSectionHeights clampI32 desired available).length = desired.length ∧
        (fitPromptSectionHeights clampI32 desired available).sum ≤ max available 0 ∧
        (available < desiredTotal id desired → (desired.length : ℤ) ≤ available →
          ∀ height ∈ fitPromptSectionHeights clampI32 desired available, 1 ≤ height) := by
  refine ⟨fun dpi measured fields maximumClient hfits => ?_, fun desired available hexact =>
    ⟨length_fitPromptSectionHeights available desired,
      sum_fitPromptSectionHeights_le available hexact,
      fun hshort => one_le_of_mem_fitPromptSectionHeights (hexact ▸ hshort)⟩⟩
  have hmax : 1 ≤ i32Max := by decide
  obtain ⟨clientWidth, hclientWidth⟩ : ∃ clientWidth, max (min
      (desiredClientWidth clampI32 dpi measured) (max maximumClient.width 1)) 1 = clientWidth :=
    ⟨_, rfl⟩
  obtain ⟨clientHeight, hclientHeight⟩ : ∃ clientHeight, max (min
      (desiredClientHeight clampI32 dpi measured fields) (max maximumClient.height 1)) 1 =
        clientHeight :=
    ⟨_, rfl⟩
  have hwidest : desiredClientWidth clampI32 dpi measured ≤ i32Max := clampI32_le_max _
  have hhighest : desiredClientHeight clampI32 dpi measured fields ≤ i32Max := clampI32_le_max _
  have hsections : (promptSections clampI32 dpi measured fields).length =
      fields.valueOne.toNat + (fields.valueTwo.toNat + (fields.choice.toNat + 2)) + 1 :=
    fields.length_sections _ _ _ _
  have hfew :
      fields.valueOne.toNat + (fields.valueTwo.toNat + (fields.choice.toNat + 2)) + 1 ≤ 6 := by
    have hone := fields.valueOne.toNat_le
    have htwo := fields.valueTwo.toNat_le
    have hchoice := fields.choice.toNat_le
    omega
  have hsix : 6 ≤ i32Max := by decide
  have hcolumns := promptColumns_fill dpi measured (show 1 ≤ clientWidth by omega) (by omega)
  have hrows := promptRows_fit dpi (List.length_pos_iff.1 (by omega))
    (promptSections_nonneg dpi measured fields)
    ((sum_promptSections_le dpi measured fields).trans hfits) (by omega)
    (show 1 ≤ clientHeight by omega) (by omega)
  rw [hsections] at hrows
  have hstack := placeControls_stack dpi hcolumns hrows (by omega) (by omega)
  rw [calculatePromptLayout, hclientWidth, hclientHeight]
  have hwidthLe : clientWidth ≤ max maximumClient.width 1 := by omega
  have hheightLe : clientHeight ≤ max maximumClient.height 1 := by omega
  have hwidth0 : 0 ≤ clientWidth := by omega
  have hheight0 : 0 ≤ clientHeight := by omega
  refine ⟨hwidthLe, hheightLe, ⟨le_rfl, hwidth0, (Int.zero_add clientWidth).le, le_rfl, hheight0,
    (Int.zero_add clientHeight).le⟩, fun rect hmem => ?_, hstack.apart⟩
  obtain ⟨hx, hwidth, hright, htop, hheight, hbottom⟩ := hstack.inside rect hmem
  exact ⟨hx, hwidth, hright, hrows.padding.trans htop, hheight, hbottom⟩

/-- A title of 200 pixels, labels of 60 and lines of 16. -/
def smallText : PromptFontMetrics where
  titleWidth := ⟨200, by decide⟩
  titleHeight := ⟨20, by decide⟩
  labelWidth := ⟨60, by decide⟩
  labelHeight := ⟨18, by decide⟩
  lineHeight := ⟨16, by decide⟩

theorem promptLayout_contained_smallText :
    (calculatePromptLayout clampI32 96 smallText ⟨true, true, true⟩ ⟨0, 0, 3, -4⟩).Contained
        ⟨0, 0, 3, -4⟩ ∧
      ∀ height ∈ fitPromptSectionHeights clampI32 [20, 24, 2, 30] 5, 1 ≤ height :=
  ⟨promptLayout_contained.1 96 smallText ⟨true, true, true⟩ ⟨0, 0, 3, -4⟩ (by decide),
    (promptLayout_contained.2 [20, 24, 2, 30] 5 (by decide)).2.2 (by decide) (by decide)⟩

end UiLayout

end DarkReNamer
