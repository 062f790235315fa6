import DarkReNamer.Core.Results
import DarkReNamer.UiLayout
import Mathlib.Data.List.Sort
import Mathlib.Tactic.Ring

/-!
# Command rails

The two columns of command buttons beside the list: the part of the command catalog that places
commands on them (`command_catalog.rs`), and the placement of their buttons (`ui_layout.rs`).
-/

namespace DarkReNamer

namespace UiLayout

inductive RailSide where
  | left
  | right
  deriving DecidableEq

structure RailPlacement where
  side : RailSide
  group : ℕ
  order : ℕ

/-- A catalog entry, with its identifier and its place on a rail. -/
structure CommandUiSpec where
  id : ℕ
  rail : Option RailPlacement

def rail (side : RailSide) (group order : ℕ) : Option RailPlacement := some ⟨side, group, order⟩

def commandUiSpecs : List CommandUiSpec :=
  [⟨0x8003, rail .left 0 0⟩, ⟨0x8004, rail .left 1 0⟩, ⟨0x8005, rail .left 1 1⟩,
    ⟨0x8006, rail .left 1 2⟩, ⟨0x8007, rail .left 2 0⟩, ⟨0x8008, rail .left 2 1⟩,
    ⟨0x8009, rail .left 2 2⟩, ⟨0x800A, rail .left 3 0⟩, ⟨0x800B, rail .left 3 1⟩,
    ⟨0x800C, rail .left 3 2⟩, ⟨0x800D, rail .right 0 0⟩, ⟨0x800E, none⟩,
    ⟨0x800F, rail .right 1 0⟩, ⟨0x8010, rail .right 1 2⟩, ⟨0x8011, rail .right 3 0⟩,
    ⟨0x8012, rail .right 3 1⟩, ⟨0x8013, none⟩, ⟨0x8014, rail .right 2 0⟩,
    ⟨0x8015, rail .right 2 1⟩, ⟨0x8016, rail .right 2 2⟩, ⟨0x8017, none⟩, ⟨0x8018, none⟩,
    ⟨0x8019, none⟩, ⟨0x801A, none⟩, ⟨0x801B, none⟩, ⟨0x801C, none⟩, ⟨0x801D, none⟩,
    ⟨0x801E, none⟩, ⟨0x801F, none⟩, ⟨0x8020, none⟩, ⟨0x8021, none⟩, ⟨0x8022, none⟩,
    ⟨0x8023, none⟩, ⟨0x8024, none⟩, ⟨0x8025, none⟩]

def deleteSelectedUiSpec : CommandUiSpec := ⟨0xFFFF, rail .right 1 1⟩

/-- The catalog in enumeration order, the deletion of the selected rows last. -/
def catalogSpecs : List CommandUiSpec := commandUiSpecs ++ [deleteSelectedUiSpec]

/-- The number of catalog entries on a side. -/
def railCommandCount (side : RailSide) : ℕ :=
  catalogSpecs.countP fun spec => spec.rail.any fun placement => placement.side = side

def RailSide.rank : RailSide → ℕ
  | .left => 0
  | .right => 1

/-- Side, group and order in one number. -/
def railOrderKey (spec : CommandUiSpec) : ℕ :=
  match spec.rail with
  | some placement => placement.side.rank * 65536 + placement.group * 256 + placement.order
  | none => 4294967295

/-- The entries on rails, stably sorted by `railOrderKey`. -/
def orderedRailSpecs : List CommandUiSpec :=
  (catalogSpecs.filter (·.rail.isSome)).insertionSort
    fun a b => railOrderKey a ≤ railOrderKey b

structure CommandRailSpec where
  side : RailSide

def leftRail : CommandRailSpec := ⟨.left⟩

def rightRail : CommandRailSpec := ⟨.right⟩

namespace CommandRailSpec

variable (spec : CommandRailSpec)

def orderedCommandSpecs : List CommandUiSpec :=
  match spec.side with
  | .left => orderedRailSpecs.take (railCommandCount .left)
  | .right => orderedRailSpecs.drop (railCommandCount .left)

def commandCount : ℕ := spec.orderedCommandSpecs.length

end CommandRailSpec

def CommandUiSpec.railGroup (spec : CommandUiSpec) : Option ℕ :=
  spec.rail.map (·.group)

/-- The neighbours in different groups. -/
def groupBreaks (specs : List CommandUiSpec) : ℕ :=
  (specs.zip specs.tail).countP fun pair => pair.1.railGroup ≠ pair.2.railGroup

def CommandRailSpec.groupCount (spec : CommandRailSpec) : ℕ :=
  (if spec.orderedCommandSpecs.isEmpty then 0 else 1) + groupBreaks spec.orderedCommandSpecs

structure UiMetrics where
  railTopPadding : ℤ
  railBottomPadding : ℤ
  buttonHeight : ℤ
  groupGap : ℤ
  railWidth : ℤ

structure CommandPlacement where
  command : ℕ
  x : ℤ
  y : ℤ
  width : ℤ
  height : ℤ

inductive LayoutError where
  | overflow
  | insufficientHeight (required available : ℤ)

section Rail

variable (clamp : ℤ → ℤ)

/-- Padding, buttons and the gaps between groups. -/
def requiredCommandRailHeight (spec : CommandRailSpec) (metrics : UiMetrics) :
    Except LayoutError ℤ := do
  let commandCount ← okOr .overflow (checked clamp spec.commandCount)
  let groupGaps ← okOr .overflow (checked clamp (spec.groupCount - 1 : ℕ))
  let padding ← okOr .overflow (checked clamp (metrics.railTopPadding + metrics.railBottomPadding))
  let buttons ← okOr .overflow (checked clamp (metrics.buttonHeight * commandCount))
  let height ← okOr .overflow (checked clamp (padding + buttons))
  let gaps ← okOr .overflow (checked clamp (metrics.groupGap * groupGaps))
  okOr .overflow (checked clamp (height + gaps))

/-- The gap before a command of another group. -/
def gapBefore (metrics : UiMetrics) (previous : Option ℕ) (group : ℕ) (y : ℤ) :
    Except LayoutError ℤ :=
  if previous.any (· ≠ group) then okOr .overflow (checked clamp (y + metrics.groupGap))
  else .ok y

/-- The loop over the commands of a rail, from `y` on after a command of the group `previous`. -/
def placeCommands (metrics : UiMetrics) :
    List CommandUiSpec → ℤ → Option ℕ → Except LayoutError (List CommandPlacement)
  | [], _, _ => .ok []
  | spec :: specs, y, previous => do
    let group ← okOr .overflow spec.railGroup
    let y ← gapBefore clamp metrics previous group y
    let next ← okOr .overflow (checked clamp (y + metrics.buttonHeight))
    let placements ← placeCommands metrics specs next (some group)
    return ⟨spec.id, 0, y, metrics.railWidth, metrics.buttonHeight⟩ :: placements

/-- One column of command buttons. -/
def calculateCommandRailLayout (spec : CommandRailSpec) (availableHeight : ℤ)
    (metrics : UiMetrics) : Except LayoutError (List CommandPlacement) := do
  let required ← requiredCommandRailHeight clamp spec metrics
  if required > availableHeight then .error (.insufficientHeight required availableHeight)
  else placeCommands clamp metrics spec.orderedCommandSpecs metrics.railTopPadding none

end Rail

/-! ### Exact heights -/

/-- The buttons lie one below the other between `top` and `bottom`. -/
structure Stacked (top bottom : ℤ) (placements : List CommandPlacement) : Prop where
  inside : ∀ placement ∈ placements,
    top ≤ placement.y ∧ 0 ≤ placement.height ∧ placement.y + placement.height ≤ bottom
  apart : placements.Pairwise fun a b => a.y + a.height ≤ b.y

structure UiMetrics.Nonneg (metrics : UiMetrics) : Prop where
  top : 0 ≤ metrics.railTopPadding
  bottom : 0 ≤ metrics.railBottomPadding
  button : 0 ≤ metrics.buttonHeight
  gap : 0 ≤ metrics.groupGap

/-- The gaps before the commands `specs`, after a command of the group `previous`. -/
def gapsAfter : Option ℕ → List CommandUiSpec → ℕ
  | _, [] => 0
  | previous, spec :: specs =>
    (if previous.isSome ∧ previous ≠ spec.railGroup then 1 else 0) +
      gapsAfter spec.railGroup specs

/-- The height of a rail if nothing overflows. -/
def railHeight (spec : CommandRailSpec) (metrics : UiMetrics) : ℤ :=
  metrics.railTopPadding + metrics.railBottomPadding +
    metrics.buttonHeight * spec.commandCount + metrics.groupGap * (spec.groupCount - 1 : ℕ)

theorem gapsAfter_eq_groupBreaks (specs : List CommandUiSpec)
    (hrails : ∀ spec ∈ specs, spec.rail.isSome) :
    gapsAfter none specs = groupBreaks specs := by
  have hafter (spec : CommandUiSpec) (specs : List CommandUiSpec)
      (hspec : spec.rail.isSome) (hrails : ∀ spec ∈ specs, spec.rail.isSome) :
      gapsAfter spec.railGroup specs = groupBreaks (spec :: specs) := by
    induction specs generalizing spec with
    | nil => rfl
    | cons next specs ih =>
        have hsome : spec.railGroup.isSome := by
          rw [CommandUiSpec.railGroup, Option.isSome_map]
          exact hspec
        have hrest := ih next (hrails next (by simp)) fun other hother =>
          hrails other (by simp [hother])
        have hbreaks : groupBreaks (spec :: next :: specs) =
            groupBreaks (next :: specs) + if spec.railGroup ≠ next.railGroup then 1 else 0 := by
          simp only [groupBreaks, List.tail_cons, List.zip_cons_cons, List.countP_cons,
            decide_eq_true_eq]
        rw [gapsAfter, hrest, hbreaks]
        simp only [hsome, true_and]
        omega
  cases specs with
  | nil => rfl
  | cons spec specs =>
      have hspecs := hafter spec specs (hrails spec (by simp)) fun other hother =>
        hrails other (by simp [hother])
      rw [gapsAfter, hspecs]
      simp

theorem checked_eq_some {n m : ℤ} (h : checked clampI32 n = some m) :
    m = n ∧ n ≤ i32Max := by
  rw [checked] at h
  split at h
  · rename_i hclamp
    exact ⟨(Option.some.inj h).symm, hclamp ▸ clampI32_le_max n⟩
  · cases h

/-- The loop stops nowhere before the bottom of the last button, and places the buttons one
below the other. -/
theorem placeCommands_ok {metrics : UiMetrics} (hmetrics : metrics.Nonneg)
    {specs : List CommandUiSpec} (y : ℤ) (previous : Option ℕ)
    (hrails : ∀ spec ∈ specs, spec.rail.isSome) (hy : 0 ≤ y)
    (hmax : y + metrics.buttonHeight * specs.length + metrics.groupGap * gapsAfter previous specs ≤
      i32Max) :
    ∃ placements, placeCommands clampI32 metrics specs y previous = .ok placements ∧
      Stacked y (y + metrics.buttonHeight * specs.length +
        metrics.groupGap * gapsAfter previous specs) placements := by
  induction specs generalizing y previous with
  | nil => exact ⟨[], rfl, fun _ h => absurd h List.not_mem_nil, List.Pairwise.nil⟩
  | cons spec specs ih =>
      have hbutton := hmetrics.button
      have hgap := hmetrics.gap
      obtain ⟨placement, hplacement⟩ := Option.isSome_iff_exists.1 (hrails spec (by simp))
      have hgroup : spec.railGroup = some placement.group := by
        rw [CommandUiSpec.railGroup, hplacement]
        rfl
      have hbuttons : 0 ≤ metrics.buttonHeight * (specs.length : ℤ) :=
        Int.mul_nonneg hbutton (Int.natCast_nonneg _)
      have hgaps : 0 ≤ metrics.groupGap * (gapsAfter spec.railGroup specs : ℤ) :=
        Int.mul_nonneg hgap (Int.natCast_nonneg _)
      -- the gap before this button
      obtain ⟨start, hstart, hplace⟩ : ∃ start,
          start = y + metrics.groupGap *
            ((if previous.isSome ∧ previous ≠ spec.railGroup then 1 else 0 : ℕ) : ℤ) ∧
          (0 ≤ start → start ≤ i32Max →
            gapBefore clampI32 metrics previous placement.group y = .ok start) := by
        refine ⟨_, rfl, fun hnonneg hle => ?_⟩
        rw [hgroup] at hnonneg hle ⊢
        cases previous with
        | none => simp [gapBefore]
        | some group =>
            by_cases hsame : group = placement.group
            · simp [gapBefore, hsame]
            · simp only [Option.isSome_some, ne_eq, Option.some.injEq, hsame, not_false_eq_true,
                and_self, if_true, Nat.cast_one, mul_one] at hnonneg hle ⊢
              simp [gapBefore, hsame, faithful_clampI32.checked hnonneg hle, okOr]
      rw [gapsAfter, List.length_cons] at hmax ⊢
      have htotal : y + metrics.buttonHeight * ((specs.length + 1 : ℕ) : ℤ) +
          metrics.groupGap * (((if previous.isSome ∧ previous ≠ spec.railGroup then 1 else 0) +
            gapsAfter spec.railGroup specs : ℕ) : ℤ) =
          start + metrics.buttonHeight + metrics.buttonHeight * (specs.length : ℤ) +
            metrics.groupGap * (gapsAfter spec.railGroup specs : ℤ) := by
        rw [hstart]
        push_cast
        ring
      rw [htotal] at hmax ⊢
      have hyStart : y ≤ start := by
        rw [hstart]
        exact le_add_of_nonneg_right (Int.mul_nonneg hgap (Int.natCast_nonneg _))
      obtain ⟨placements, hok, hstacked⟩ := ih (start + metrics.buttonHeight)
        spec.railGroup (fun other hother => hrails other (by simp [hother]))
        (by omega) (by omega)
      refine ⟨⟨spec.id, 0, start, metrics.railWidth, metrics.buttonHeight⟩ :: placements,
        ?_, ?_, ?_⟩
      · rw [placeCommands]
        refine bind_eq_ok_iff.2 ⟨placement.group, by rw [hgroup]; rfl, ?_⟩
        refine bind_eq_ok_iff.2 ⟨start, hplace (by omega) (by omega), ?_⟩
        refine bind_eq_ok_iff.2 ⟨start + metrics.buttonHeight, ?_, ?_⟩
        · rw [faithful_clampI32.checked (by omega) (by omega)]
          rfl
        · exact bind_eq_ok_iff.2 ⟨placements, hgroup ▸ hok, rfl⟩
      · rintro other hother
        rcases List.mem_cons.1 hother with rfl | hother
        · exact ⟨hyStart, hbutton, by dsimp only; omega⟩
        · obtain ⟨htop, hheight, hbottom⟩ := hstacked.inside other hother
          exact ⟨by omega, hheight, by omega⟩
      · exact List.pairwise_cons.2
          ⟨fun other hother => (hstacked.inside other hother).1, hstacked.apart⟩

theorem requiredCommandRailHeight_eq_ok {spec : CommandRailSpec} {metrics : UiMetrics}
    {required : ℤ} (h : requiredCommandRailHeight clampI32 spec metrics = .ok required) :
    required = railHeight spec metrics ∧ required ≤ i32Max := by
  simp only [requiredCommandRailHeight, bind_eq_ok_iff, okOr_eq_ok_iff] at h
  obtain ⟨count, hcount, gaps, hgaps, padding, hpadding, buttons, hbuttons, height, hheight,
    between, hbetween, hrequired⟩ := h
  obtain ⟨rfl, -⟩ := checked_eq_some hcount
  obtain ⟨rfl, -⟩ := checked_eq_some hgaps
  obtain ⟨rfl, -⟩ := checked_eq_some hpadding
  obtain ⟨rfl, -⟩ := checked_eq_some hbuttons
  obtain ⟨rfl, -⟩ := checked_eq_some hheight
  obtain ⟨rfl, -⟩ := checked_eq_some hbetween
  obtain ⟨rfl, hmax⟩ := checked_eq_some hrequired
  exact ⟨rfl, hmax⟩

theorem requiredCommandRailHeight_of_le {clamp : ℤ → ℤ} (hclamp : Faithful clamp)
    (spec : CommandRailSpec) {metrics : UiMetrics} (hmetrics : metrics.Nonneg)
    (hcount : spec.commandCount ≤ 35) (hgaps : spec.groupCount ≤ 35)
    (hmax : railHeight spec metrics ≤ i32Max) :
    requiredCommandRailHeight clamp spec metrics = .ok (railHeight spec metrics) := by
  have htop := hmetrics.top
  have hbottom := hmetrics.bottom
  have hbuttons : 0 ≤ metrics.buttonHeight * (spec.commandCount : ℤ) :=
    Int.mul_nonneg hmetrics.button (Int.natCast_nonneg _)
  have hbetween : 0 ≤ metrics.groupGap * ((spec.groupCount - 1 : ℕ) : ℤ) :=
    Int.mul_nonneg hmetrics.gap (Int.natCast_nonneg _)
  have hi32Max : i32Max = 2147483647 := rfl
  rw [railHeight] at hmax ⊢
  simp only [requiredCommandRailHeight, bind_eq_ok_iff, okOr_eq_ok_iff]
  exact ⟨_, hclamp.checked (by omega) (by omega), _, hclamp.checked (by omega) (by omega),
    _, hclamp.checked (by omega) (by omega), _, hclamp.checked (by omega) (by omega),
    _, hclamp.checked (by omega) (by omega), _, hclamp.checked (by omega) (by omega),
    hclamp.checked (by omega) (by omega)⟩

/-! ### The two rails -/

theorem isSome_rail_of_mem (spec : CommandRailSpec) :
    ∀ command ∈ spec.orderedCommandSpecs, command.rail.isSome := by
  intro command hcommand
  have hordered : command ∈ orderedRailSpecs := by
    rw [CommandRailSpec.orderedCommandSpecs] at hcommand
    cases hside : spec.side with
    | left =>
        rw [hside] at hcommand
        exact List.mem_of_mem_take hcommand
    | right =>
        rw [hside] at hcommand
        exact List.mem_of_mem_drop hcommand
  exact (List.mem_filter.1 ((List.mem_insertionSort _).1 hordered)).2

theorem gapsAfter_eq_groupCount (spec : CommandRailSpec) :
    gapsAfter none spec.orderedCommandSpecs = spec.groupCount - 1 := by
  rw [gapsAfter_eq_groupBreaks _ (isSome_rail_of_mem spec), CommandRailSpec.groupCount]
  cases hspecs : spec.orderedCommandSpecs with
  | nil => rfl
  | cons command specs => simp

/-- What a successful placement gives. -/
theorem stacked_of_calculateCommandRailLayout {spec : CommandRailSpec} {metrics : UiMetrics}
    {availableHeight : ℤ} {placements : List CommandPlacement} (hmetrics : metrics.Nonneg)
    (h : calculateCommandRailLayout clampI32 spec availableHeight metrics = .ok placements) :
    Stacked 0 availableHeight placements := by
  obtain ⟨required, hrequired, h⟩ := bind_eq_ok_iff.1 h
  obtain ⟨rfl, hmax⟩ := requiredCommandRailHeight_eq_ok hrequired
  split at h
  · cases h
  · rename_i hfits
    have htop := hmetrics.top
    have hbottom := hmetrics.bottom
    rw [railHeight, ← gapsAfter_eq_groupCount, CommandRailSpec.commandCount] at hmax hfits
    obtain ⟨placed, hplaced, hstacked⟩ := placeCommands_ok hmetrics
      metrics.railTopPadding none (isSome_rail_of_mem spec) htop (by omega)
    rw [hplaced] at h
    cases h
    refine ⟨fun placement hplacement => ?_, hstacked.apart⟩
    obtain ⟨h0, h1, h2⟩ := hstacked.inside placement hplacement
    exact ⟨by omega, h1, by omega⟩

/-- A rail that is placed fits. -/
theorem railHeight_le_of_calculateCommandRailLayout {spec : CommandRailSpec} {metrics : UiMetrics}
    {availableHeight : ℤ} {placements : List CommandPlacement}
    (h : calculateCommandRailLayout clampI32 spec availableHeight metrics = .ok placements) :
    railHeight spec metrics ≤ availableHeight := by
  obtain ⟨required, hrequired, h⟩ := bind_eq_ok_iff.1 h
  obtain ⟨rfl, -⟩ := requiredCommandRailHeight_eq_ok hrequired
  split at h
  · cases h
  · next hfits => exact not_lt.1 hfits

theorem calculateCommandRailLayout_of_le {spec : CommandRailSpec} {metrics : UiMetrics}
    {availableHeight : ℤ} (hmetrics : metrics.Nonneg) (hcount : spec.commandCount ≤ 35)
    (hgaps : spec.groupCount ≤ 35) (hfits : railHeight spec metrics ≤ availableHeight)
    (hmax : availableHeight ≤ i32Max) :
    ∃ placements,
      calculateCommandRailLayout clampI32 spec availableHeight metrics = .ok placements := by
  have htop := hmetrics.top
  have hbottom := hmetrics.bottom
  have hrequired := requiredCommandRailHeight_of_le faithful_clampI32 spec hmetrics hcount hgaps
    (hfits.trans hmax)
  rw [calculateCommandRailLayout, hrequired]
  simp only [bind, Except.bind]
  rw [if_neg (not_lt.2 hfits)]
  rw [railHeight, ← gapsAfter_eq_groupCount, CommandRailSpec.commandCount] at hfits
  obtain ⟨placed, hplaced, -⟩ := placeCommands_ok hmetrics
    metrics.railTopPadding none (isSome_rail_of_mem spec) htop (by omega)
  exact ⟨placed, hplaced⟩

theorem railHeight_leftRail (metrics : UiMetrics) :
    railHeight leftRail metrics = metrics.railTopPadding + metrics.railBottomPadding +
      metrics.buttonHeight * 10 + metrics.groupGap * 3 := by
  have hcount : leftRail.commandCount = 10 := by decide
  have hgroups : leftRail.groupCount = 4 := by decide
  rw [railHeight, hcount, hgroups]
  rfl

end UiLayout

end DarkReNamer
