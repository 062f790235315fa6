import Mathlib.Algebra.Ring.Int.Defs
import Mathlib.Data.Int.Order.Basic

/-!
# Scaled coordinates

Pixel arithmetic of the window layout (`ui_layout.rs`). Coordinates are integers here. A
saturating operation of the source is the exact one followed by `clamp`, and a checked or a plain
one fails where `clamp` would change its result; the layout functions are written for any
`clamp`, so that one definition gives what the source computes (`clampI32`) and what it would
compute if nothing ever saturated (`id`).
-/

namespace DarkReNamer

def i32Min : ℤ := -2147483648

def i32Max : ℤ := 2147483647

/-- A value of type `i32`. -/
abbrev I32 : Type := { n : ℤ // i32Min ≤ n ∧ n ≤ i32Max }

/-- A value of type `u32`. -/
abbrev U32 : Type := { n : ℕ // n ≤ 4294967295 }

namespace UiLayout

def clampI32 (n : ℤ) : ℤ := max i32Min (min n i32Max)

theorem clampI32_eq {n : ℤ} (hmin : i32Min ≤ n) (hmax : n ≤ i32Max) : clampI32 n = n := by
  rw [clampI32, min_eq_left hmax, max_eq_right hmin]

theorem clampI32_le_max (n : ℤ) : clampI32 n ≤ i32Max :=
  max_le (by decide) (min_le_right _ _)

theorem clampI32_nonneg {n : ℤ} (h : 0 ≤ n) : 0 ≤ clampI32 n :=
  Int.le_trans (Int.le_min.2 ⟨h, by decide⟩) (Int.le_max_right _ _)

section Clamp

variable (clamp : ℤ → ℤ)

def saturatingAdd (a b : ℤ) : ℤ := clamp (a + b)

def saturatingSub (a b : ℤ) : ℤ := clamp (a - b)

def saturatingMul (a b : ℤ) : ℤ := clamp (a * b)

/-- A result that must be in range. -/
def checked (n : ℤ) : Option ℤ := if clamp n = n then some n else none

end Clamp

/-- A clamp that makes no value from zero on larger, nor smaller than itself or `i32Max`. -/
def Faithful (clamp : ℤ → ℤ) : Prop := ∀ n, 0 ≤ n → min n i32Max ≤ clamp n ∧ clamp n ≤ n

/-- `BASE_DPI`. -/
def baseDpi : ℤ := 96

/-- The nearest pixel to a coordinate at 96 DPI, halves away from zero. -/
def scaled (value : ℤ) (dpi : ℕ) : ℤ :=
  let product := value * dpi
  if product < 0 then -((-product + baseDpi / 2) / baseDpi)
  else (product + baseDpi / 2) / baseDpi

def scaleDip (clamp : ℤ → ℤ) (value : ℤ) (dpi : ℕ) : ℤ := clamp (scaled value dpi)

theorem scaled_of_nonneg {value : ℤ} (h : 0 ≤ value) (dpi : ℕ) :
    scaled value dpi = (value * dpi + 48) / 96 :=
  if_neg (not_lt.2 (Int.mul_nonneg h (Int.natCast_nonneg dpi)))

theorem scaled_nonneg {value : ℤ} (h : 0 ≤ value) (dpi : ℕ) : 0 ≤ scaled value dpi := by
  have hproduct := Int.mul_nonneg h (Int.natCast_nonneg dpi)
  rw [scaled_of_nonneg h]
  omega

theorem clampI32_of_nonneg {n : ℤ} (h : 0 ≤ n) : clampI32 n = min n i32Max :=
  Int.max_eq_right (Int.le_trans (by decide) (Int.le_min.2 ⟨h, by decide⟩))

theorem scaleDip_of_nonneg {value : ℤ} (h : 0 ≤ value) (dpi : ℕ) :
    scaleDip clampI32 value dpi = min ((value * dpi + 48) / 96) i32Max := by
  rw [scaleDip, clampI32_of_nonneg (scaled_nonneg h dpi), scaled_of_nonneg h]

theorem saturatingAdd_eq_of_le {a b : ℤ} (ha : 0 ≤ a) (hb : 0 ≤ b) (h : a + b ≤ i32Max) :
    saturatingAdd clampI32 a b = a + b :=
  clampI32_eq (Int.le_trans (by decide) (Int.add_nonneg ha hb)) h

theorem saturatingSub_eq_of_le {a b : ℤ} (hb : 0 ≤ b) (h : b ≤ a) (ha : a ≤ i32Max) :
    saturatingSub clampI32 a b = a - b := by
  have hmin : i32Min ≤ 0 := by decide
  exact clampI32_eq (by omega) (by omega)

@[simp] theorem saturatingAdd_id (a b : ℤ) : saturatingAdd id a b = a + b := rfl

@[simp] theorem saturatingSub_id (a b : ℤ) : saturatingSub id a b = a - b := rfl

@[simp] theorem saturatingMul_id (a b : ℤ) : saturatingMul id a b = a * b := rfl

@[simp] theorem scaleDip_id (value : ℤ) (dpi : ℕ) : scaleDip id value dpi = scaled value dpi := rfl

@[simp] theorem checked_id (n : ℤ) : checked id n = some n := if_pos rfl

theorem saturatingAdd_of_nonneg {a b : ℤ} (ha : 0 ≤ a) (hb : 0 ≤ b) :
    saturatingAdd clampI32 a b = min (a + b) i32Max :=
  clampI32_of_nonneg (Int.add_nonneg ha hb)

theorem saturatingMul_of_nonneg {a b : ℤ} (ha : 0 ≤ a) (hb : 0 ≤ b) :
    saturatingMul clampI32 a b = min (a * b) i32Max :=
  clampI32_of_nonneg (Int.mul_nonneg ha hb)

theorem scaleDip_nonneg {value : ℤ} (h : 0 ≤ value) (dpi : ℕ) :
    0 ≤ scaleDip clampI32 value dpi :=
  clampI32_nonneg (scaled_nonneg h dpi)

theorem scaleDip_le {value : ℤ} (h : 0 ≤ value) (dpi : ℕ) :
    scaleDip clampI32 value dpi ≤ scaled value dpi := by
  rw [scaleDip, clampI32_of_nonneg (scaled_nonneg h dpi)]
  exact min_le_left _ _

theorem faithful_clampI32 : Faithful clampI32 := fun _ h => by
  rw [clampI32_of_nonneg h]
  exact ⟨le_rfl, min_le_left _ _⟩

section Faithful

variable {clamp : ℤ → ℤ} (hclamp : Faithful clamp)

include hclamp

theorem Faithful.eq {n : ℤ} (h : 0 ≤ n) (hmax : n ≤ i32Max) : clamp n = n := by
  obtain ⟨hge, hle⟩ := hclamp n h
  omega

theorem Faithful.scaleDip {value : ℤ} {dpi : ℕ} (hvalue : 0 ≤ value)
    (h : scaled value dpi ≤ i32Max) : UiLayout.scaleDip clamp value dpi = scaled value dpi :=
  hclamp.eq (scaled_nonneg hvalue dpi) h

theorem Faithful.checked {n : ℤ} (h : 0 ≤ n) (hmax : n ≤ i32Max) :
    UiLayout.checked clamp n = some n :=
  if_pos (hclamp.eq h hmax)

end Faithful

/-- A rectangle of a layout. -/
structure LayoutRect where
  x : ℤ
  y : ℤ
  width : ℤ
  height : ℤ

def LayoutRect.bottom (clamp : ℤ → ℤ) (rect : LayoutRect) : ℤ :=
  saturatingAdd clamp rect.y rect.height

/-- In the client area. -/
def LayoutRect.Inside (rect : LayoutRect) (width height : ℤ) : Prop :=
  0 ≤ rect.x ∧ 0 ≤ rect.width ∧ rect.x + rect.width ≤ width ∧
    0 ≤ rect.y ∧ 0 ≤ rect.height ∧ rect.y + rect.height ≤ height

/-- Without a common pixel. -/
def LayoutRect.Apart (a b : LayoutRect) : Prop :=
  a.x + a.width ≤ b.x ∨ b.x + b.width ≤ a.x ∨
    a.y + a.height ≤ b.y ∨ b.y + b.height ≤ a.y

end UiLayout

end DarkReNamer
