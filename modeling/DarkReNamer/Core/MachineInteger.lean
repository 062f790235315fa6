import Mathlib.Tactic.Common

/-!
# Machine integers

Counters of the source are natural numbers here, and each operation that looks at their
width names it: `checkedAdd` and `saturatingAdd` are Rust's at a type whose largest value
is `max`.
-/

namespace DarkReNamer

/-- `u64::MAX`. -/
def u64Max : ℕ := 0xFFFFFFFFFFFFFFFF

/-- `usize::MAX`; the supported targets are 64 bits wide. -/
def usizeMax : ℕ := 0xFFFFFFFFFFFFFFFF

def checkedAdd (max a b : ℕ) : Option ℕ := if a + b ≤ max then some (a + b) else none

def checkedMul (max a b : ℕ) : Option ℕ := if a * b ≤ max then some (a * b) else none

def checkedSub (a b : ℕ) : Option ℕ := if b ≤ a then some (a - b) else none

def saturatingMul (max a b : ℕ) : ℕ := min (a * b) max

def saturatingAdd (max a b : ℕ) : ℕ := min (a + b) max

/-- A value of type `usize`. -/
abbrev Usize : Type := { n : ℕ // n ≤ usizeMax }

theorem checkedAdd_eq_some {max a b c : ℕ} :
    checkedAdd max a b = some c ↔ a + b ≤ max ∧ c = a + b := by
  unfold checkedAdd
  split
  · rename_i h
    simp [h, eq_comm]
  · rename_i h
    simp [h]

theorem checkedMul_eq_some {max a b c : ℕ} :
    checkedMul max a b = some c ↔ a * b ≤ max ∧ c = a * b := by
  unfold checkedMul
  split
  · rename_i h
    simp [h, eq_comm]
  · rename_i h
    simp [h]

theorem checkedSub_eq_some {a b c : ℕ} : checkedSub a b = some c ↔ b ≤ a ∧ c = a - b := by
  unfold checkedSub
  split
  · rename_i h
    simp [h, eq_comm]
  · rename_i h
    simp [h]

theorem saturatingAdd_eq {max a b : ℕ} (h : a + b ≤ max) : saturatingAdd max a b = a + b :=
  Nat.min_eq_left h

end DarkReNamer
