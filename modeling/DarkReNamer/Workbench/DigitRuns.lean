import DarkReNamer.Workbench.Names
import Mathlib.Data.List.Basic

/-!
# Runs of digits

The two scans for a run of digits cut a stem into what stands in front of the run, the run and
what stands behind it. Zeros in front of the run belong to the run of the longer stem, so that
padding twice is padding once to the larger width, and they leave the value of the run as it is.
-/

namespace DarkReNamer

theorem findIdx?_cut {α : Type} {p : α → Bool} {front : List α} {a : α} {back : List α}
    (hfront : ∀ b ∈ front, p b = false) (ha : p a = true) :
    (front ++ a :: back).findIdx? p = some front.length := by
  rw [List.findIdx?_append, List.findIdx?_eq_none_iff.2 hfront, List.findIdx?_cons, if_pos ha]
  simp

theorem exists_cut_of_findIdx? {α : Type} {p : α → Bool} {l : List α} {i : ℕ}
    (h : l.findIdx? p = some i) :
    ∃ front a back, l = front ++ a :: back ∧ front.length = i ∧ p a = true ∧
      ∀ b ∈ front, p b = false := by
  obtain ⟨hi, hpi, hlt⟩ := List.findIdx?_eq_some_iff_getElem.1 h
  refine ⟨l.take i, l[i], l.drop (i + 1), ?_, List.length_take_of_le (Nat.le_of_lt hi), hpi, ?_⟩
  · rw [← List.drop_eq_getElem_cons hi, List.take_append_drop]
  · intro b hb
    obtain ⟨j, hj, rfl⟩ := List.mem_take_iff_getElem.1 hb
    simpa using hlt j (by omega)

/-- Which run of digits a command pads. -/
inductive DigitRun where
  | first
  | last
  deriving DecidableEq

namespace DigitRun

def find : DigitRun → List UInt16 → Option (ℕ × ℕ)
  | .first => firstDigitRun
  | .last => lastDigitRun

/-- The run that is padded, between what stands in front of it and behind it. The first run is
padded only when something follows it. -/
structure Selects (which : DigitRun) (front run back : List UInt16) : Prop where
  ne_nil : run ≠ []
  digits : ∀ unit ∈ run, isAsciiDigit unit = true
  first : which = .first → (∀ unit ∈ front, isAsciiDigit unit = false) ∧
    ∃ unit rest, back = unit :: rest ∧ isAsciiDigit unit = false
  last : which = .last → (∀ unit ∈ back, isAsciiDigit unit = false) ∧
    ∀ rest unit, front = rest ++ [unit] → isAsciiDigit unit = false

variable {which : DigitRun} {front run back stem : List UInt16}

/-- More digits in front of a selected run belong to it. -/
theorem Selects.grow (h : which.Selects front run back) {more : List UInt16}
    (hmore : ∀ unit ∈ more, isAsciiDigit unit = true) :
    which.Selects front (more ++ run) back where
  ne_nil := List.append_ne_nil_of_right_ne_nil more h.ne_nil
  digits := by
    intro unit hunit
    rcases List.mem_append.1 hunit with hunit | hunit
    · exact hmore unit hunit
    · exact h.digits unit hunit
  first := h.first
  last := h.last

theorem Selects.firstDigitRun_eq (h : DigitRun.first.Selects front run back) :
    firstDigitRun (front ++ run ++ back) =
      some (front.length, front.length + run.length - 1) := by
  obtain ⟨hfront, unit, rest, rfl, hunit⟩ := h.first rfl
  obtain ⟨digit, digits, rfl⟩ := List.exists_cons_of_ne_nil h.ne_nil
  have hstart : (front ++ digit :: digits ++ unit :: rest).findIdx? isAsciiDigit =
      some front.length := by
    rw [List.append_assoc]
    exact findIdx?_cut hfront (h.digits digit (by simp))
  have hend : (digit :: digits ++ unit :: rest).findIdx? (fun unit => !isAsciiDigit unit) =
      some (digit :: digits).length := by
    refine findIdx?_cut (fun unit hunit => ?_) (by simp [hunit])
    simp [h.digits unit hunit]
  rw [firstDigitRun, hstart, Option.bind_eq_bind, Option.bind_some, List.append_assoc,
    List.drop_left, hend]
  rfl

theorem Selects.lastDigitRun_eq (h : DigitRun.last.Selects front run back) :
    lastDigitRun (front ++ run ++ back) =
      some (front.length, front.length + run.length - 1) := by
  obtain ⟨hback, hfront⟩ := h.last rfl
  obtain ⟨digits, digit, rfl⟩ := (List.eq_nil_or_concat' run).resolve_left h.ne_nil
  have hlast : rposition isAsciiDigit (front ++ (digits ++ [digit]) ++ back) =
      some (front ++ digits).length := by
    have hsplit : front ++ (digits ++ [digit]) ++ back = (front ++ digits) ++ digit :: back := by
      simp
    rw [hsplit]
    exact rposition_append _ (h.digits digit (by simp)) hback
  have htake : (front ++ (digits ++ [digit]) ++ back).take ((front ++ digits).length + 1) =
      front ++ (digits ++ [digit]) := by
    have hlength : (front ++ digits).length + 1 = (front ++ (digits ++ [digit])).length := by
      simp
      omega
    rw [hlength, List.take_left]
  rw [lastDigitRun, hlast, Option.bind_eq_bind, Option.bind_some, htake]
  refine congrArg some (Prod.ext ?_ (by simp))
  rcases List.eq_nil_or_concat' front with rfl | ⟨rest, unit, rfl⟩
  · rw [List.nil_append, rposition_eq_none.2 fun unit hunit => by simp [h.digits unit hunit]]
    rfl
  · have hposition : rposition (fun unit => !isAsciiDigit unit)
        (rest ++ unit :: (digits ++ [digit])) = some rest.length :=
      rposition_append rest (by simp [hfront rest unit rfl])
        fun unit hunit => by simp [h.digits unit hunit]
    rw [List.append_assoc, List.singleton_append, hposition]
    simp

/-- The scans find the selected run. -/
theorem Selects.find_eq (h : which.Selects front run back) :
    which.find (front ++ run ++ back) = some (front.length, front.length + run.length - 1) := by
  cases which with
  | first => exact h.firstDigitRun_eq
  | last => exact h.lastDigitRun_eq

theorem exists_selects_of_firstDigitRun {r : ℕ × ℕ} (h : firstDigitRun stem = some r) :
    ∃ front run back, stem = front ++ run ++ back ∧ DigitRun.first.Selects front run back := by
  rw [firstDigitRun, Option.bind_eq_bind, Option.bind_eq_some_iff] at h
  obtain ⟨start, hstart, h⟩ := h
  rw [Option.bind_eq_some_iff] at h
  obtain ⟨stop, hstop, -⟩ := h
  obtain ⟨front, digit, rest, rfl, rfl, hdigit, hfront⟩ := exists_cut_of_findIdx? hstart
  rw [List.drop_left] at hstop
  obtain ⟨run, unit, back, hrun, -, hunit, hdigits⟩ := exists_cut_of_findIdx? hstop
  refine ⟨front, run, unit :: back, by rw [hrun, List.append_assoc], ?_⟩
  refine ⟨?_, fun unit hunit => by simpa using hdigits unit hunit, fun _ => ⟨hfront, unit, back,
    rfl, by simpa using hunit⟩, by rintro ⟨⟩⟩
  rintro rfl
  rw [List.nil_append, List.cons.injEq] at hrun
  rw [← hrun.1, hdigit] at hunit
  cases hunit

theorem exists_selects_of_lastDigitRun {r : ℕ × ℕ} (h : lastDigitRun stem = some r) :
    ∃ front run back, stem = front ++ run ++ back ∧ DigitRun.last.Selects front run back := by
  rw [lastDigitRun, Option.bind_eq_bind, Option.bind_eq_some_iff] at h
  obtain ⟨last, hlast, -⟩ := h
  obtain ⟨before, digit, back, rfl, -, hdigit, hback⟩ := exists_of_rposition_eq_some hlast
  cases hcut : rposition (fun unit => !isAsciiDigit unit) before with
  | none =>
      have hbefore := rposition_eq_none.1 hcut
      refine ⟨[], before ++ [digit], back, by simp, by simp, ?_, by rintro ⟨⟩,
        fun _ => ⟨hback, by simp⟩⟩
      intro unit hunit
      rcases List.mem_append.1 hunit with hunit | hunit
      · simpa using hbefore unit hunit
      · rwa [List.mem_singleton.1 hunit]
  | some index =>
      obtain ⟨front, unit, digits, rfl, -, hunit, hdigits⟩ := exists_of_rposition_eq_some hcut
      refine ⟨front ++ [unit], digits ++ [digit], back, by simp, by simp, ?_, by rintro ⟨⟩,
        fun _ => ⟨hback, ?_⟩⟩
      · intro unit hunit
        rcases List.mem_append.1 hunit with hunit | hunit
        · simpa using hdigits unit hunit
        · rwa [List.mem_singleton.1 hunit]
      · intro rest unit' heq
        obtain ⟨-, rfl⟩ := List.append_inj' heq rfl |>.imp id List.singleton_inj.1
        simpa using hunit

theorem exists_selects {r : ℕ × ℕ} (h : which.find stem = some r) :
    ∃ front run back, stem = front ++ run ++ back ∧ which.Selects front run back := by
  cases which with
  | first => exact exists_selects_of_firstDigitRun h
  | last => exact exists_selects_of_lastDigitRun h

/-! ### Padding -/

/-- The stem with zeros in front of its run. -/
def padded (which : DigitRun) (width : ℕ) (stem : List UInt16) : List UInt16 :=
  match which.find stem with
  | none => stem
  | some (start, stop) =>
      stem.take start ++ List.replicate (width - (stop - start + 1)) digitZero ++ stem.drop start

theorem Selects.padded_eq (h : which.Selects front run back) (width : ℕ) :
    which.padded width (front ++ run ++ back) =
      front ++ (List.replicate (width - run.length) digitZero ++ run) ++ back := by
  have hlength : front.length + run.length - 1 - front.length + 1 = run.length := by
    have hpos := List.length_pos_iff.2 h.ne_nil
    omega
  rw [padded, h.find_eq]
  dsimp only
  rw [hlength, List.append_assoc front, List.take_left, List.drop_left]
  simp only [List.append_assoc]

theorem isAsciiDigit_of_mem_replicate (n : ℕ) :
    ∀ unit ∈ List.replicate n digitZero, isAsciiDigit unit = true := by
  intro unit hunit
  rw [List.eq_of_mem_replicate hunit]
  rfl

/-- The larger of two widths counts. -/
theorem padded_padded (which : DigitRun) (width width' : ℕ) (stem : List UInt16) :
    which.padded width' (which.padded width stem) = which.padded (max width width') stem := by
  cases hfind : which.find stem with
  | none =>
      have hsame (width : ℕ) : which.padded width stem = stem := by
        rw [padded, hfind]
      rw [hsame, hsame, hsame]
  | some r =>
      obtain ⟨front, run, back, rfl, h⟩ := exists_selects hfind
      have hgrown := h.grow (isAsciiDigit_of_mem_replicate (width - run.length))
      have hzeros : width' - (List.replicate (width - run.length) digitZero ++ run).length +
          (width - run.length) = max width width' - run.length := by
        rw [List.length_append, List.length_replicate]
        omega
      rw [h.padded_eq, hgrown.padded_eq, h.padded_eq, ← List.append_assoc (List.replicate _ _),
        List.replicate_append_replicate, hzeros]

/-- Padding brings nothing but zeros into a stem. -/
theorem mem_padded {width : ℕ} {unit : UInt16} (h : unit ∈ which.padded width stem) :
    unit ∈ stem ∨ unit = digitZero := by
  cases hfind : which.find stem with
  | none =>
      rw [padded, hfind] at h
      exact .inl h
  | some r =>
      obtain ⟨front, run, back, rfl, hselects⟩ := exists_selects hfind
      rw [hselects.padded_eq] at h
      simp only [List.mem_append, List.mem_replicate] at h ⊢
      tauto

theorem padded_nil (which : DigitRun) (width : ℕ) : which.padded width [] = [] := by
  cases which with
  | first => rfl
  | last => rfl

/-- The number that a run of digits writes. -/
def value (run : List UInt16) : ℕ :=
  run.foldl (fun value unit => value * 10 + (unit.toNat - digitZero.toNat)) 0

theorem value_zeros (count : ℕ) (run : List UInt16) :
    value (List.replicate count digitZero ++ run) = value run := by
  induction count with
  | zero => rfl
  | succ count ih =>
      rw [List.replicate_succ, List.cons_append]
      exact ih

end DigitRun

end DarkReNamer
