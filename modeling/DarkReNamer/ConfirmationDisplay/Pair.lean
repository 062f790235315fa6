import DarkReNamer.ConfirmationDisplay.Clipping

/-!
# Diagnostics of one path and of two

What the renderings of `tail` and of `pair` say about the paths they show.
-/

namespace DarkReNamer

namespace ConfirmationDisplay

open Utf16

/-- A rendering of a path. -/
structure Renders (budget : ℕ) (units : List UInt16) (text : List Char) : Prop where
  fits : utf16Count text ≤ budget
  elided : ellipsis ∈ text ↔ budget < utf16Count (escapedText units)
  decodes : ellipsis ∉ text → decode text = units
  /-- The pieces that a smaller budget never cuts. -/
  clipped : ∃ pieces, Whole pieces text ∧ ∀ room, 1 ≤ room →
    clipDiagnostic text room = text ∨
      ∃ kept, kept <+: pieces ∧ clipDiagnostic text room = kept.flatten ++ [ellipsis]

theorem renders_render (units : List UInt16) (rawStart rawEnd : ℕ) {budget : ℕ}
    (hbudget : 1 ≤ budget) :
    Renders budget units (render (tokens units) rawStart rawEnd budget) := by
  have hshown := shown_tokens units
  have helided := ellipsis_mem_render_iff hshown rawStart rawEnd hbudget
  obtain ⟨pieces, hpieces⟩ := exists_whole_render hshown rawStart rawEnd hbudget
  refine ⟨utf16Count_render_le _ _ _ hbudget, ?_, ?_, pieces, hpieces, fun room hroom =>
    clipDiagnostic_whole hpieces hroom⟩
  · rw [helided, escapedText, utf16Count_append_tokens]
  · rw [helided, Nat.not_lt]
    intro hfits
    rw [render_of_le _ _ _ hbudget hfits]
    exact decode_escapedText units

/-- Renderings that look the same and are not elided show the same path. -/
theorem Renders.units_eq {budget other : ℕ} {units others : List UInt16} {text : List Char}
    (h : Renders budget units text) (hothers : Renders other others text)
    (hshown : ellipsis ∉ text) : units = others := by
  rw [← h.decodes hshown, hothers.decodes hshown]

/-- Different paths that look the same are both elided. -/
theorem Renders.elided_of_ne {budget : ℕ} {units others : List UInt16} {text : List Char}
    (h : Renders budget units text) (hothers : Renders budget others text)
    (hne : units ≠ others) :
    budget < utf16Count (escapedText units) ∧ budget < utf16Count (escapedText others) := by
  have hmem : ellipsis ∈ text := by
    by_contra hshown
    exact hne (h.units_eq hothers hshown)
  exact ⟨h.elided.1 hmem, hothers.elided.1 hmem⟩

/-- What the diagnostics of two paths tell. -/
structure Tells (budget : ℕ) (before after : List UInt16) (display : DisplayPair) : Prop where
  renders_before : Renders budget before display.before
  renders_after : Renders budget after display.after
  elided_iff : display.elided = true ↔
    budget < utf16Count (escapedText before) ∨ budget < utf16Count (escapedText after)
  hidden_iff : display.hidden = true ↔ before ≠ after ∧ display.before = display.after
  elided_of_hidden : display.hidden = true →
    budget < utf16Count (escapedText before) ∧ budget < utf16Count (escapedText after)

theorem tells_pair (before after : List UInt16) {budget : ℕ} (hbudget : 1 ≤ budget) :
    Tells budget before after (pair before after budget) := by
  have hbefore : Renders budget before (pair before after budget).before :=
    renders_render before _ _ hbudget
  have hafter : Renders budget after (pair before after budget).after :=
    renders_render after _ _ hbudget
  have hhidden : (pair before after budget).hidden = true ↔
      before ≠ after ∧ (pair before after budget).before = (pair before after budget).after := by
    simp [pair]
  refine ⟨hbefore, hafter, ?_, hhidden, ?_⟩
  · simp [pair, escapedText, utf16Count_append_tokens]
  · intro h
    obtain ⟨hne, heq⟩ := hhidden.1 h
    rw [heq] at hbefore
    exact hbefore.elided_of_ne hafter hne

/-- Diagnostics of paths are in their budget and never mislead. -/
theorem diagnostics_faithful {budget : ℕ} (hbudget : 1 ≤ budget) :
    (∀ units, Renders budget units (tail units budget)) ∧
      (∀ before after, Tells budget before after (pair before after budget)) ∧
      (∀ other units others text, Renders budget units text → Renders other others text →
        ellipsis ∉ text → units = others) ∧
      ∀ text, utf16Count (clipDiagnostic text budget) ≤ budget :=
  ⟨fun units => renders_render units _ _ hbudget,
    fun before after => tells_pair before after hbudget,
    fun _ _ _ _ hunits hothers hshown => hunits.units_eq hothers hshown,
    fun text => utf16Count_clipDiagnostic_le text budget⟩

/-- The letter `a`, a lone surrogate and `b` in ten units and in nine. -/
theorem diagnostics_faithful_loneSurrogate :
    1 ≤ 9 ∧ Renders 10 [0x61, 0xD800, 0x62] ['a', '[', 'U', '+', 'D', '8', '0', '0', ']', 'b'] ∧
      Renders 9 [0x61, 0xD800, 0x62] ['…', 'b'] := by
  have hten : tail [0x61, 0xD800, 0x62] 10 =
      ['a', '[', 'U', '+', 'D', '8', '0', '0', ']', 'b'] := by decide
  have hnine : tail [0x61, 0xD800, 0x62] 9 = ['…', 'b'] := by decide
  refine ⟨by decide, ?_, ?_⟩
  · rw [← hten]
    exact (diagnostics_faithful (by decide)).1 _
  · rw [← hnine]
    exact (diagnostics_faithful (by decide)).1 _

end ConfirmationDisplay

end DarkReNamer
