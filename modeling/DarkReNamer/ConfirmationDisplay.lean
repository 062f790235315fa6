import DarkReNamer.Core.Utf16

/-!
# Diagnostics of paths

How the confirmation shows UTF-16 paths (`confirmation_display.rs`): controls, brackets and lone
surrogates are escaped, and a text that does not fit is elided around the part that matters.
-/

namespace DarkReNamer

namespace ConfirmationDisplay

open Utf16

inductive Glyph where
  | character (value : Char)
  | escaped (unit : UInt16)

/-- A glyph and the range of its units. -/
structure Token where
  start : ℕ
  stop : ℕ
  glyph : Glyph

/-- The ellipsis, which is never part of an escaped text. -/
def ellipsis : Char := Char.ofNat 0x2026

def Token.cost (token : Token) : ℕ :=
  match token.glyph with
  | .character value => lenUtf16 value
  | .escaped _ => 8

def hexDigit (n : ℕ) : Char := if n < 10 then Char.ofNat (48 + n) else Char.ofNat (55 + n)

/-- The format `04X` of a unit. -/
def hex4 (n : ℕ) : List Char :=
  [hexDigit (n / 4096), hexDigit (n / 256 % 16), hexDigit (n / 16 % 16), hexDigit (n % 16)]

/-- What `Token::append` adds to a text. -/
def Token.text (token : Token) : List Char :=
  match token.glyph with
  | .character value => [value]
  | .escaped unit => '[' :: 'U' :: '+' :: (hex4 unit.toNat ++ [']'])

/-- The units that are escaped besides lone surrogates. -/
def escaped (unit : UInt16) : Bool :=
  let u := unit.toNat
  u ≤ 0x1F || (0x7F ≤ u && u ≤ 0x9F) || u == 0x5B || u == 0x5D || u == 0x61C ||
    (0x200E ≤ u && u ≤ 0x200F) || u == 0x2026 || (0x2028 ≤ u && u ≤ 0x202E) ||
    (0x2066 ≤ u && u ≤ 0x2069) || u == 0xFFFD

/-- The glyph of a unit that starts no surrogate pair. -/
def unitGlyph (unit : UInt16) : Glyph :=
  if escaped unit || (isHighSurrogate unit || isLowSurrogate unit) then .escaped unit
  else .character (charFromU32 unit.toNat)

/-- The tokens of the units from `index` on. -/
def tokensFrom (index : ℕ) : List UInt16 → List Token
  | [] => []
  | [unit] => [⟨index, index + 1, unitGlyph unit⟩]
  | unit :: next :: units =>
    if isHighSurrogate unit && isLowSurrogate next then
      ⟨index, index + 2, .character (charFromU32 (pairScalar unit next))⟩ ::
        tokensFrom (index + 2) units
    else ⟨index, index + 1, unitGlyph unit⟩ :: tokensFrom (index + 1) (next :: units)

def tokens (units : List UInt16) : List Token := tokensFrom 0 units

def cost (tokens : List Token) : ℕ := (tokens.map Token.cost).sum

/-- `append` to an empty text. -/
def append (tokens : List Token) : List Char := tokens.flatMap Token.text

/-- `slice[start..stop]`. -/
def slice (tokens : List Token) (start stop : ℕ) : List Token := (tokens.take stop).drop start

/-- `partition_point` of a slice whose first elements satisfy the predicate. -/
def partitionPoint (p : Token → Bool) (tokens : List Token) : ℕ := (tokens.takeWhile p).length

/-- How many tokens one of the loops takes, one after the other, while their cost is in the
room. -/
def takeWithin : List Token → ℕ → ℕ
  | [], _ => 0
  | token :: tokens, room =>
    if token.cost ≤ room then takeWithin tokens (room - token.cost) + 1 else 0

/-- The ellipsis of a side where something is left out. -/
def ellipsisIf (elided : Bool) : List Char := if elided then [ellipsis] else []

section Render

variable (tokens : List Token)

/-- The tokens around a focus that fits: first to the left, with half of the room, then to the
right, and with what remains again to the left. -/
def renderAround (start stop budget : ℕ) : List Char :=
  let remaining := budget - cost (slice tokens start stop) - 2
  let left := start - takeWithin (tokens.take start).reverse (remaining / 2)
  let remaining := remaining - cost (slice tokens left start)
  let right := stop + takeWithin (tokens.drop stop) remaining
  let remaining := remaining - cost (slice tokens stop right)
  let left := left - takeWithin (tokens.take left).reverse remaining
  ellipsisIf (left != 0) ++ append (slice tokens left right) ++
    ellipsisIf (right != tokens.length)

/-- Head and tail of a focus that does not fit. -/
def renderEnds (start stop budget : ℕ) : List Char :=
  let outer := (start != 0).toNat + (stop != tokens.length).toNat
  let available := budget - (outer + 1)
  let head := start + takeWithin (slice tokens start stop) (available / 2)
  let used := cost (slice tokens start head)
  let tail := stop - takeWithin (slice tokens head stop).reverse (available - used)
  ellipsisIf (start != 0) ++ append (slice tokens start head) ++ [ellipsis] ++
    append (slice tokens tail stop) ++ ellipsisIf (stop != tokens.length)

/-- The text of the tokens within the budget, with the units from `rawStart` to `rawEnd` in
focus. -/
def render (rawStart rawEnd budget : ℕ) : List Char :=
  if budget = 0 then []
  else if cost tokens ≤ budget then append tokens
  else if budget < 3 then [ellipsis]
  else
    let start := partitionPoint (fun token => token.stop ≤ rawStart) tokens
    let stop := max (partitionPoint (fun token => token.start < rawEnd) tokens) start
    if cost (slice tokens start stop) + 2 ≤ budget then renderAround tokens start stop budget
    else renderEnds tokens start stop budget

end Render

structure DisplayPair where
  before : List Char
  after : List Char
  elided : Bool
  hidden : Bool

/-- The length of the common beginning. -/
def commonPrefix (before after : List UInt16) : ℕ :=
  ((before.zip after).takeWhile fun units => units.1 == units.2).length

/-- Both paths, with what differs in focus. -/
def pair (before after : List UInt16) (budget : ℕ) : DisplayPair :=
  let start := commonPrefix before after
  let maximumSuffix := min (before.length - start) (after.length - start)
  let suffix := (((before.reverse.zip after.reverse).take maximumSuffix).takeWhile
    fun units => units.1 == units.2).length
  let left := tokens before
  let right := tokens after
  let elided := budget < cost left || budget < cost right
  let shownBefore := render left start (before.length - suffix) budget
  let shownAfter := render right start (after.length - suffix) budget
  { before := shownBefore
    after := shownAfter
    elided
    hidden := before != after && shownBefore == shownAfter }

/-- A path, with its end in focus. -/
def tail (units : List UInt16) (budget : ℕ) : List Char :=
  render (tokens units) units.length units.length budget

/-! ### Clipping -/

/-- `as_bytes`. -/
def asBytes (text : List Char) : List UInt8 := text.flatMap String.utf8EncodeChar

/-- `is_ascii`. -/
def isAscii (bytes : List UInt8) : Bool := bytes.all (· < 128)

/-- The characters of the first `width` bytes. -/
def takeBytes : ℕ → List Char → List Char
  | _, [] => []
  | width, c :: text => if width = 0 then [] else c :: takeBytes (width - c.utf8Size) text

/-- The bytes of an escape, or of the first character. -/
def clipWidth (rest : List Char) : ℕ :=
  if rest.take 3 = ['[', 'U', '+'] && (asBytes rest)[7]? == some 0x5D &&
      isAscii ((asBytes rest).take 8) then 8
  else
    match rest with
    | [] => 0
    | c :: _ => c.utf8Size

/-- The loop over the pieces of a text, in the room that the ellipsis leaves. -/
def clipLoop (room : ℕ) (rest : List Char) : List Char :=
  match rest with
  | [] => []
  | c :: text =>
    let token := takeBytes (clipWidth (c :: text)) (c :: text)
    if room < utf16Count token then []
    else token ++ clipLoop (room - utf16Count token) ((c :: text).drop (max token.length 1))
termination_by rest.length
decreasing_by
  simp only [List.length_drop, List.length_cons]
  omega

/-- A text within the budget, cut between its pieces. -/
def clipDiagnostic (text : List Char) (budget : ℕ) : List Char :=
  if utf16Count text ≤ budget then text
  else if budget = 0 then []
  else clipLoop (budget - 1) text ++ [ellipsis]

end ConfirmationDisplay

end DarkReNamer
