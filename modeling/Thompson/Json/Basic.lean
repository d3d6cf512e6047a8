/-!
# JSON values

A JSON value as a text spells it. Numbers keep their digits and strings
keep their escapes of code units, since what a spelling is worth is
decided by whoever asks for a number (`Json.natural?`) or for a text
(`Json.text?`); a value nobody asks for only has to be spelled
correctly.

A text that stops being JSON at some point still has a value up to that
point: `Json.broken` stands where it went wrong and is the last leaf of
the value. So a reader that walks a value in the order of the text meets
every mistake of content in front of the mistake of form.
-/

namespace Thompson

/-- One sign of a string. -/
inductive Glyph where
  | char (c : Char)
  /-- A code unit written as four hexadecimal digits. -/
  | unit (value : Nat)
  | invalid
  deriving DecidableEq

inductive Json where
  | null
  | bool (b : Bool)
  | number (spelling : List Char)
  | string (glyphs : List Glyph)
  | array (items : List Json)
  | object (members : List (List Glyph × Json))
  | broken

/-! ## Texts -/

namespace Glyph

def isHighSurrogate (unit : Nat) : Bool := 0xD800 ≤ unit && unit < 0xDC00

def isLowSurrogate (unit : Nat) : Bool := 0xDC00 ≤ unit && unit < 0xE000

/-- The character of a pair of surrogates. -/
def pair (high low : Nat) : Char :=
  Char.ofNat (0x10000 + (high - 0xD800) * 0x400 + (low - 0xDC00))

/-- Put the characters of some glyphs behind those read, the latest
first; `none` if a surrogate stands alone or bytes are no character. -/
def textOnto : List Glyph → List Char → Option (List Char)
  | [], read => some read
  | .char c :: rest, read => textOnto rest (c :: read)
  | .invalid :: _, _ => none
  | .unit high :: .unit low :: rest, read =>
    if isHighSurrogate high then
      if isLowSurrogate low then textOnto rest (pair high low :: read) else none
    else if isLowSurrogate high then none
    else textOnto (.unit low :: rest) (Char.ofNat high :: read)
  | .unit value :: rest, read =>
    if isHighSurrogate value || isLowSurrogate value then none
    else textOnto rest (Char.ofNat value :: read)

/-- The text that glyphs spell, if they spell one. -/
def text? (glyphs : List Glyph) : Option String :=
  (textOnto glyphs []).map fun read => String.ofList read.reverse

/-- A text as glyphs, one for each character. -/
def ofText (text : String) : List Glyph := text.toList.map .char

end Glyph

namespace Json

/-! ## Plain values -/

def text? : Json → Option String
  | .string glyphs => Glyph.text? glyphs
  | _ => none

/-- The value of a number that is spelled with digits only. -/
def natural? : Json → Option Nat
  | .number spelling =>
    if spelling.all Char.isDigit then some (Nat.ofDigitChars 10 spelling 0) else none
  | _ => none

def ofText (text : String) : Json := .string (Glyph.ofText text)

def ofNat (n : Nat) : Json := .number (Nat.toDigits 10 n)

def record (fields : List (String × Json)) : Json :=
  .object (fields.map fun (name, value) => (Glyph.ofText name, value))

/-! ## Intact values -/

theorem sizeOf_item_lt {item : Json} {items : List Json} (h : item ∈ items) :
    sizeOf item < sizeOf (Json.array items) := by
  have := List.sizeOf_lt_of_mem h
  simp
  omega

theorem sizeOf_member_lt {m : List Glyph × Json} {members : List (List Glyph × Json)}
    (h : m ∈ members) : sizeOf m.2 < sizeOf (Json.object members) := by
  have := List.sizeOf_lt_of_mem h
  obtain ⟨key, value⟩ := m
  simp at this ⊢
  omega

/-- Whether nothing went wrong inside a value. -/
def intact : Json → Bool
  | .broken => false
  | .array items => (items.map fun item => item.intact).all id
  | .object members => (members.map fun m => m.2.intact).all id
  | _ => true
termination_by j => j
decreasing_by
  · exact sizeOf_item_lt ‹_›
  · exact sizeOf_member_lt ‹_›

end Json

end Thompson
