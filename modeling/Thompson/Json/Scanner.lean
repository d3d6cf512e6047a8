import Thompson.Json.Basic

/-!
# The tokens of a JSON text

A text is cut into tokens by feeding its characters to a scanner one at
a time. Brackets, commas and colons are tokens of their own; a string
runs to its closing quote; every other token is bare, that is, it runs
as far as letters, digits, signs and points do, and what it is worth is
decided when it ends (`ofBare`). Whatever is no token becomes the token
`Json.Token.bad`. Characters come as they are decoded from bytes, so a
`none` stands for bytes that are no character; those are allowed inside
strings only.
-/

namespace Thompson

namespace Json

inductive Token where
  | openArray
  | closeArray
  | openObject
  | closeObject
  | comma
  | colon
  /-- A value without parts: null, a truth value, a number or a string. -/
  | leaf (value : Json)
  | bad

/-! ## Bare tokens -/

/-- Whether digits are the whole part of a number: no zero stands in
front of another digit. -/
def isWhole (digits : List Char) : Bool :=
  match digits with
  | [] => false
  | ['0'] => true
  | d :: _ => d != '0'

/-- Whether a spelling is an exponent, with its sign and digits. -/
def isExponent (spelling : List Char) : Bool :=
  let digits :=
    match spelling with
    | '+' :: rest => rest
    | '-' :: rest => rest
    | rest => rest
  !digits.isEmpty && digits.all Char.isDigit

/-- Whether nothing or an exponent follows. -/
def isEnd : List Char → Bool
  | [] => true
  | 'e' :: rest => isExponent rest
  | 'E' :: rest => isExponent rest
  | _ => false

/-- Whether nothing, a fraction, an exponent or both follow. -/
def isTail : List Char → Bool
  | '.' :: rest => !(rest.takeWhile Char.isDigit).isEmpty && isEnd (rest.dropWhile Char.isDigit)
  | rest => isEnd rest

def isNumber (spelling : List Char) : Bool :=
  let unsigned :=
    match spelling with
    | '-' :: rest => rest
    | rest => rest
  isWhole (unsigned.takeWhile Char.isDigit) && isTail (unsigned.dropWhile Char.isDigit)

def ofBare (spelling : List Char) : Token :=
  if spelling = "null".toList then .leaf .null
  else if spelling = "true".toList then .leaf (.bool true)
  else if spelling = "false".toList then .leaf (.bool false)
  else if isNumber spelling then .leaf (.number spelling)
  else .bad

/-! ## Scanning -/

inductive Escape where
  | plain
  | backslash
  /-- Inside the digits of a code unit: how many are missing, and the
  value of those read. -/
  | digits (missing value : Nat)

/-- Which token the scanner is inside of, with what it has read of it,
the latest first. -/
inductive Partial where
  | outside
  | bare (spelling : List Char)
  | string (glyphs : List Glyph) (escape : Escape)

/-- The tokens read, the latest first, and the one under way. -/
structure Scanner where
  tokens : List Token
  inside : Partial

namespace Scanner

def isBlank (c : Char) : Bool := c == ' ' || c == '\t' || c == '\n' || c == '\r'

def isBare (c : Char) : Bool := c.isAlphanum || c == '-' || c == '+' || c == '.'

def feedOutside (tokens : List Token) : Option Char → Scanner
  | none => ⟨.bad :: tokens, .outside⟩
  | some c =>
    if isBlank c then ⟨tokens, .outside⟩
    else if isBare c then ⟨tokens, .bare [c]⟩
    else
      match c with
      | '[' => ⟨.openArray :: tokens, .outside⟩
      | ']' => ⟨.closeArray :: tokens, .outside⟩
      | '{' => ⟨.openObject :: tokens, .outside⟩
      | '}' => ⟨.closeObject :: tokens, .outside⟩
      | ',' => ⟨.comma :: tokens, .outside⟩
      | ':' => ⟨.colon :: tokens, .outside⟩
      | '"' => ⟨tokens, .string [] .plain⟩
      | _ => ⟨.bad :: tokens, .outside⟩

/-- The character that a backslash and one more character stand for. -/
def unescape? : Char → Option Char
  | '"' => some '"'
  | '\\' => some '\\'
  | '/' => some '/'
  | 'b' => some '\x08'
  | 'f' => some '\x0c'
  | 'n' => some '\n'
  | 'r' => some '\r'
  | 't' => some '\t'
  | _ => none

def hexValue? (c : Char) : Option Nat :=
  if '0' ≤ c ∧ c ≤ '9' then some (c.toNat - '0'.toNat)
  else if 'a' ≤ c ∧ c ≤ 'f' then some (c.toNat - 'a'.toNat + 10)
  else if 'A' ≤ c ∧ c ≤ 'F' then some (c.toNat - 'A'.toNat + 10)
  else none

def feedString (tokens : List Token) (glyphs : List Glyph) : Escape → Option Char → Scanner
  | .plain, none => ⟨tokens, .string (.invalid :: glyphs) .plain⟩
  | .plain, some c =>
    if c = '"' then ⟨.leaf (.string glyphs.reverse) :: tokens, .outside⟩
    else if c = '\\' then ⟨tokens, .string glyphs .backslash⟩
    else if c.toNat < 0x20 then ⟨.bad :: tokens, .outside⟩
    else ⟨tokens, .string (.char c :: glyphs) .plain⟩
  | .backslash, some 'u' => ⟨tokens, .string glyphs (.digits 4 0)⟩
  | .backslash, some c =>
    match unescape? c with
    | some d => ⟨tokens, .string (.char d :: glyphs) .plain⟩
    | none => ⟨.bad :: tokens, .outside⟩
  | .digits missing value, some c =>
    match hexValue? c with
    | some d =>
      let value := value * 16 + d
      if missing ≤ 1 then ⟨tokens, .string (.unit value :: glyphs) .plain⟩
      else ⟨tokens, .string glyphs (.digits (missing - 1) value)⟩
    | none => ⟨.bad :: tokens, .outside⟩
  | _, none => ⟨.bad :: tokens, .outside⟩

def feed (s : Scanner) (c : Option Char) : Scanner :=
  match s.inside with
  | .outside => feedOutside s.tokens c
  | .bare spelling =>
    match c with
    | some d =>
      if isBare d then ⟨s.tokens, .bare (d :: spelling)⟩
      else feedOutside (ofBare spelling.reverse :: s.tokens) c
    | none => feedOutside (ofBare spelling.reverse :: s.tokens) c
  | .string glyphs escape => feedString s.tokens glyphs escape c

/-- The tokens of a text that ends here. -/
def finish (s : Scanner) : List Token :=
  match s.inside with
  | .outside => s.tokens.reverse
  | .bare spelling => (ofBare spelling.reverse :: s.tokens).reverse
  | .string _ _ => (.bad :: s.tokens).reverse

end Scanner

def tokens (text : List (Option Char)) : List Token :=
  (text.foldl Scanner.feed ⟨[], .outside⟩).finish

end Json

end Thompson
