import Thompson.Json.Basic

/-!
# Printing JSON

Values are printed over several lines: two spaces for each level of
nesting, one item or member on each line, a space behind the colon, and
an empty array or object as a pair of brackets. Inside a string the
quote, the backslash and the control characters are escaped, the latter
by a letter where there is one and by their code otherwise; all other
characters stand for themselves.
-/

namespace Thompson

namespace Json

/-! ## Strings -/

/-- Four hexadecimal digits, lower case. -/
def hex4 (n : Nat) : List Char :=
  [n / 0x1000 % 16, n / 0x100 % 16, n / 0x10 % 16, n % 16].map Nat.digitChar

def escape (c : Char) : List Char :=
  if c = '"' then ['\\', '"']
  else if c = '\\' then ['\\', '\\']
  else if c = '\x08' then ['\\', 'b']
  else if c = '\t' then ['\\', 't']
  else if c = '\n' then ['\\', 'n']
  else if c = '\x0c' then ['\\', 'f']
  else if c = '\r' then ['\\', 'r']
  else if c.toNat < 0x20 then ['\\', 'u'] ++ hex4 c.toNat
  else [c]

/-- How a glyph is written. Bytes that are no character cannot be
written and leave nothing. -/
def escapeGlyph : Glyph → List Char
  | .char c => escape c
  | .unit value => ['\\', 'u'] ++ hex4 value
  | .invalid => []

def quote (glyphs : List Glyph) : List Char := ['"'] ++ glyphs.flatMap escapeGlyph ++ ['"']

/-! ## Values -/

def indent (depth : Nat) : List Char := List.replicate (2 * depth) ' '

/-- The lines of a container whose content is indented by `depth`, with
commas between them. -/
def lines (depth : Nat) (contents : List (List Char)) : List Char :=
  List.intercalate [',', '\n'] (contents.map fun content => indent depth ++ content)

/-- A value as it is printed at some depth, the first line not
indented. A broken value leaves nothing. -/
def pretty (depth : Nat) : Json → List Char
  | .null => "null".toList
  | .bool true => "true".toList
  | .bool false => "false".toList
  | .number spelling => spelling
  | .string glyphs => quote glyphs
  | .array [] => ['[', ']']
  | .array items =>
    ['[', '\n'] ++ lines (depth + 1) (items.map fun item => item.pretty (depth + 1)) ++
      ['\n'] ++ indent depth ++ [']']
  | .object [] => ['{', '}']
  | .object members =>
    ['{', '\n'] ++
      lines (depth + 1)
        (members.map fun m => quote m.1 ++ [':', ' '] ++ m.2.pretty (depth + 1)) ++
      ['\n'] ++ indent depth ++ ['}']
  | .broken => []
termination_by j => j
decreasing_by
  · exact sizeOf_item_lt ‹_›
  · exact sizeOf_member_lt ‹_›

def print (j : Json) : String := String.ofList (j.pretty 0)

end Json

end Thompson
