import Thompson.Text.Hidden

/-!
# Quoted text

A text between quotes, with every character that would not show as
itself replaced by an escape: the delimiter and the backslash by a
backslash in front, the common control characters by a letter, and all
other hidden characters (`isHidden`) by their code point in hexadecimal.
A quoted text is one line, whatever it quotes.
-/

namespace Thompson

namespace Quoted

/-- The digits of a number in base sixteen, lower case. -/
def hex (n : Nat) : List Char := Nat.toDigits 16 n

/-- How a character is written between two delimiters. -/
def escape (delimiter : Char) (c : Char) : List Char :=
  if c = '\x00' then ['\\', '0']
  else if c = '\t' then ['\\', 't']
  else if c = '\r' then ['\\', 'r']
  else if c = '\n' then ['\\', 'n']
  else if c = '\\' ∨ c = delimiter then ['\\', c]
  else if isHidden c then ['\\', 'u', '{'] ++ hex c.toNat ++ ['}']
  else [c]

def text (s : String) : String :=
  String.ofList (['"'] ++ s.toList.flatMap (escape '"') ++ ['"'])

def char (c : Char) : String :=
  String.ofList (['\''] ++ escape '\'' c ++ ['\''])

end Quoted

end Thompson
