/-!
# Tokens of a pattern

A pattern is written with ASCII letters, the union bar and the star.
`tokenize` splits its text into tokens and makes concatenation visible:
between two neighbouring letters it puts a token of its own kind, so
that a reader of tokens never has to guess. Which tokens a character
gives depends on that character and the one before it only
(`tokensAt`), so the tokens of a text are one pass over its pairs of
neighbours (`spell`).

The same tokens are given by a loop that remembers no character
(`Token.emitAll`): it marks a concatenation in front of a letter if the
latest token it has emitted is a symbol. That the two agree is proved in
`Thompson.Proofs.Marking`.

`PatternError` lists every reason for which the text of a pattern is
refused, with the wording of each.
-/

namespace Thompson

/-! ## Tokens -/

inductive TokenKind where
  | symbol
  | union
  | concat
  | star
  | endOfInput
  deriving DecidableEq

/-- A token with the character it stands for. Any kind may carry any
character: what a reader makes of a token depends on the kind, and the
character counts for symbols only. -/
structure Token where
  kind : TokenKind
  value : Char
  deriving DecidableEq

namespace Token

def symbol (c : Char) : Token := ⟨.symbol, c⟩

def union : Token := ⟨.union, '|'⟩

/-- No character of the text stands for a concatenation, so the token
carries a middle dot that no pattern can contain. -/
def concat : Token := ⟨.concat, '・'⟩

def star : Token := ⟨.star, '*'⟩

def endOfInput : Token := ⟨.endOfInput, '\x00'⟩

/-- The wording of a token in messages: only a symbol shows its
character. -/
def describe (t : Token) : String :=
  match t.kind with
  | .symbol => "symbol '" ++ t.value.toString ++ "'"
  | .union => "union '|'"
  | .concat => "concatenation"
  | .star => "star '*'"
  | .endOfInput => "end of input"

end Token

/-! ## Refused patterns -/

/-- Why the text of a pattern, or a list of tokens, is refused. -/
inductive PatternError where
  /-- A character that no pattern contains, and how many characters
  stand before it. -/
  | invalidCharacter (c : Char) (offset : Nat)
  /-- A token where an operand had to stand, and how many tokens stand
  before it. -/
  | unexpectedToken (token : Token) (index : Nat)
  | missingOperand
  deriving DecidableEq

def PatternError.message : PatternError → String
  | .invalidCharacter c offset =>
    "Error: Unexpected input character '" ++ c.toString ++ "' at position " ++ toString offset
  | .unexpectedToken token index =>
    "Error: Unexpected " ++ token.describe ++ " at token " ++ toString index
  | .missingOperand => "Error: Expected a symbol but reached the end of the regex"

/-! ## From text to tokens -/

/-- The ASCII letters are the symbols that a pattern can name. -/
def isLetter (c : Char) : Bool := c.isAlpha

def isPatternChar (c : Char) : Bool := isLetter c || c == '|' || c == '*'

def tokenOf (c : Char) : Token :=
  if isLetter c then .symbol c else if c = '|' then .union else .star

/-- The tokens that `c` adds when `before` is the character in front of
it: two neighbouring letters are concatenated. -/
def tokensAt (before : Option Char) (c : Char) : List Token :=
  if before.any isLetter && isLetter c then [.concat, tokenOf c] else [tokenOf c]

/-- The tokens of pattern characters that follow `before`. -/
def spell (before : Option Char) (text : List Char) : List Token :=
  (List.zipWith tokensAt (before :: text.map some) text).flatten

@[simp] theorem spell_nil (before : Option Char) : spell before [] = [] := rfl

@[simp] theorem spell_cons (before : Option Char) (c : Char) (text : List Char) :
    spell before (c :: text) = tokensAt before c ++ spell (some c) text := rfl

/-- Split a pattern into tokens, closed by one end of input. The first
character that is no part of any pattern refuses the whole text. -/
def tokenize (pattern : String) : Except PatternError (List Token) :=
  let text := pattern.toList
  match text.zipIdx.find? fun (c, _) => !isPatternChar c with
  | some (c, offset) => .error (.invalidCharacter c offset)
  | none => .ok (spell none text ++ [.endOfInput])

/-! ## Tokens by looking back -/

namespace Token

/-- Whether the latest token is a symbol. -/
def endsInSymbol (emitted : List Token) : Bool := emitted.getLast?.any fun t => t.kind = .symbol

/-- The tokens once `c` has been read as well; `none` if it is no
character of a pattern. -/
def emit? (emitted : List Token) (c : Char) : Option (List Token) :=
  if isLetter c then
    let marked := if endsInSymbol emitted then emitted ++ [.concat] else emitted
    some (marked ++ [.symbol c])
  else if c = '|' then some (emitted ++ [.union])
  else if c = '*' then some (emitted ++ [.star])
  else none

/-- Read the rest of a text, in front of which `offset` characters stand,
up to the first character that is none of a pattern. -/
def emitAll (emitted : List Token) (offset : Nat) : List Char → Except PatternError (List Token)
  | [] => .ok (emitted ++ [.endOfInput])
  | c :: text =>
    match emit? emitted c with
    | some emitted => emitAll emitted (offset + 1) text
    | none => .error (.invalidCharacter c offset)

end Token

end Thompson
