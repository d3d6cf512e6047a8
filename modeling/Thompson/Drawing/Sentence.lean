import Thompson.State

/-!
# Sentences of the DOT language

What a reader of the DOT language takes for a graph, as far as drawings
need it: a heading, statements that give nodes a shape, statements that
draw an edge with a label, and a closing brace, with blanks between them.
A label is an identifier, that is, a name, a numeral, or any text between
quotes in which every quote has a backslash in front of it.
-/

namespace Thompson

namespace Drawing

/-! ## Identifiers -/

/-- The characters that a name begins with: ASCII letters, the underscore
and whatever is not ASCII. -/
def isNameStart (c : Char) : Bool := c.isAlpha || c == '_' || 0x80 ≤ c.toNat

def isNameChar (c : Char) : Bool := isNameStart c || c.isDigit

def Digits (word : List Char) : Prop := ∀ c ∈ word, c.isDigit = true

/-- A sign, digits, and a point with digits, each of which may be left
out as long as there is a digit. -/
structure Numeral (word : List Char) : Prop where
  parts : ∃ sign whole fraction, word = sign ++ (whole ++ fraction) ∧
    (sign = [] ∨ sign = ['-']) ∧ Digits whole ∧
    (fraction = [] ∨ ∃ digits, fraction = '.' :: digits ∧ Digits digits)
  digit : ∃ c ∈ word, c.isDigit = true

/-- A text in which a backslash takes the character behind it along, and
no quote stands without one. -/
inductive Escaped : List Char → Prop where
  | nil : Escaped []
  | plain {c : Char} {rest : List Char} :
      c ≠ '"' → c ≠ '\\' → Escaped rest → Escaped (c :: rest)
  | escape {c : Char} {rest : List Char} : Escaped rest → Escaped ('\\' :: c :: rest)

inductive Identifier : List Char → Prop where
  | name {c : Char} {rest : List Char} :
      isNameStart c = true → (∀ d ∈ rest, isNameChar d = true) → Identifier (c :: rest)
  | numeral {word : List Char} : Numeral word → Identifier word
  | quoted {inner : List Char} : Escaped inner → Identifier ('"' :: (inner ++ ['"']))

/-! ## Statements -/

/-- The number behind the letter that names a state. -/
def Number (digits : List Char) : Prop := digits ≠ [] ∧ Digits digits

inductive NodeStatement : List Char → Prop where
  | shaped {name : List Char} {shape : String} :
      Number name → shape = "box" ∨ shape = "doublecircle" →
      NodeStatement ('q' :: (name ++ (" [shape = ".toList ++ (shape.toList ++ "];".toList))))

inductive EdgeStatement : List Char → Prop where
  | labelled {source target label : List Char} :
      Number source → Number target → Identifier label →
      EdgeStatement ('q' :: (source ++ (" -> q".toList ++ (target ++
        (" [label=".toList ++ (label ++ "];".toList))))))

/-! ## Whole sentences -/

def Blank (text : List Char) : Prop := ∀ c ∈ text, c.isWhitespace = true

instance (text : List Char) : Decidable (Blank text) :=
  List.decidableBAll (fun c : Char => c.isWhitespace = true) text

/-- Parts of a text in order, with blanks in front of each and at the
end. -/
inductive Spaced : List (List Char) → List Char → Prop where
  | nil {blank : List Char} : Blank blank → Spaced [] blank
  | cons {blank part rest : List Char} {parts : List (List Char)} :
      Blank blank → Spaced parts rest → Spaced (part :: parts) (blank ++ (part ++ rest))

/-- A graph: first its nodes, then its edges. -/
def Sentence (text : String) : Prop :=
  ∃ nodes edges, (∀ part ∈ nodes, NodeStatement part) ∧ (∀ part ∈ edges, EdgeStatement part) ∧
    Spaced ("digraph G \x7b".toList :: (nodes ++ edges ++ ["\x7d".toList])) text.toList

end Drawing

/-- Whether a label is an identifier as it stands, without quotes around
it. -/
def Label.Bare (l : Label) : Prop := ∀ c ∈ l.text.toList, Drawing.isNameChar c = true

/-- Edges whose labels can stand in a drawing as they are. Each label is
bare, except that a label that is a quote opens a text, which goes on to
the next label that is a quote; the labels between the two are no labels
any more. -/
inductive Drawing.Paired : List Edge → Prop where
  | nil : Paired []
  | bare {e : Edge} {edges : List Edge} : e.label.Bare → Paired edges → Paired (e :: edges)
  | quotes {opening closing : Edge} {inner edges : List Edge} :
      opening.label = .char '"' → (∀ e ∈ inner, e.label ≠ .char '"') →
      closing.label = .char '"' → Paired edges → Paired (opening :: (inner ++ closing :: edges))

end Thompson
