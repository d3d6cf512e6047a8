import Thompson.Drawing.Dot

/-!
# What a drawing shows

An automaton is drawn as text in two ways, in the DOT language and for
Graphviz. Either text is a heading, statements about nodes and edges,
and a closing brace; a `Dialect` holds what the two write differently.
`Dialect.read?` gives the statements of a text back.

The label of an edge may be a line break, a bracket or a brace, so a
text cannot be cut into lines before it is read: where a statement ends
is known only once all of it has been read.
-/

namespace Thompson

/-- An edge as a drawing shows it, its label as text. -/
structure DrawnEdge where
  source : Nat
  label : String
  target : Nat
  deriving DecidableEq

def DrawnEdge.ends (e : DrawnEdge) : Nat × Nat := (e.source, e.target)

def Edge.drawn (e : Edge) : DrawnEdge := ⟨e.source, e.label.text, e.target⟩

/-- The transitions of each state in turn, as a drawing shows them. -/
def Automaton.drawnEdges (a : Automaton) : List DrawnEdge :=
  (List.range a.size).flatMap fun i => (a.transitions i).map fun t => ⟨i, t.1.text, t.2⟩

namespace Drawing

inductive Statement where
  /-- A node with what tells it from others, a shape or a label. -/
  | node (name : Nat) (mark : String)
  | edge (e : DrawnEdge)
  deriving DecidableEq

def Statement.node? : Statement → Option (Nat × String)
  | .node name mark => some (name, mark)
  | .edge _ => none

def Statement.edge? : Statement → Option DrawnEdge
  | .node .. => none
  | .edge e => some e

/-! ## Parts of a statement

A reader takes what it reads off the front of a text and returns it with
the rest. -/

abbrev Reader (α : Type) := List Char → Option (α × List Char)

/-- What is left behind a word that the text begins with. -/
def behind? (word : String) (text : List Char) : Option (List Char) :=
  word.toList.isPrefixOf? text

def readNumber : Reader Nat := fun text =>
  let digits := text.takeWhile Char.isDigit
  if digits.isEmpty then none
  else some (Nat.ofDigitChars 10 digits 0, text.dropWhile Char.isDigit)

/-- The character that is written as a backslash and `c`. -/
def unescape? (c : Char) : Option Char :=
  if c = 'l' then some '\n' else if c = '"' ∨ c = '\\' then some c else none

/-- Read a label up to the quote that ends it. -/
def readQuoted : Reader (List Char)
  | [] => none
  | '"' :: rest => some ([], rest)
  | '\\' :: c :: rest => do
    let c ← unescape? c
    let (label, rest) ← readQuoted rest
    return (c :: label, rest)
  | c :: rest => do
    let (label, rest) ← readQuoted rest
    return (c :: label, rest)

/-! ## Dialects -/

/-- What two drawings write differently. -/
structure Dialect where
  heading : String
  /-- What stands in front of the number of a node. -/
  lead : String
  readMark : Reader String
  readLabel : Reader String

namespace Dialect

/-- The shape of a node. -/
def readShape : Reader String := fun text =>
  match behind? " [shape = box];\n" text with
  | some rest => some ("box", rest)
  | none => do return ("doublecircle", ← behind? " [shape = doublecircle];\n" text)

/-- A label that is not quoted: the one character at its place, whatever
it is. -/
def readBareLabel : Reader String := fun text => do
  match ← behind? " [label=" text with
  | [] => none
  | c :: rest => return (c.toString, ← behind? "];\n" rest)

def dot : Dialect where
  heading := "digraph G \x7b\n"
  lead := "q"
  readMark := readShape
  readLabel := readBareLabel

def readQuotedLabel : Reader String := fun text => do
  let (label, rest) ← readQuoted (← behind? " [ label = \"" text)
  return (String.ofList label, ← behind? " ]\n" rest)

def graphviz : Dialect where
  heading := "digraph \x7b\n"
  lead := ""
  readMark := readQuotedLabel
  readLabel := readQuotedLabel

/-! ## Whole drawings -/

variable (d : Dialect)

def readName : Reader Nat := fun text => do readNumber (← behind? d.lead text)

def readStatement : Reader Statement := fun text => do
  let (source, rest) ← readName d (← behind? "    " text)
  match behind? " -> " rest with
  | some rest =>
    let (target, rest) ← readName d rest
    let (label, rest) ← d.readLabel rest
    return (.edge ⟨source, label, target⟩, rest)
  | none =>
    let (mark, rest) ← d.readMark rest
    return (.node source mark, rest)

/-- Read statements up to the closing brace, behind which nothing
follows. -/
def readStatements (text : List Char) : Option (List Statement) :=
  if text = "\x7d\n".toList then some []
  else
    match readStatement d text with
    | none => none
    | some (statement, rest) =>
      if rest.length < text.length then (readStatements rest).map (statement :: ·) else none
termination_by text.length

/-- The statements of a drawing, in order. -/
def read? (text : String) : Option (List Statement) := do
  readStatements d (← behind? d.heading text.toList)

/-- The nodes that a drawing marks, in order, with their marks. -/
def nodes? (text : String) : Option (List (Nat × String)) :=
  (read? d text).map (List.filterMap Statement.node?)

/-- The edges that a drawing shows, in order. -/
def edges? (text : String) : Option (List DrawnEdge) :=
  (read? d text).map (List.filterMap Statement.edge?)

end Dialect

end Drawing

end Thompson
