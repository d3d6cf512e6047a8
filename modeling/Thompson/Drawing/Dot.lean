import Thompson.Automaton.Basic

/-!
# Drawings as text

An automaton is drawn as text in two ways. `Automaton.dot` writes it for
a reader of the DOT graph language: a box for the start state, a double
circle for each accept state in ascending order, and one line for each
transition in the order of `Automaton.edges`. Labels stand in the text
as they are.

`Graphviz.graph` is the graph that is rendered to a picture: one node
for each state, with a label of two lines for the start state and the
accept states, and one edge for each transition. A label stands between
double quotes, so a quote and a backslash in it are escaped, and a line
break is written as the escape that ends a left-justified line.
-/

namespace Thompson

/-! ## The DOT language -/

namespace Automaton

def dotName (i : Nat) : String := "q" ++ toString i

def dotNode (i : Nat) (shape : String) : String :=
  "    " ++ dotName i ++ " [shape = " ++ shape ++ "];\n"

def dotEdge (e : Edge) : String :=
  "    " ++ dotName e.source ++ " -> " ++ dotName e.target ++ " [label=" ++ e.label.text ++ "];\n"

def dot (a : Automaton) : String :=
  "digraph G \x7b\n" ++ dotNode a.start "box" ++
    String.join (a.accepting.toList.map fun i => dotNode i "doublecircle") ++
    String.join (a.edges.map dotEdge) ++ "\x7d\n"

end Automaton

/-! ## The drawing handed to Graphviz -/

namespace Graphviz

/-- How a character of a label is written between the quotes. -/
def escape (c : Char) : List Char :=
  if c = '"' ∨ c = '\\' then ['\\', c]
  else if c = '\n' then ['\\', 'l']
  else [c]

def quote (label : String) : String :=
  String.ofList (['"'] ++ label.toList.flatMap escape ++ ['"'])

def attributes (label : String) : String := " [ label = " ++ quote label ++ " ]\n"

/-- The label of a state: the start state is marked as that even if it
accepts. -/
def stateLabel (a : Automaton) (s : State) : String :=
  let mark :=
    if s.id = a.start then "Start\n" else if a.accepting.contains s.id then "Accept\n" else ""
  mark ++ "State " ++ toString s.id

def nodeLine (a : Automaton) (s : State) (place : Nat) : String :=
  "    " ++ toString place ++ attributes (stateLabel a s)

def edgeLine (e : Edge) : String :=
  "    " ++ toString e.source ++ " -> " ++ toString e.target ++ attributes e.label.text

def graph (a : Automaton) : String :=
  "digraph \x7b\n" ++
    String.join (a.states.toList.zipIdx.map fun (s, place) => nodeLine a s place) ++
    String.join (a.edges.map edgeLine) ++ "\x7d\n"

end Graphviz

end Thompson
