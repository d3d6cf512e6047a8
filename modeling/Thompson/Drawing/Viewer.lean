import Thompson.Automaton.Basic

/-!
# The graph shown on screen

The viewer draws at most one edge between an ordered pair of states, so
transitions that run in parallel share an edge and are listed in its
label. Edges stand in the order in which their pair is first met when
the transitions are walked state by state; the labels on an edge stand
in the order of the transitions.
-/

namespace Thompson

namespace Viewer

structure Colour where
  red : Nat
  green : Nat
  blue : Nat
  deriving DecidableEq

/-- A node with its colour, if it is drawn in other than the usual one. -/
structure Node where
  label : String
  colour : Option Colour
  deriving DecidableEq

/-- An edge with the labels of the transitions that share it. -/
structure Arrow where
  source : Nat
  target : Nat
  labels : List Label
  deriving DecidableEq

structure Graph where
  nodes : List Node
  arrows : List Arrow
  deriving DecidableEq

def Arrow.text (e : Arrow) : String := ", ".intercalate (e.labels.map Label.text)

def startColour : Colour := ⟨20, 67, 130⟩

def acceptColour : Colour := ⟨20, 130, 90⟩

/-- The node of a state. A start state that accepts says both and has the
colour of the start. -/
def nodeOf (start accepting : Bool) (i : Nat) : Node :=
  let mark :=
    match start, accepting with
    | true, true => "Start/Accept "
    | true, false => "Start "
    | false, true => "Accept "
    | false, false => "State "
  let colour :=
    if start then some startColour
    else if accepting then some acceptColour
    else none
  { label := mark ++ toString i, colour }

/-- The node of the state at a place. -/
def node (a : Automaton) (i : Nat) : Node := nodeOf (i = a.start) (a.accepting.contains i) i

/-- Put a transition from `source` on the edge to its target, which is
added at the end if there is none yet. -/
def join (source : Nat) (arrows : List Arrow) (transition : Label × Nat) : List Arrow :=
  match arrows with
  | [] => [⟨source, transition.2, [transition.1]⟩]
  | e :: rest =>
    if e.target = transition.2 then { e with labels := e.labels ++ [transition.1] } :: rest
    else e :: join source rest transition

def arrowsFrom (a : Automaton) (i : Nat) : List Arrow := (a.transitions i).foldl (join i) []

def graph (a : Automaton) : Graph where
  nodes := (List.range a.size).map (node a)
  arrows := (List.range a.size).flatMap (arrowsFrom a)

end Viewer

end Thompson
