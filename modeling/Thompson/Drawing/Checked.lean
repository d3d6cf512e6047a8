import Thompson.Automaton.Checked
import Thompson.Drawing.Dot
import Thompson.Drawing.Viewer

/-!
# Drawing an automaton with checked accesses

The drawings once more, with accesses that give `none` when a number is
out of range. The graph for Graphviz asks for the accept flag of every
state but the start state, by the number that the state goes by, and for
the nodes at both ends of a transition. The viewer asks for the accept
flag at every place, and an edge can be added between nodes of the graph
only.
-/

namespace Thompson

/-! ## Graphviz -/

namespace Graphviz

def stateLabel? (a : Automaton) (s : State) : Option String := do
  let mark ←
    if s.id = a.start then some "Start\n"
    else (a.accepting.at? s.id).map fun accepting => if accepting then "Accept\n" else ""
  return mark ++ "State " ++ toString s.id

def nodeLine? (a : Automaton) (s : State) (place : Nat) : Option String := do
  let label ← stateLabel? a s
  return "    " ++ toString place ++ attributes label

/-- The line of an edge, its ends looked up among the nodes. -/
def edgeLine? (nodes : Array Nat) (e : Edge) : Option String := do
  let source ← nodes[e.source]?
  let target ← nodes[e.target]?
  return edgeLine ⟨source, e.label, target⟩

/-- A node goes by its place, so the nodes in order are the first
numbers. -/
def graph? (a : Automaton) : Option String := do
  let nodeLines ← a.states.toList.zipIdx.mapM fun x => nodeLine? a x.1 x.2
  let edgeLines ← a.edges.mapM (edgeLine? (Array.range a.size))
  return "digraph \x7b\n" ++ String.join nodeLines ++ String.join edgeLines ++ "\x7d\n"

end Graphviz

/-! ## The viewer -/

namespace Viewer

def node? (a : Automaton) (i : Nat) : Option Node := do
  let accepting ← a.accepting.at? i
  return nodeOf (i = a.start) accepting i

/-- Put a transition on its edge, which is added if there is none yet
and both its ends are among the first `size` nodes. -/
def join? (size source : Nat) (arrows : List Arrow) (transition : Label × Nat) :
    Option (List Arrow) :=
  match arrows with
  | [] =>
    if source < size ∧ transition.2 < size then
      some [⟨source, transition.2, [transition.1]⟩]
    else none
  | e :: rest =>
    if e.target = transition.2 then some ({ e with labels := e.labels ++ [transition.1] } :: rest)
    else (join? size source rest transition).map (e :: ·)

def arrowsFrom? (a : Automaton) (i : Nat) : Option (List Arrow) :=
  (a.transitions i).foldlM (join? a.size i) []

def graph? (a : Automaton) : Option Graph := do
  let nodes ← (List.range a.size).mapM (node? a)
  let arrows ← (List.range a.size).mapM (arrowsFrom? a)
  return { nodes, arrows := arrows.flatten }

end Viewer

end Thompson
