import Thompson.Automaton.Basic
import Thompson.Event

/-!
# Fragments and the states they share

A `Builder` holds all states of a construction and refers to them by
number. A fragment is a view of a builder: the states that belong to it,
the one it starts in and those it accepts in. Each rule below joins the
fragments of the operands of a node to the fragment of the node. Joining
adds states and epsilon transitions and never removes or renumbers
anything, so a fragment stays valid while the builder grows.
-/

namespace Thompson

structure Fragment where
  states : Array Nat
  start : Nat
  accepts : Array Nat
  deriving DecidableEq

/-- The states made so far and the characters on their transitions. -/
structure Builder where
  states : Array State
  alphabet : Alphabet

namespace Builder

/-- A builder that has made no state. -/
def fresh : Builder := ⟨#[], .empty⟩

def size (b : Builder) : Nat := b.states.size

/-- Make one more state, without transitions; its number is the size. -/
def addState (b : Builder) : Builder :=
  { b with states := b.states.push ⟨b.states.size, .empty⟩ }

def connect (b : Builder) (source : Nat) (label : Label) (target : Nat) : Builder :=
  { b with
    states := b.states.modify source fun s =>
      { s with transitions := s.transitions.add label target } }

/-- Add an epsilon transition from each of some states to `target`. -/
def connectAll (b : Builder) (sources : Array Nat) (target : Nat) : Builder :=
  sources.foldl (fun b source => b.connect source .epsilon target) b

def addLetter (b : Builder) (c : Char) : Builder :=
  { b with alphabet := b.alphabet.insert c }

/-! ## The rule of each node -/

/-- One character: two new states with a transition between them. -/
def symbolFragment (b : Builder) (c : Char) : Builder × Fragment :=
  let start := b.size
  let stop := start + 1
  ((b.addState.addState.addLetter c).connect start (.char c) stop,
    { states := #[start, stop], start, accepts := #[stop] })

/-- Union: a new start state leads to both operands, and each operand
accepts as before. -/
def unionFragment (b : Builder) (lhs rhs : Fragment) : Builder × Fragment :=
  let start := b.size
  (((b.addState).connect start .epsilon lhs.start).connect start .epsilon rhs.start,
    { states := #[start] ++ lhs.states ++ rhs.states
      start
      accepts := lhs.accepts ++ rhs.accepts })

/-- Concatenation: the accept states of the left operand lead to the
right one and accept no longer. -/
def concatFragment (b : Builder) (lhs rhs : Fragment) : Builder × Fragment :=
  (b.connectAll lhs.accepts rhs.start,
    { states := lhs.states ++ rhs.states, start := lhs.start, accepts := rhs.accepts })

/-- Star: a new start state leads to the operand and accepts as well,
which allows for no repetition at all; the accept states of the operand
lead back to its start. -/
def starFragment (b : Builder) (operand : Fragment) : Builder × Fragment :=
  let start := b.size
  (((b.addState).connect start .epsilon operand.start).connectAll operand.accepts operand.start,
    { states := operand.states.push start, start, accepts := operand.accepts.push start })

/-- The automaton that has every state made so far and matches what the
fragment does. -/
def finish (b : Builder) (f : Fragment) (regex : String) : Automaton where
  states := b.states
  start := f.start
  accepting := (StateSet.empty b.size).insertAll f.accepts.toList
  alphabet := b.alphabet
  regex

end Builder

/-- What is reported once a node has its fragment. -/
def Fragment.event (f : Fragment) (node : Pattern.Node) : Event :=
  .built node f.start f.accepts.size f.states.size

end Thompson
