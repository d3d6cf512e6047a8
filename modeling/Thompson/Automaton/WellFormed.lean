import Thompson.Automaton.Basic

/-!
# Well-formed automata

An automaton is well formed if its start state exists, if every state
has one accept flag and goes by the number of its place, if every
transition leads to a state, and if its alphabet is the set of
characters on its transitions. `Automaton.defect?` finds the first
reason for which an automaton read from a file is none of these, the
alphabet apart, which a reader derives anew.
-/

namespace Thompson

/-- A reason for which states, start and accept flags make no automaton. -/
inductive Defect where
  | missingStart (start states : Nat)
  | flagCount (flags states : Nat)
  | misplacedState (id place : Nat)
  | missingTarget (state : Nat) (label : Label) (target : Nat)
  deriving DecidableEq

def Defect.reason : Defect → String
  | .missingStart start states =>
    "start state " ++ toString start ++ " out of " ++ toString states ++ " states"
  | .flagCount flags states =>
    toString flags ++ " accept flags for " ++ toString states ++ " states"
  | .misplacedState id place =>
    "state " ++ toString id ++ " stored at index " ++ toString place
  | .missingTarget state label target =>
    "state " ++ toString state ++ " has a transition on " ++ label.text ++
      " to missing state " ++ toString target

def Defect.message (d : Defect) : String := "Error: Malformed NFA: " ++ d.reason

namespace Automaton

/-- The first defect of the state `s` stored at `place` among `size`
states. -/
def stateDefect? (size place : Nat) (s : State) : Option Defect :=
  if s.id ≠ place then some (.misplacedState s.id place)
  else
    (s.transitions.toList.find? fun (_, target) => size ≤ target).map fun (label, target) =>
      .missingTarget place label target

/-- The first defect: the start state, then the number of accept flags,
then each state in turn, its number before its transitions. -/
def defect? (a : Automaton) : Option Defect :=
  if a.size ≤ a.start then some (.missingStart a.start a.size)
  else if a.accepting.size ≠ a.size then some (.flagCount a.accepting.size a.size)
  else a.states.toList.zipIdx.findSome? fun (s, place) => stateDefect? a.size place s

/-- What every automaton handed out by the library is. -/
structure WellFormed (a : Automaton) : Prop where
  start_lt : a.start < a.size
  size_accepting : a.accepting.size = a.size
  id_eq : ∀ (i : Nat) (s : State), a.states[i]? = some s → s.id = i
  target_lt : ∀ (i : Nat) (label : Label) (target : Nat),
    target ∈ a.targets i label → target < a.size
  alphabet_eq : a.alphabet = a.usedAlphabet

end Automaton

end Thompson
