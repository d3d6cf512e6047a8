import Thompson.Alphabet
import Thompson.State
import Thompson.StateSet

/-!
# Automata

A nondeterministic automaton with epsilon transitions: its states, the
start state, the accept states, the characters its transitions use, and
the text of the pattern it stands for, which is kept for reference only.
Nothing in the type forces the numbers to make sense; what a sound
automaton is, and which defect an unsound one shows first, is said in
`Thompson.Automaton.WellFormed`.
-/

namespace Thompson

structure Automaton where
  states : Array State
  start : Nat
  accepting : StateSet
  alphabet : Alphabet
  regex : String
  deriving DecidableEq

/-- A state that an automaton was asked for and does not have. -/
structure UnknownState where
  id : Nat
  deriving DecidableEq

def UnknownState.message (e : UnknownState) : String :=
  "Error: Invalid state index " ++ toString e.id ++ " provided"

namespace Automaton

def size (a : Automaton) : Nat := a.states.size

def state (a : Automaton) (i : Nat) : Except UnknownState State :=
  match a.states[i]? with
  | some s => .ok s
  | none => .error ⟨i⟩

/-- The targets of one label of the state at a place; none if there is
no such state. -/
def targets (a : Automaton) (i : Nat) (label : Label) : List Nat :=
  match a.states[i]? with
  | some s => s.transitions.targets label
  | none => []

/-- The transitions of the state at a place, labels in order and the
targets of each label in order; none if there is no such state. -/
def transitions (a : Automaton) (i : Nat) : List (Label × Nat) :=
  match a.states[i]? with
  | some s => s.transitions.toList
  | none => []

def edges (a : Automaton) : List Edge := a.states.toList.flatMap State.edges

/-- The characters that label transitions, also those without targets. -/
def usedAlphabet (a : Automaton) : Alphabet :=
  .ofList <| a.states.toList.flatMap fun s =>
    s.transitions.labels.filterMap fun
      | .epsilon => none
      | .char c => some c

end Automaton

end Thompson
