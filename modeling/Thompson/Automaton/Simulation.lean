import Thompson.Automaton.Basic
import Thompson.Event

/-!
# Running an automaton

An automaton is run by keeping the set of states it may be in. The sets
are closed over epsilon: `Automaton.close` adds what epsilon
transitions lead to, in the order of their distance and each state once
however the transitions loop. `startSet`, `step` and `isAccepting` run an automaton one
character at a time on sets of states. `run` decides on a whole text;
it keeps the active states as a list, so that a step costs what the
states and transitions it touches cost, and stops as soon as no
continuation can match. `accepts` is its verdict.
-/

namespace Thompson

namespace Automaton

/-! ## Epsilon closure -/

/-- A closure under way: the marks, and the states found so far in the
order in which they were found. -/
structure Search where
  marks : StateSet
  found : Array Nat

namespace Search

/-- Mark a state that is not marked yet and put it behind those found. -/
def visit (s : Search) (i : Nat) : Search :=
  if i < s.marks.size ∧ s.marks.contains i = false then
    ⟨s.marks.insert i, s.found.push i⟩
  else s

/-- A state found is a mark that is no longer missing. -/
theorem visit_measure (s : Search) (i : Nat) :
    (s.visit i).marks.absent + (s.visit i).found.size = s.marks.absent + s.found.size := by
  unfold visit
  split
  · next h =>
    have := StateSet.absent_insert h.1 h.2
    simp only [Array.size_push]
    omega
  · rfl

theorem foldl_visit_measure (s : Search) (is : List Nat) :
    (is.foldl visit s).marks.absent + (is.foldl visit s).found.size =
      s.marks.absent + s.found.size := by
  induction is generalizing s with
  | nil => rfl
  | cons i is ih => rw [List.foldl_cons, ih, visit_measure]

end Search

/-- The states found from `next` on are waiting: visit the epsilon
targets of the first of them and go on behind it, until none waits. -/
def search (a : Automaton) (next : Nat) (s : Search) : Search :=
  if h : next < s.found.size then
    search a (next + 1) ((a.targets s.found[next] .epsilon).foldl Search.visit s)
  else s
termination_by s.marks.absent + s.found.size - next
decreasing_by
  have := Search.foldl_visit_measure s (a.targets s.found[next] .epsilon)
  omega

/-- Mark the seeds that are not marked yet, and whatever epsilon
transitions lead to from them that is not. Gives the marks and the
states that are newly marked. -/
def close (a : Automaton) (seeds : List Nat) (marks : StateSet) : StateSet × List Nat :=
  let s := a.search 0 (seeds.foldl Search.visit ⟨marks, #[]⟩)
  (s.marks, s.found.toList)

/-- The set with every state that epsilon transitions lead to from its
members. Members past the last state are dropped. -/
def epsilonClosure (a : Automaton) (s : StateSet) : StateSet :=
  (a.close s.toList (.empty a.size)).1

/-! ## One character at a time -/

/-- The states an automaton may be in before it has read anything. -/
def startSet (a : Automaton) : StateSet :=
  a.epsilonClosure ((StateSet.empty a.size).insert a.start)

/-- Where the transitions on `c` lead from some states. -/
def moves (a : Automaton) (states : List Nat) (c : Char) : List Nat :=
  states.flatMap fun i => a.targets i (.char c)

/-- The states an automaton may be in after it has read `c` in one of
the members. -/
def step (a : Automaton) (s : StateSet) (c : Char) : StateSet :=
  (a.close (a.moves s.toList c) (.empty a.size)).1

def isAccepting (a : Automaton) (s : StateSet) : Bool := s.toList.any a.accepting.contains

/-! ## A whole text -/

/-- The verdict on a text and what was reported on the way. -/
structure Run where
  accepted : Bool
  log : List Event
  deriving DecidableEq

/-- Read what is left of a text. The marks hold exactly the active
states, `position` counts the characters read, and `log` holds the
events so far, the latest first. -/
def runFrom (a : Automaton) (active : List Nat) (marks : StateSet) (position : Nat)
    (log : List Event) : List Char → Run
  | [] => ⟨active.any a.accepting.contains, log.reverse⟩
  | c :: text =>
    if c ∈ a.alphabet then
      let (marks, reached) := a.close (a.moves active c) (marks.eraseAll active)
      let log := .advanced c reached.length :: log
      if reached.isEmpty then ⟨false, log.reverse⟩
      else runFrom a reached marks (position + 1) log text
    else ⟨false, (.outsideAlphabet c position :: log).reverse⟩

/-- Read a text from the start state. A character outside the alphabet
ends the run, and so does a character after which no state is active. -/
def run (a : Automaton) (text : String) : Run :=
  let (marks, active) := a.close [a.start] (.empty a.size)
  a.runFrom active marks 0 [] text.toList

def accepts (a : Automaton) (text : String) : Bool := (a.run text).accepted

end Automaton

end Thompson
