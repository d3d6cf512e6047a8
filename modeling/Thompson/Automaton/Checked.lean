import Thompson.Automaton.Simulation

/-!
# Running an automaton with checked accesses

`run` and what it is made of read a default where there is nothing to
read, and write nothing where there is no place. The same computations
stand here with accesses that are not forgiven: each gives `none` as soon
as a state, a mark or an accept flag is accessed by a number that is out
of range. Only what asks for the range before an access goes on without
it: the moves on a character pass over states that do not exist, a
closure of a set stops at the end of the automaton, and a set may have
members that no accept flag belongs to.
-/

namespace Thompson

namespace StateSet

def at? (s : StateSet) (i : Nat) : Option Bool := s.flags[i]?

def insert? (s : StateSet) (i : Nat) : Option StateSet :=
  if i < s.size then some (s.insert i) else none

def erase? (s : StateSet) (i : Nat) : Option StateSet :=
  if i < s.size then some (s.erase i) else none

theorem at?_of_lt {s : StateSet} {i : Nat} (h : i < s.size) : s.at? i = some (s.contains i) := by
  have hget : s.flags[i]? = some s.flags[i] := Array.getElem?_eq_getElem h
  rw [at?, contains, Array.getD_eq_getD_getElem?, hget]
  rfl

theorem at?_of_size_le {s : StateSet} {i : Nat} (h : s.size ≤ i) : s.at? i = none :=
  Array.getElem?_eq_none h

end StateSet

namespace Automaton

/-! ## Epsilon closure -/

namespace Search

def visit? (s : Search) (i : Nat) : Option Search := do
  let marked ← s.marks.at? i
  if marked then return s
  let marks ← s.marks.insert? i
  return ⟨marks, s.found.push i⟩

/-- A visit fails only if the state has no mark. -/
theorem visit?_eq (s : Search) (i : Nat) :
    s.visit? i = if i < s.marks.size then some (s.visit i) else none := by
  unfold visit?
  by_cases h : i < s.marks.size
  · rw [StateSet.at?_of_lt h, if_pos h, visit]
    cases hmark : s.marks.contains i with
    | true => simp
    | false => simp [StateSet.insert?, h]
  · rw [StateSet.at?_of_size_le (Nat.le_of_not_lt h), if_neg h]
    rfl

theorem eq_visit_of_visit? {s s' : Search} {i : Nat} (h : s.visit? i = some s') :
    s' = s.visit i := by
  rw [visit?_eq] at h
  split at h
  · exact (Option.some.inj h).symm
  · cases h

theorem eq_foldl_of_foldlM_visit? {s s' : Search} {is : List Nat}
    (h : is.foldlM visit? s = some s') : s' = is.foldl visit s := by
  induction is generalizing s with
  | nil => exact (Option.some.inj h).symm
  | cons i is ih =>
      rw [List.foldlM_cons] at h
      obtain ⟨next, hnext, h⟩ := Option.bind_eq_some_iff.mp h
      obtain rfl := eq_visit_of_visit? hnext
      exact ih h

end Search

/-- The turn of a state in a search: visit its epsilon targets. -/
def turn? (a : Automaton) (i : Nat) (s : Search) : Option Search := do
  let state ← a.states[i]?
  (state.transitions.targets .epsilon).foldlM Search.visit? s

theorem eq_foldl_of_turn? {a : Automaton} {i : Nat} {s s' : Search} (h : a.turn? i s = some s') :
    s' = (a.targets i .epsilon).foldl Search.visit s := by
  obtain ⟨state, hstate, h⟩ := Option.bind_eq_some_iff.mp h
  rw [targets, hstate]
  exact Search.eq_foldl_of_foldlM_visit? h

def search? (a : Automaton) (next : Nat) (s : Search) : Option Search :=
  if hnext : next < s.found.size then
    match hturn : a.turn? s.found[next] s with
    | none => none
    | some s' => search? a (next + 1) s'
  else some s
termination_by s.marks.absent + s.found.size - next
decreasing_by
  have := Search.foldl_visit_measure s (a.targets s.found[next] .epsilon)
  rw [eq_foldl_of_turn? hturn]
  omega

def close? (a : Automaton) (seeds : List Nat) (marks : StateSet) :
    Option (StateSet × List Nat) := do
  let seeded ← seeds.foldlM Search.visit? ⟨marks, #[]⟩
  let s ← a.search? 0 seeded
  return (s.marks, s.found.toList)

def epsilonClosure? (a : Automaton) (s : StateSet) : Option StateSet :=
  (a.close? (s.toList.takeWhile (· < a.size)) (.empty a.size)).map Prod.fst

/-! ## One character at a time -/

def startSet? (a : Automaton) : Option StateSet := do
  let start ← (StateSet.empty a.size).insert? a.start
  a.epsilonClosure? start

def step? (a : Automaton) (s : StateSet) (c : Char) : Option StateSet :=
  (a.close? (a.moves s.toList c) (.empty a.size)).map Prod.fst

def isAccepting? (a : Automaton) (s : StateSet) : Option Bool :=
  s.toList.anyM fun i => if i < a.accepting.size then a.accepting.at? i else some false

/-! ## A whole text -/

def runFrom? (a : Automaton) (active : List Nat) (marks : StateSet) (position : Nat)
    (log : List Event) : List Char → Option Run
  | [] => do
    let accepted ← active.anyM a.accepting.at?
    return ⟨accepted, log.reverse⟩
  | c :: text =>
    if c ∈ a.alphabet then do
      let cleared ← active.foldlM StateSet.erase? marks
      let (marks, reached) ← a.close? (a.moves active c) cleared
      let log := .advanced c reached.length :: log
      if reached.isEmpty then return ⟨false, log.reverse⟩
      else runFrom? a reached marks (position + 1) log text
    else return ⟨false, (.outsideAlphabet c position :: log).reverse⟩

def run? (a : Automaton) (text : String) : Option Run := do
  let (marks, active) ← a.close? [a.start] (.empty a.size)
  a.runFrom? active marks 0 [] text.toList

/-- One accept flag too few, and the run of a text that ends in that
state is out of range. -/
example :
    run? ⟨#[⟨0, .empty⟩], 0, .empty 0, .ofList [], ""⟩ "" = none := by cbv

end Automaton

end Thompson
