import Thompson.Automaton.Simulation

/-!
# A closure turn by turn

`Automaton.close` keeps what it finds in one list and counts the states
whose turn is over. Here those that wait stand in a queue of their own. A
state is marked when it joins the queue, and listed when it leaves it;
that is its turn, and its epsilon targets join behind those that wait.

That both find the same states in the same order, and what they are, is
proved in `Thompson.Proofs.Worklist`.
-/

namespace Thompson

namespace Automaton

/-- A closure under way: the marks, the states that wait with the next one
in front, and those that have had their turn, in order. -/
structure Worklist where
  marks : StateSet
  waiting : List Nat
  reached : List Nat

namespace Worklist

/-- A state that is not marked yet is marked and joins the queue. -/
def enqueue (w : Worklist) (i : Nat) : Worklist :=
  if i < w.marks.size ∧ w.marks.contains i = false then
    ⟨w.marks.insert i, w.waiting ++ [i], w.reached⟩
  else w

def start (seeds : List Nat) (marks : StateSet) : Worklist :=
  seeds.foldl enqueue ⟨marks, [], []⟩

/-- One turn: the state in front leaves the queue and its epsilon targets
join it. -/
def next (a : Automaton) (w : Worklist) : Worklist :=
  match w.waiting with
  | [] => w
  | i :: rest => (a.targets i .epsilon).foldl enqueue ⟨w.marks, rest, w.reached ++ [i]⟩

/-! ## To the end -/

theorem enqueue_measure (w : Worklist) (i : Nat) :
    (w.enqueue i).marks.absent + (w.enqueue i).waiting.length =
      w.marks.absent + w.waiting.length := by
  unfold enqueue
  split
  · next h =>
    have := StateSet.absent_insert h.1 h.2
    simp only [List.length_append, List.length_singleton]
    omega
  · rfl

theorem foldl_enqueue_measure (w : Worklist) (is : List Nat) :
    (is.foldl enqueue w).marks.absent + (is.foldl enqueue w).waiting.length =
      w.marks.absent + w.waiting.length := by
  induction is generalizing w with
  | nil => rfl
  | cons i is ih => rw [List.foldl_cons, ih, enqueue_measure]

/-- The queue may grow in a turn, but only by states that were free. -/
theorem next_measure {a : Automaton} {w : Worklist} {i : Nat} {rest : List Nat}
    (h : w.waiting = i :: rest) :
    (w.next a).marks.absent + (w.next a).waiting.length + 1 =
      w.marks.absent + w.waiting.length := by
  rw [next, h]
  simp only [foldl_enqueue_measure, List.length_cons]
  omega

/-- Take turns until no state waits. -/
def run (a : Automaton) (w : Worklist) : Worklist :=
  match _h : w.waiting with
  | [] => w
  | _ :: _ => run a (w.next a)
termination_by w.marks.absent + w.waiting.length
decreasing_by
  have := next_measure (a := a) _h
  omega

end Worklist

/-- The closure of some seeds with a queue: the marks and the states that
have had their turn. -/
def closeByTurns (a : Automaton) (seeds : List Nat) (marks : StateSet) : StateSet × List Nat :=
  let w := (Worklist.start seeds marks).run a
  (w.marks, w.reached)

end Automaton

end Thompson
