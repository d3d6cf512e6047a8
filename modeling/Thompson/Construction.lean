import Thompson.Fragment
import Thompson.Pattern.Parser

/-!
# From a pattern to an automaton

`Builder.construct` says what the construction is: the fragments of
the operands, left before right, and then the rule of the node.
`Builder.build` computes the same along the post-order of the
pattern, with a stack that holds the fragments waiting for the node
they belong to, so that patterns of any depth can be built; that the
stack never runs short, and holds one fragment in the end, is
`Builder.run?_postorder`.
-/

namespace Thompson

/-- A fragment with the builder that holds its states, and the events
of its construction. -/
structure Construction where
  builder : Builder
  fragment : Fragment
  log : List Event

namespace Builder

/-! ## By recursion -/

/-- The construction that ends with joining the operands of a node to
one fragment. -/
def close (joined : Builder × Fragment) (node : Pattern.Node) (log : List Event) :
    Construction where
  builder := joined.1
  fragment := joined.2
  log := log ++ [joined.2.event node]

/-- The fragment of a pattern, operands first. -/
def construct (b : Builder) : Pattern → Construction
  | .symbol c => close (b.symbolFragment c) (.symbol c) []
  | .union lhs rhs =>
    let l := b.construct lhs
    let r := l.builder.construct rhs
    close (r.builder.unionFragment l.fragment r.fragment) .union (l.log ++ r.log)
  | .concat lhs rhs =>
    let l := b.construct lhs
    let r := l.builder.construct rhs
    close (r.builder.concatFragment l.fragment r.fragment) .concat (l.log ++ r.log)
  | .star operand =>
    let o := b.construct operand
    close (o.builder.starFragment o.fragment) .star o.log

/-! ## With a stack -/

/-- A construction under way: the fragments that wait for their node
and the events so far, the latest first in both. -/
structure Progress where
  builder : Builder
  waiting : List Fragment
  log : List Event

namespace Progress

def push (joined : Builder × Fragment) (waiting : List Fragment) (log : List Event)
    (node : Pattern.Node) : Progress where
  builder := joined.1
  waiting := joined.2 :: waiting
  log := joined.2.event node :: log

/-- Turn a node into a fragment, taking those of its operands off the
stack; `none` if there are too few. -/
def step? : Progress → Pattern.Node → Option Progress
  | ⟨b, waiting, log⟩, .symbol c => some (push (b.symbolFragment c) waiting log (.symbol c))
  | ⟨b, rhs :: lhs :: waiting, log⟩, .union =>
    some (push (b.unionFragment lhs rhs) waiting log .union)
  | ⟨b, rhs :: lhs :: waiting, log⟩, .concat =>
    some (push (b.concatFragment lhs rhs) waiting log .concat)
  | ⟨b, operand :: waiting, log⟩, .star =>
    some (push (b.starFragment operand) waiting log .star)
  | _, _ => none

end Progress

/-- Turn a list of nodes into one fragment; `none` if a node finds too
few operands or if the nodes leave other than one fragment. -/
def run? (b : Builder) (nodes : List Pattern.Node) : Option Construction :=
  match nodes.foldlM Progress.step? ⟨b, [], []⟩ with
  | some ⟨b', [f], log⟩ => some ⟨b', f, log.reverse⟩
  | _ => none

/-- The nodes of a pattern leave its fragment on top of the stack and
the rest of the stack as it was. -/
theorem foldlM_nodes (p : Pattern) (b : Builder) (waiting : List Fragment) (log : List Event) :
    p.nodes.foldlM Progress.step? ⟨b, waiting, log⟩ =
      some ⟨(b.construct p).builder, (b.construct p).fragment :: waiting,
        (b.construct p).log.reverse ++ log⟩ := by
  induction p generalizing b waiting log with
  | symbol c => simp [Pattern.nodes, Progress.step?, Progress.push, construct, close]
  | union lhs rhs ihl ihr =>
    simp [Pattern.nodes, List.foldlM_append, ihl, ihr, Progress.step?, Progress.push, construct,
      close]
  | concat lhs rhs ihl ihr =>
    simp [Pattern.nodes, List.foldlM_append, ihl, ihr, Progress.step?, Progress.push, construct,
      close]
  | star operand ih =>
    simp [Pattern.nodes, List.foldlM_append, ih, Progress.step?, Progress.push, construct, close]

/-- The walk along the post-order finds every operand it needs, and its
result is the one of the recursion. -/
theorem run?_postorder (b : Builder) (p : Pattern) :
    b.run? p.postorder = some (b.construct p) := by
  simp [run?, Pattern.postorder_eq, foldlM_nodes]

/-- The fragment of a pattern, built along its post-order. -/
def build (b : Builder) (p : Pattern) : Construction :=
  (b.run? p.postorder).get (by simp [run?_postorder])

theorem build_eq (b : Builder) (p : Pattern) : b.build p = b.construct p := by
  simp [build, run?_postorder]

/-- The fragments of some patterns, built one after another, and the
builder that holds the states of all of them. -/
def buildAll (b : Builder) : List Pattern → Builder × List Fragment
  | [] => (b, [])
  | p :: ps =>
    let c := b.build p
    let rest := c.builder.buildAll ps
    (rest.1, c.fragment :: rest.2)

end Builder

/-! ## Automata of patterns -/

namespace Automaton

/-- The automaton of a pattern, which need not be the one that `regex`
spells, with the events of its construction. -/
def construct (p : Pattern) (regex : String) : Automaton × List Event :=
  let c := Builder.fresh.build p
  let a := c.builder.finish c.fragment regex
  (a, c.log ++ [.constructed regex a.size])

def ofPattern (p : Pattern) (regex : String) : Automaton := (construct p regex).1

/-- The automaton of the pattern that a text spells, with the events of
its construction. -/
def compile (regex : String) : Except PatternError (Automaton × List Event) := do
  return construct (← Pattern.ofText regex) regex

end Automaton

end Thompson
