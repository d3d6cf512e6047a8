import Thompson.Construction

/-!
# One walk over a pattern

`Builder.build` lists the nodes of a pattern first and joins fragments
afterwards. `Builder.walk?` does both in one walk with two stacks. On the
one are the patterns to come, each with whether its operands have been
put in front of it; on the other are the fragments built so far. A
pattern comes twice: the first time its operands are put in front of it,
the second time its node takes their fragments off the other stack.

Nothing here says that the fragments are there. A node that finds too few
of them loses those that it has taken and is passed over, and a walk that
leaves no fragment has no result. That neither happens is proved in
`Thompson.Proofs.Walk`.
-/

namespace Thompson

namespace Builder

/-- Join the operands of a node, taken off a stack of fragments with the
right one on top, and give what is left of the stack. With too few of
them there is no fragment, and nothing is left. -/
def join? (b : Builder) (built : List Fragment) :
    Pattern.Node → Option (Builder × Fragment) × List Fragment
  | .symbol c => (some (b.symbolFragment c), built)
  | .union =>
    match built with
    | rhs :: lhs :: below => (some (b.unionFragment lhs rhs), below)
    | _ => (none, [])
  | .concat =>
    match built with
    | rhs :: lhs :: below => (some (b.concatFragment lhs rhs), below)
    | _ => (none, [])
  | .star =>
    match built with
    | operand :: below => (some (b.starFragment operand), below)
    | [] => (none, [])

/-- A union that finds one fragment only takes it and gives none. -/
example : fresh.join? [⟨#[0, 1], 0, #[1]⟩] .union = (none, []) := rfl

/-- A walk under way. The next pattern to come stands in front, and so do
the latest fragment and the latest event. -/
structure Walk where
  pending : List (Pattern × Bool)
  built : List Fragment
  builder : Builder
  log : List Event

namespace Walk

def start (b : Builder) (p : Pattern) : Walk := ⟨[(p, false)], [], b, []⟩

/-- One turn: the next pattern puts its operands in front of it, or, if
it has done so before, joins their fragments. -/
def next (w : Walk) : Walk :=
  match w.pending with
  | [] => w
  | (p, false) :: rest => { w with pending := p.operands.map (·, false) ++ (p, true) :: rest }
  | (p, true) :: rest =>
    match w.builder.join? w.built p.node with
    | (some (b, f), below) => ⟨rest, f :: below, b, f.event p.node :: w.log⟩
    | (none, below) => { w with pending := rest, built := below }

/-! ## To the end -/

/-- The number of turns that some patterns take. -/
def turns : List (Pattern × Bool) → Nat
  | [] => 0
  | (p, false) :: rest => 2 * p.size + turns rest
  | (_, true) :: rest => turns rest + 1

theorem turns_operands (p : Pattern) (rest : List (Pattern × Bool)) :
    turns (p.operands.map (·, false) ++ (p, true) :: rest) + 1 = turns ((p, false) :: rest) := by
  cases p <;> simp [Pattern.operands, turns, Pattern.size] <;> omega

theorem turns_next {w : Walk} {entry : Pattern × Bool} {rest : List (Pattern × Bool)}
    (h : w.pending = entry :: rest) : turns w.next.pending + 1 = turns w.pending := by
  obtain ⟨p, visited⟩ := entry
  rw [next, h]
  cases visited with
  | false => exact turns_operands p rest
  | true =>
    rw [turns]
    dsimp only
    split <;> rfl

/-- Take turns until no pattern is to come. -/
def run (w : Walk) : Walk :=
  match _h : w.pending with
  | [] => w
  | _ :: _ => run w.next
termination_by turns w.pending
decreasing_by
  have := turns_next _h
  omega

end Walk

/-- The fragment of a pattern, built in one walk; `none` if the walk
leaves no fragment. -/
def walk? (b : Builder) (p : Pattern) : Option Construction :=
  let w := (Walk.start b p).run
  match w.built with
  | [] => none
  | f :: _ => some ⟨w.builder, f, w.log.reverse⟩

end Builder

end Thompson
