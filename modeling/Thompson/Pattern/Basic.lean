/-!
# Patterns

The syntax tree of a regular expression. Patterns folded to the left
are as deep as their text is long, so nothing here that runs on a whole
pattern calls itself on its operands: `Pattern.postorder` lists the
nodes with a stack of its own, operands before the node they belong to,
and `Pattern.ofPostorder?` reads such a list back.

`Pattern.Matches` is the language of a pattern, said by rules on the
pattern alone.
-/

namespace Thompson

inductive Pattern where
  | symbol (c : Char)
  | union (lhs rhs : Pattern)
  | concat (lhs rhs : Pattern)
  | star (operand : Pattern)
  deriving DecidableEq

namespace Pattern

/-! ## Nodes -/

/-- What stands at one place of a pattern, without its operands. -/
inductive Node where
  | symbol (c : Char)
  | union
  | concat
  | star
  deriving DecidableEq

def Node.kind : Node → String
  | .symbol _ => "symbol"
  | .union => "union"
  | .concat => "concat"
  | .star => "star"

def node : Pattern → Node
  | .symbol c => .symbol c
  | .union _ _ => .union
  | .concat _ _ => .concat
  | .star _ => .star

/-- The operands at the root, left before right. -/
def operands : Pattern → List Pattern
  | .symbol _ => []
  | .union lhs rhs => [lhs, rhs]
  | .concat lhs rhs => [lhs, rhs]
  | .star operand => [operand]

def size : Pattern → Nat
  | .symbol _ => 1
  | .union lhs rhs => lhs.size + rhs.size + 1
  | .concat lhs rhs => lhs.size + rhs.size + 1
  | .star operand => operand.size + 1

def totalSize : List Pattern → Nat
  | [] => 0
  | p :: ps => p.size + totalSize ps

theorem totalSize_append (ps qs : List Pattern) :
    totalSize (ps ++ qs) = totalSize ps + totalSize qs := by
  induction ps with
  | nil => simp [totalSize]
  | cons p ps ih => simp [totalSize, ih, Nat.add_assoc]

theorem totalSize_operands_reverse (p : Pattern) :
    totalSize p.operands.reverse + 1 = p.size := by
  cases p <;> simp [operands, size, totalSize, Nat.add_comm]

/-! ## Post-order -/

/-- Puts the nodes of all pending patterns in front of `nodes`. The
pending pattern on top comes last in post-order: its root is put in
front at once, and its operands wait with the rightmost on top. -/
def postorderOnto (pending : List Pattern) (nodes : List Node) : List Node :=
  match pending with
  | [] => nodes
  | p :: rest => postorderOnto (p.operands.reverse ++ rest) (p.node :: nodes)
termination_by totalSize pending
decreasing_by
  have := totalSize_operands_reverse p
  rw [totalSize_append, totalSize]
  omega

/-- The nodes of a pattern, each after its operands and the left operand
before the right one. -/
def postorder (p : Pattern) : List Node := postorderOnto [p] []

/-- The nodes of a pattern in post-order, by recursion on the pattern. -/
def nodes : Pattern → List Node
  | .symbol c => [.symbol c]
  | .union lhs rhs => lhs.nodes ++ rhs.nodes ++ [.union]
  | .concat lhs rhs => lhs.nodes ++ rhs.nodes ++ [.concat]
  | .star operand => operand.nodes ++ [.star]

theorem postorderOnto_cons (p : Pattern) (rest : List Pattern) (nodes : List Node) :
    postorderOnto (p :: rest) nodes = postorderOnto rest (p.nodes ++ nodes) := by
  induction p generalizing rest nodes with
  | symbol c => simp [postorderOnto, operands, node, Pattern.nodes]
  | union lhs rhs ihl ihr =>
    rw [postorderOnto]
    simp [operands, node, Pattern.nodes, ihl, ihr]
  | concat lhs rhs ihl ihr =>
    rw [postorderOnto]
    simp [operands, node, Pattern.nodes, ihl, ihr]
  | star operand ih =>
    rw [postorderOnto]
    simp [operands, node, Pattern.nodes, ih]

/-- The walk with a stack lists the nodes as the recursion does. -/
theorem postorder_eq (p : Pattern) : p.postorder = p.nodes := by
  simp [postorder, postorderOnto_cons, postorderOnto]

/-! ## Reading post-order back -/

/-- Apply a node to the operands on top of a stack, the rightmost operand
being on top; `none` if the stack is too short. -/
def Node.apply? (stack : List Pattern) : Node → Option (List Pattern)
  | .symbol c => some (.symbol c :: stack)
  | .union =>
    match stack with
    | rhs :: lhs :: below => some (.union lhs rhs :: below)
    | _ => none
  | .concat =>
    match stack with
    | rhs :: lhs :: below => some (.concat lhs rhs :: below)
    | _ => none
  | .star =>
    match stack with
    | operand :: below => some (.star operand :: below)
    | _ => none

/-- The pattern with the given nodes in post-order, if they are those of
one pattern. -/
def ofPostorder? (nodes : List Node) : Option Pattern :=
  match nodes.foldlM Node.apply? [] with
  | some [p] => some p
  | _ => none

/-! ## Language -/

/-- `Matches p text`: the text is a word of the language of `p`. -/
inductive Matches : Pattern → List Char → Prop where
  | symbol (c : Char) : Matches (.symbol c) [c]
  | unionLeft {lhs rhs : Pattern} {text : List Char} :
      Matches lhs text → Matches (.union lhs rhs) text
  | unionRight {lhs rhs : Pattern} {text : List Char} :
      Matches rhs text → Matches (.union lhs rhs) text
  | concat {lhs rhs : Pattern} {front back : List Char} :
      Matches lhs front → Matches rhs back → Matches (.concat lhs rhs) (front ++ back)
  | starNil {operand : Pattern} : Matches (.star operand) []
  | starCons {operand : Pattern} {front back : List Char} :
      Matches operand front → Matches (.star operand) back →
      Matches (.star operand) (front ++ back)

variable {word : List Char}

theorem symbol_matches_iff {c : Char} : (symbol c).Matches word ↔ word = [c] := by
  constructor
  · intro h
    cases h
    rfl
  · rintro rfl
    exact .symbol c

theorem union_matches_iff {lhs rhs : Pattern} :
    (union lhs rhs).Matches word ↔ lhs.Matches word ∨ rhs.Matches word := by
  constructor
  · intro h
    cases h with
    | unionLeft h => exact Or.inl h
    | unionRight h => exact Or.inr h
  · rintro (h | h)
    · exact .unionLeft h
    · exact .unionRight h

theorem concat_matches_iff {lhs rhs : Pattern} :
    (concat lhs rhs).Matches word ↔
      ∃ front back, word = front ++ back ∧ lhs.Matches front ∧ rhs.Matches back := by
  constructor
  · intro h
    cases h with
    | concat hfront hback => exact ⟨_, _, rfl, hfront, hback⟩
  · rintro ⟨front, back, rfl, hfront, hback⟩
    exact .concat hfront hback

end Pattern

end Thompson
