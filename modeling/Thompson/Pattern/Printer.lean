import Thompson.Pattern.Basic

/-!
# The text of a pattern

A union, a concatenation and a star are each written inside a pair of
parentheses, a symbol as itself; concatenation has no sign of its own.
`Pattern.text` says this by recursion on the pattern, and
`Pattern.print` writes the same text with a stack of the pieces that
are still to be written, which serves patterns of any depth.
-/

namespace Thompson

namespace Pattern

/-- The fully parenthesised text of a pattern. -/
def text : Pattern → String
  | .symbol c => c.toString
  | .union lhs rhs => "(" ++ lhs.text ++ "|" ++ rhs.text ++ ")"
  | .concat lhs rhs => "(" ++ lhs.text ++ rhs.text ++ ")"
  | .star operand => "(" ++ operand.text ++ ")*"

/-! ## Writing with a stack -/

/-- What is still to be written: a finished text or a whole pattern. -/
inductive Piece where
  | text (s : String)
  | pattern (p : Pattern)

/-- The pieces that a pattern is written as, operands left whole. -/
def pieces : Pattern → List Piece
  | .symbol c => [.text c.toString]
  | .union lhs rhs => [.text "(", .pattern lhs, .text "|", .pattern rhs, .text ")"]
  | .concat lhs rhs => [.text "(", .pattern lhs, .pattern rhs, .text ")"]
  | .star operand => [.text "(", .pattern operand, .text ")*"]

/-- A bound on the number of steps that a piece takes. -/
def Piece.weight : Piece → Nat
  | .text _ => 1
  | .pattern p => 5 * p.size

def totalWeight : List Piece → Nat
  | [] => 0
  | piece :: pending => piece.weight + totalWeight pending

theorem totalWeight_append (front back : List Piece) :
    totalWeight (front ++ back) = totalWeight front + totalWeight back := by
  induction front with
  | nil => simp [totalWeight]
  | cons piece front ih => simp [totalWeight, ih, Nat.add_assoc]

theorem totalWeight_pieces (p : Pattern) : totalWeight p.pieces < 5 * p.size := by
  cases p <;> simp [totalWeight, pieces, Piece.weight, size] <;> omega

/-- Write the pending pieces behind `out`, the first one first. -/
def writePieces (pending : List Piece) (out : String) : String :=
  match pending with
  | [] => out
  | .text s :: rest => writePieces rest (out ++ s)
  | .pattern p :: rest => writePieces (p.pieces ++ rest) out
termination_by totalWeight pending
decreasing_by
  · simp [totalWeight, Piece.weight]
  · have := totalWeight_pieces p
    rw [totalWeight_append, totalWeight, Piece.weight]
    omega

/-- The text of a pattern, written with a stack. -/
def print (p : Pattern) : String := writePieces [.pattern p] ""

/-- A pending pattern is written as its text before anything else is. -/
theorem writePieces_pattern (p : Pattern) (rest : List Piece) (out : String) :
    writePieces (.pattern p :: rest) out = writePieces rest (out ++ p.text) := by
  induction p generalizing rest out with
  | symbol c => simp [writePieces, pieces, text]
  | union lhs rhs ihl ihr =>
    rw [writePieces]
    simp [writePieces, pieces, text, ihl, ihr, String.append_assoc]
  | concat lhs rhs ihl ihr =>
    rw [writePieces]
    simp [writePieces, pieces, text, ihl, ihr, String.append_assoc]
  | star operand ih =>
    rw [writePieces]
    simp [writePieces, pieces, text, ih, String.append_assoc]

/-- The writer with a stack gives the text of the recursion. -/
theorem print_eq (p : Pattern) : p.print = p.text := by
  rw [print, writePieces_pattern, writePieces, String.empty_append]

end Pattern

end Thompson
