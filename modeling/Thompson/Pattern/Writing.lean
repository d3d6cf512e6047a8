import Thompson.Pattern.Printer

/-!
# Writing a pattern turn by turn

`Pattern.print` takes a pattern apart into pieces and writes these one by
one. Here the same is done with fewer pieces, one turn at a time: a symbol
is written when its turn comes, and so is the parenthesis that opens any
other pattern, whose operands then wait on the stack, together with the
signs between and behind them.

What is written in the end is the text of the recursion, and so what
`print` writes (`Thompson.Proofs.Writing`).
-/

namespace Thompson

namespace Pattern

/-- A writing under way. The next piece to be written stands in front. -/
structure Writing where
  pending : List Piece
  written : String

namespace Writing

def start (p : Pattern) : Writing := ⟨[.pattern p], ""⟩

/-- One turn: write the next piece, or what opens it. -/
def next (w : Writing) : Writing :=
  match w.pending with
  | [] => w
  | .text s :: rest => ⟨rest, w.written ++ s⟩
  | .pattern (.symbol c) :: rest => ⟨rest, w.written ++ c.toString⟩
  | .pattern (.union lhs rhs) :: rest =>
    ⟨.pattern lhs :: .text "|" :: .pattern rhs :: .text ")" :: rest, w.written ++ "("⟩
  | .pattern (.concat lhs rhs) :: rest =>
    ⟨.pattern lhs :: .pattern rhs :: .text ")" :: rest, w.written ++ "("⟩
  | .pattern (.star operand) :: rest =>
    ⟨.pattern operand :: .text ")*" :: rest, w.written ++ "("⟩

end Writing

/-! ## To the end -/

/-- The number of turns that a pattern takes. -/
def turns : Pattern → Nat
  | .symbol _ => 1
  | .union lhs rhs => lhs.turns + rhs.turns + 3
  | .concat lhs rhs => lhs.turns + rhs.turns + 2
  | .star operand => operand.turns + 2

namespace Writing

/-- The number of turns that some pieces take. -/
def turns : List Piece → Nat
  | [] => 0
  | .text _ :: rest => turns rest + 1
  | .pattern p :: rest => p.turns + turns rest

/-- The stack may grow in a turn, but not the number of turns to come. -/
theorem turns_next {w : Writing} {piece : Piece} {rest : List Piece}
    (h : w.pending = piece :: rest) : turns w.next.pending + 1 = turns w.pending := by
  rw [next, h]
  match piece with
  | .text s => rfl
  | .pattern (.symbol c) => simp only [turns, Pattern.turns]; omega
  | .pattern (.union lhs rhs) => simp only [turns, Pattern.turns]; omega
  | .pattern (.concat lhs rhs) => simp only [turns, Pattern.turns]; omega
  | .pattern (.star operand) => simp only [turns, Pattern.turns]; omega

/-- Take turns until nothing is to be written. -/
def run (w : Writing) : Writing :=
  match _h : w.pending with
  | [] => w
  | _ :: _ => run w.next
termination_by turns w.pending
decreasing_by
  have := turns_next _h
  omega

end Writing

end Pattern

end Thompson
