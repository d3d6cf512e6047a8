import Mathlib.Algebra.Ring.Nat
import Mathlib.Logic.Function.Iterate
import Thompson.Pattern.Writing
import Thompson.Proofs.FragmentStates

/-!
# Writing with a stack

A turn moves text from the stack to what has been written and loses none
of it: what has been written, followed by what the stack stands for, is
the same text before and after (`Writing.promised_next`). When the stack
is empty, this text has been written.

That the stack becomes empty does not follow from its height, since a turn
may put four pieces in the place of one. It is the number of turns to come
that shrinks, by one each time, so it tells exactly when the writing ends
(`Writing.turns_iterate`).
-/

namespace Thompson

namespace Pattern

/-- The text that a piece stands for. -/
def Piece.stands : Piece → String
  | .text s => s
  | .pattern p => p.text

namespace Writing

/-- What has been written and what is to be written, in one text. -/
def promised (w : Writing) : String := w.written ++ String.join (w.pending.map Piece.stands)

theorem promised_start (p : Pattern) : (start p).promised = p.text := by
  simp [promised, start, Piece.stands]

/-- A turn keeps the text that the writing promises. -/
theorem promised_next (w : Writing) : w.next.promised = w.promised := by
  obtain ⟨pending, written⟩ := w
  match pending with
  | [] => rfl
  | .text s :: rest =>
      simp only [next, promised, List.map_cons, String.join_cons, Piece.stands, String.append_assoc]
  | .pattern (.symbol c) :: rest =>
      simp only [next, promised, List.map_cons, String.join_cons, Piece.stands, text,
        String.append_assoc]
  | .pattern (.union lhs rhs) :: rest =>
      simp only [next, promised, List.map_cons, String.join_cons, Piece.stands, text,
        String.append_assoc]
  | .pattern (.concat lhs rhs) :: rest =>
      simp only [next, promised, List.map_cons, String.join_cons, Piece.stands, text,
        String.append_assoc]
  | .pattern (.star operand) :: rest =>
      simp only [next, promised, List.map_cons, String.join_cons, Piece.stands, text,
        String.append_assoc]

theorem promised_iterate (w : Writing) (n : Nat) : (next^[n] w).promised = w.promised := by
  induction n with
  | zero => rfl
  | succ n ih => rw [Function.iterate_succ_apply', promised_next, ih]

/-! ## The number of turns -/

variable {w : Writing} {n : Nat}

theorem turns_eq_zero_iff {pending : List Piece} : turns pending = 0 ↔ pending = [] := by
  match pending with
  | [] => simp [turns]
  | .text s :: rest => simp [turns]
  | .pattern p :: rest => cases p <;> simp [turns, Pattern.turns]

theorem turns_iterate (h : n ≤ turns w.pending) :
    turns (next^[n] w).pending + n = turns w.pending := by
  induction n with
  | zero => rfl
  | succ n ih =>
      have hn := ih (Nat.le_of_succ_le h)
      rw [Function.iterate_succ_apply']
      match hpending : (next^[n] w).pending with
      | [] =>
          rw [hpending, turns] at hn
          omega
      | piece :: rest =>
          have hnext := turns_next hpending
          omega

theorem pending_iterate_ne_nil (h : n < turns w.pending) : (next^[n] w).pending ≠ [] := by
  have hn := turns_iterate (Nat.le_of_lt h)
  intro hnil
  rw [hnil, turns] at hn
  omega

theorem run_eq_iterate (w : Writing) : w.run = next^[turns w.pending] w := by
  fun_induction run w with
  | case1 w hpending =>
      rw [hpending]
      rfl
  | case2 w piece rest hpending ih => rw [ih, ← turns_next hpending, Function.iterate_succ_apply]

theorem pending_run (w : Writing) : w.run.pending = [] := by
  have hturns := turns_iterate (Nat.le_refl (turns w.pending))
  rw [run_eq_iterate, ← turns_eq_zero_iff]
  omega

/-- In the end all that was promised has been written. -/
theorem run_eq (w : Writing) : w.run = ⟨[], w.promised⟩ := by
  have hpending := pending_run w
  have hpromised : w.run.promised = w.promised := by rw [run_eq_iterate, promised_iterate]
  rw [promised, hpending, List.map_nil, String.join_nil, String.append_empty] at hpromised
  rw [← hpromised, ← hpending]

end Writing

/-! ## The length of a text -/

/-- A symbol takes the bytes of its character, and a node with operands
one byte for each of its signs. -/
theorem utf8ByteSize_text (p : Pattern) :
    p.text.utf8ByteSize =
      (p.symbols.map Char.utf8Size).sum + 3 * p.nodes.count .union + 2 * p.nodes.count .concat +
        3 * p.nodes.count .star := by
  have hopen : "(".utf8ByteSize = 1 := rfl
  have hbar : "|".utf8ByteSize = 1 := rfl
  have hclose : ")".utf8ByteSize = 1 := rfl
  have hstar : ")*".utf8ByteSize = 2 := rfl
  induction p with
  | symbol c => simp [text, symbols, nodes]
  | union lhs rhs ihl ihr =>
      simp [text, symbols, nodes, String.utf8ByteSize_append, ihl, ihr]
      omega
  | concat lhs rhs ihl ihr =>
      simp [text, symbols, nodes, String.utf8ByteSize_append, ihl, ihr]
      omega
  | star operand ih =>
      simp [text, symbols, nodes, String.utf8ByteSize_append, ih]
      omega

/-- The writing with a stack ends, after as many turns as the pattern
takes and not before, and has then written the text of the recursion, of
which it has kept what is missing on the stack all the time. It is what
`print` gives, and its length in bytes is told by the nodes. -/
theorem print_by_turns (p : Pattern) :
    let w := Writing.start p
    w.run = ⟨[], p.text⟩ ∧ w.run = Writing.next^[p.turns] w ∧
      (∀ n < p.turns, (Writing.next^[n] w).pending ≠ []) ∧
      (∀ n, (Writing.next^[n] w).promised = p.text) ∧
      p.print = w.run.written ∧
      p.print.utf8ByteSize =
        (p.symbols.map Char.utf8Size).sum + 3 * p.nodes.count .union +
          2 * p.nodes.count .concat + 3 * p.nodes.count .star := by
  intro w
  have hturns : Writing.turns w.pending = p.turns := rfl
  have hrun : w.run = ⟨[], p.text⟩ := by rw [Writing.run_eq, Writing.promised_start]
  refine ⟨hrun, ?_, ?_, ?_, ?_, ?_⟩
  · rw [Writing.run_eq_iterate, hturns]
  · intro n hn
    exact Writing.pending_iterate_ne_nil (hturns ▸ hn)
  · intro n
    rw [Writing.promised_iterate, Writing.promised_start]
  · rw [hrun, print_eq]
  · rw [print_eq, utf8ByteSize_text]

end Pattern

end Thompson
