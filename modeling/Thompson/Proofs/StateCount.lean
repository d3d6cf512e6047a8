import Thompson.Proofs.DocumentRoundTrip
import Thompson.Proofs.NormalForm

/-!
# How many states a pattern takes

A symbol takes two states, a union and a star one more than their
operands, and a concatenation none (`Builder.size_construct`). As each
of them has a character of its own in the text of a pattern, there are
at most twice as many states as characters (`Automaton.size_le_of_compile`),
which a machine word counts.
-/

namespace Thompson

namespace Pattern

def stateCount : Pattern → Nat
  | symbol _ => 2
  | union lhs rhs => lhs.stateCount + rhs.stateCount + 1
  | concat lhs rhs => lhs.stateCount + rhs.stateCount
  | star operand => operand.stateCount + 1

end Pattern

theorem Builder.size_construct (b : Builder) (p : Pattern) :
    (b.construct p).builder.size = b.size + p.stateCount := by
  induction p generalizing b with
  | symbol c => exact size_symbolFragment b c
  | union lhs rhs ihl ihr =>
      rw [construct, close, size_unionFragment, ihr, ihl, Pattern.stateCount]
      omega
  | concat lhs rhs ihl ihr =>
      rw [construct, close, size_concatFragment, ihr, ihl, Pattern.stateCount]
      omega
  | star operand ih =>
      rw [construct, close, size_starFragment, ih, Pattern.stateCount]
      omega

theorem Automaton.size_ofPattern (p : Pattern) (regex : String) :
    (ofPattern p regex).size = p.stateCount := by
  rw [ofPattern_eq]
  exact (Builder.size_construct .fresh p).trans (Nat.zero_add _)

/-! ## States and characters -/

namespace Pattern

variable {p : Pattern}

theorem Starred.stateCount_le (h : Starred p) : p.stateCount ≤ 2 * p.bare.toList.length := by
  induction h with
  | symbol hc =>
      rw [bare_symbol hc]
      exact Nat.le_refl 2
  | star _ ih =>
      rw [bare_star, List.length_append, stateCount, List.length_singleton]
      omega

theorem Chained.stateCount_le (h : Chained p) : p.stateCount ≤ 2 * p.bare.toList.length := by
  induction h with
  | single h => exact h.stateCount_le
  | concat _ hq ih =>
      have := hq.stateCount_le
      rw [bare_concat, List.length_append, stateCount]
      omega

theorem Normal.stateCount_le (h : Normal p) : p.stateCount ≤ 2 * p.bare.toList.length := by
  induction h with
  | single h => exact h.stateCount_le
  | union _ hq ih =>
      have := hq.stateCount_le
      rw [bare_union, List.length_append, List.length_cons, stateCount]
      omega

end Pattern

theorem Automaton.size_le_of_compile {pattern : String} {a : Automaton} {log : List Event}
    (h : compile pattern = .ok (a, log)) : a.size ≤ 2 * pattern.length := by
  obtain ⟨p, hp, rfl⟩ := Document.exists_pattern_of_compile h
  obtain ⟨e, he, htext, rfl⟩ := Pattern.ofText_eq_ok_iff_exists_expression.mp hp
  rw [size_ofPattern, ← String.length_toList, htext, ← he.bare_eq]
  exact he.normal.stateCount_le

/-- No text in memory has as many as `2 ^ 63` characters, so the states
of a pattern can be counted. -/
theorem Document.counted_of_compile {pattern : String} {a : Automaton} {log : List Event}
    (h : Automaton.compile pattern = .ok (a, log)) (hlength : pattern.length < 2 ^ 63) :
    (ofAutomaton a).Counted := by
  have hsize : a.size ≤ 2 * pattern.length := Automaton.size_le_of_compile h
  show a.size ≤ largestWord
  rw [largestWord]
  omega

end Thompson
