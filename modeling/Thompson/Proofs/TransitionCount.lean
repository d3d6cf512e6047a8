import Mathlib.Algebra.Group.Nat.Even
import Mathlib.Algebra.Order.Ring.Nat
import Mathlib.Tactic.Linarith
import Thompson.Proofs.Edges

/-!
# How many transitions a pattern takes

A symbol takes one transition and a union two. A concatenation takes as
many as the left operand has accept states, and a star one more than its
operand has. Since a star adds an accept state, a star over a star pays
for all stars below it: the transitions of `n` nodes are at most those of
a chain of stars, which are `n * (n + 1) / 2`
(`Pattern.two_mul_edgeCount_le`), and no other pattern has as many
(`Pattern.two_mul_edgeCount_eq_iff`). A chain is as long as its text, so
the transitions of a text grow faster than any multiple of its length.
-/

namespace Thompson

namespace Pattern

/-- How many transitions a pattern takes. -/
def edgeCount : Pattern → Nat
  | symbol _ => 1
  | union lhs rhs => lhs.edgeCount + rhs.edgeCount + 2
  | concat lhs rhs => lhs.edgeCount + rhs.edgeCount + lhs.acceptCount
  | star operand => operand.edgeCount + 1 + operand.acceptCount

variable {p q : Pattern}

/-! ## Bounds -/

theorem size_pos (p : Pattern) : 0 < p.size := by
  cases p <;> simp [size]

theorem acceptCount_le_size (p : Pattern) : p.acceptCount ≤ p.size := by
  induction p with
  | symbol c => exact Nat.le_refl 1
  | union lhs rhs ihl ihr =>
      rw [acceptCount, size]
      omega
  | concat lhs rhs ihl ihr =>
      rw [acceptCount, size]
      omega
  | star operand ih => exact Nat.succ_le_succ ih

/-- A node with two operands takes less than a chain of as many nodes
does, even if its operands are chains. -/
theorem two_mul_edgeCount_union_lt (hp : 2 * p.edgeCount ≤ p.size * (p.size + 1))
    (hq : 2 * q.edgeCount ≤ q.size * (q.size + 1)) :
    2 * (union p q).edgeCount < (union p q).size * ((union p q).size + 1) := by
  have hpos := Nat.mul_pos p.size_pos q.size_pos
  have := p.size_pos
  rw [edgeCount, size]
  nlinarith only [hp, hq, hpos, this]

theorem two_mul_edgeCount_concat_lt (hp : 2 * p.edgeCount ≤ p.size * (p.size + 1))
    (hq : 2 * q.edgeCount ≤ q.size * (q.size + 1)) :
    2 * (concat p q).edgeCount < (concat p q).size * ((concat p q).size + 1) := by
  have hpos := Nat.mul_pos p.size_pos q.size_pos
  have haccepts := p.acceptCount_le_size
  rw [edgeCount, size]
  nlinarith only [hp, hq, hpos, haccepts]

theorem two_mul_edgeCount_le (p : Pattern) : 2 * p.edgeCount ≤ p.size * (p.size + 1) := by
  induction p with
  | symbol c => exact Nat.le_refl 2
  | union lhs rhs ihl ihr => exact Nat.le_of_lt (two_mul_edgeCount_union_lt ihl ihr)
  | concat lhs rhs ihl ihr => exact Nat.le_of_lt (two_mul_edgeCount_concat_lt ihl ihr)
  | star operand ih =>
      have haccepts := operand.acceptCount_le_size
      rw [edgeCount, size]
      nlinarith only [ih, haccepts]

/-! ## Chains of stars -/

theorem size_iterate_star (c : Char) (n : Nat) : (star^[n] (symbol c)).size = n + 1 := by
  induction n with
  | zero => rfl
  | succ n ih => rw [Function.iterate_succ_apply', size, ih]

theorem acceptCount_iterate_star (c : Char) (n : Nat) :
    (star^[n] (symbol c)).acceptCount = n + 1 := by
  induction n with
  | zero => rfl
  | succ n ih => rw [Function.iterate_succ_apply', acceptCount, ih]

theorem two_mul_edgeCount_iterate_star (c : Char) (n : Nat) :
    2 * (star^[n] (symbol c)).edgeCount = (n + 1) * (n + 2) := by
  induction n with
  | zero => rfl
  | succ n ih =>
      rw [Function.iterate_succ_apply', edgeCount, acceptCount_iterate_star]
      linarith

/-- Only a chain of stars takes as many transitions as its size allows. -/
theorem two_mul_edgeCount_eq_iff :
    2 * p.edgeCount = p.size * (p.size + 1) ↔ ∃ c n, p = star^[n] (symbol c) := by
  constructor
  · intro h
    induction p with
    | symbol c => exact ⟨c, 0, rfl⟩
    | union lhs rhs =>
        exact absurd h (Nat.ne_of_lt (two_mul_edgeCount_union_lt lhs.two_mul_edgeCount_le
          rhs.two_mul_edgeCount_le))
    | concat lhs rhs =>
        exact absurd h (Nat.ne_of_lt (two_mul_edgeCount_concat_lt lhs.two_mul_edgeCount_le
          rhs.two_mul_edgeCount_le))
    | star operand ih =>
        have hle := operand.two_mul_edgeCount_le
        have haccepts := operand.acceptCount_le_size
        rw [edgeCount, size] at h
        obtain ⟨c, n, rfl⟩ := ih (by nlinarith only [h, hle, haccepts])
        exact ⟨c, n + 1, (Function.iterate_succ_apply' ..).symm⟩
  · rintro ⟨c, n, rfl⟩
    rw [two_mul_edgeCount_iterate_star, size_iterate_star]

/-- A letter with `n` stars behind it is the text of a chain. -/
theorem ofText_iterate_star (n : Nat) :
    ofText (String.ofList ('a' :: List.replicate n '*')) = .ok (star^[n] (symbol 'a')) := by
  refine ofText_eq_ok_iff_exists_expression.mpr ⟨⟨⟨⟨'a', n⟩, []⟩, []⟩, ?_, ?_, rfl⟩
  · intro piece hpiece i hi
    rw [List.mem_singleton.mp hpiece] at hi
    rw [List.mem_singleton.mp hi]
    rfl
  · simp [Expression.text, Sequence.text, Item.text, Row.toList]

/-- No multiple of the size of a pattern bounds its transitions. -/
theorem exists_lt_edgeCount (factor offset : Nat) :
    ∃ text p, ofText text = .ok p ∧ text.length = p.size ∧
      factor * p.size + offset < p.edgeCount := by
  have hcount := two_mul_edgeCount_iterate_star 'a' (2 * (factor + offset))
  refine ⟨_, _, ofText_iterate_star (2 * (factor + offset)), ?_, ?_⟩
  · rw [size_iterate_star, String.length_ofList, List.length_cons, List.length_replicate]
  · rw [size_iterate_star]
    nlinarith only [hcount]

end Pattern

/-! ## Transitions of an automaton -/

theorem length_bridges (sources : List Nat) (target : Nat) :
    (bridges sources target).length = sources.length :=
  List.length_map _

theorem Builder.length_made (b : Builder) (p : Pattern) : (b.made p).length = p.edgeCount := by
  induction p generalizing b with
  | symbol c => rfl
  | union lhs rhs ihl ihr =>
      simp only [made, List.length_append, length_bridges, ihl, ihr, Pattern.edgeCount]
      rfl
  | concat lhs rhs ihl ihr =>
      simp only [made, List.length_append, length_bridges, ihl, ihr, length_accepts_construct,
        Pattern.edgeCount]
  | star operand ih =>
      simp only [made, List.length_append, length_bridges, ih, List.length_cons,
        length_accepts_construct, Pattern.edgeCount]
      omega

namespace Automaton

theorem length_edges_ofPattern (p : Pattern) (regex : String) :
    (ofPattern p regex).edges.length = p.edgeCount := by
  rw [(edges_ofPattern_perm p regex).length_eq, Builder.length_made]

theorem count_accepting_ofPattern (p : Pattern) (regex : String) :
    (ofPattern p regex).accepting.count = p.acceptCount := by
  have hadds := Builder.adds_construct p .fresh
  rw [ofPattern_eq, StateSet.count, ← Builder.length_accepts_construct .fresh p]
  refine List.Perm.length_eq ((List.perm_ext_iff_of_nodup (StateSet.nodup_toList _)
    (Builder.nodup_accepts_construct .fresh p)).mpr fun i => ?_)
  rw [StateSet.mem_toList, Builder.contains_accepting_finish]
  exact and_iff_left_of_imp fun hi => (hadds.accepts_mem i hi).2

/-- The transitions of the automaton of a pattern are counted along the
pattern, with its accept states. They are at most quadratic in the number
of nodes, exactly so for a letter under stars and for nothing else, and
no linear bound holds, not even for patterns that a text spells. -/
theorem transition_growth (p : Pattern) (regex : String) :
    (ofPattern p regex).edges.length = p.edgeCount ∧
      (ofPattern p regex).accepting.count = p.acceptCount ∧
      (ofPattern p regex).edges.length ≤ p.size * (p.size + 1) / 2 ∧
      ((ofPattern p regex).edges.length = p.size * (p.size + 1) / 2 ↔
        ∃ c n, p = Pattern.star^[n] (.symbol c)) ∧
      ∀ factor offset : Nat, ∃ text q, Pattern.ofText text = .ok q ∧ text.length = q.size ∧
        factor * q.size + offset < (ofPattern q text).edges.length := by
  have hhalf : 2 * (p.size * (p.size + 1) / 2) = p.size * (p.size + 1) :=
    Nat.two_mul_div_two_of_even (Nat.even_mul_succ_self p.size)
  have hle := p.two_mul_edgeCount_le
  rw [length_edges_ofPattern]
  refine ⟨rfl, count_accepting_ofPattern p regex, by omega, ?_, fun factor offset => ?_⟩
  · rw [← Pattern.two_mul_edgeCount_eq_iff, ← hhalf]
    omega
  · obtain ⟨text, q, hq, hlength, hlt⟩ := Pattern.exists_lt_edgeCount factor offset
    exact ⟨text, q, hq, hlength, by rwa [length_edges_ofPattern]⟩

end Automaton

end Thompson
