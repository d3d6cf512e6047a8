import Mathlib.Logic.Function.Iterate
import Thompson.Construction.Walk

/-!
# The walk finds what it needs

The walk with two stacks builds what the recursion does
(`Builder.walk_eq_construct`). Two things carry the proof.

`Walk.Suffices` relates the stacks by their heights only: with so many
fragments built, every node to come finds its operands, and one fragment
is left in the end. A turn keeps it, so it holds at any time, and
therefore no node is passed over.

What the walk builds is said for any stacks below: a pattern in front
takes its turns, and afterwards its fragment is on top of the others
(`Walk.run_pending`).
-/

namespace Thompson

/-- The node whose fragment an event reports, if it reports one. -/
def Event.node? : Event → Option Pattern.Node
  | .built node _ _ _ => some node
  | _ => none

namespace Builder

/-! ## Operands -/

/-- A node that finds as many fragments as it has operands takes these
and joins them. -/
theorem exists_join?_eq (b : Builder) (p : Pattern) {built : List Fragment}
    (h : p.operands.length ≤ built.length) :
    ∃ joined below, b.join? built p.node = (some joined, below) ∧
      below.length = built.length - p.operands.length := by
  cases p with
  | symbol c => exact ⟨_, built, rfl, rfl⟩
  | union l r =>
      match built, h with
      | rhs :: lhs :: below, _ => exact ⟨_, below, rfl, rfl⟩
  | concat l r =>
      match built, h with
      | rhs :: lhs :: below, _ => exact ⟨_, below, rfl, rfl⟩
  | star o =>
      match built, h with
      | operand :: below, _ => exact ⟨_, below, rfl, rfl⟩

namespace Walk

/-! ## Heights of the stacks -/

/-- With `n` fragments built, each node to come finds its operands, and
one fragment is left in the end. -/
def Suffices : List (Pattern × Bool) → Nat → Prop
  | [], n => n = 1
  | (_, false) :: rest, n => Suffices rest (n + 1)
  | (p, true) :: rest, n => p.operands.length ≤ n ∧ Suffices rest (n - p.operands.length + 1)

theorem suffices_map_append (ps : List Pattern) (rest : List (Pattern × Bool)) (n : Nat) :
    Suffices (ps.map (·, false) ++ rest) n ↔ Suffices rest (n + ps.length) := by
  induction ps generalizing n with
  | nil => rfl
  | cons p ps ih =>
      rw [List.map_cons, List.cons_append, Suffices, ih, List.length_cons, Nat.add_right_comm,
        Nat.add_assoc]

/-- The operands of a pattern are there once they have had their turns. -/
theorem suffices_operands {p : Pattern} {rest : List (Pattern × Bool)} {n : Nat}
    (h : Suffices ((p, false) :: rest) n) :
    Suffices (p.operands.map (·, false) ++ (p, true) :: rest) n := by
  rw [suffices_map_append, Suffices, Nat.add_sub_cancel]
  exact ⟨Nat.le_add_left _ _, h⟩

variable {w : Walk} {p : Pattern} {rest : List (Pattern × Bool)} {built below : List Fragment}
  {b : Builder} {joined : Builder × Fragment} {log : List Event}

theorem next_of_join? (h : b.join? built p.node = (some joined, below)) :
    next ⟨(p, true) :: rest, built, b, log⟩ =
      ⟨rest, joined.2 :: below, joined.1, joined.2.event p.node :: log⟩ := by
  simp only [next, h]

theorem suffices_next (h : Suffices w.pending w.built.length) :
    Suffices w.next.pending w.next.built.length := by
  obtain ⟨pending, built, b, log⟩ := w
  match pending, h with
  | [], h => exact h
  | (p, false) :: rest, h => exact suffices_operands h
  | (p, true) :: rest, ⟨henough, hrest⟩ =>
      obtain ⟨joined, below, hjoin, hbelow⟩ := b.exists_join?_eq p henough
      rw [next_of_join? hjoin, List.length_cons, hbelow]
      exact hrest

theorem suffices_iterate (h : Suffices w.pending w.built.length) (n : Nat) :
    Suffices (next^[n] w).pending (next^[n] w).built.length := by
  induction n generalizing w with
  | zero => exact h
  | succ n ih => exact ih (suffices_next h)

theorem suffices_start (b : Builder) (p : Pattern) :
    Suffices (start b p).pending (start b p).built.length := by
  simp [start, Suffices]

/-- If the next thing to do is to join the operands of a node, they are
there. -/
def Served (w : Walk) : Prop :=
  ∀ p rest, w.pending = (p, true) :: rest →
    ∃ joined below, w.builder.join? w.built p.node = (some joined, below)

theorem served_of_suffices (h : Suffices w.pending w.built.length) : w.Served := by
  intro p rest hpending
  rw [hpending] at h
  obtain ⟨joined, below, hjoin, -⟩ := w.builder.exists_join?_eq p h.1
  exact ⟨joined, below, hjoin⟩

/-! ## What is built -/

theorem run_of_pending_eq_nil (h : w.pending = []) : w.run = w := by
  rw [run]
  split
  · rfl
  · next hpending =>
      rw [h] at hpending
      cases hpending

theorem run_eq_run_next (w : Walk) : w.run = w.next.run := by
  cases hpending : w.pending with
  | nil =>
      have hnext : w.next = w := by
        rw [next, hpending]
      rw [hnext]
  | cons entry rest =>
      rw [run]
      split
      · next hnil =>
          rw [hpending] at hnil
          cases hnil
      · rfl

theorem run_eq_iterate (w : Walk) : w.run = next^[turns w.pending] w := by
  fun_induction run w with
  | case1 w hpending =>
      rw [hpending]
      rfl
  | case2 w entry rest hpending ih => rw [ih, ← turns_next hpending, Function.iterate_succ_apply]

theorem run_operands :
    run ⟨(p, false) :: rest, built, b, log⟩ =
      run ⟨p.operands.map (·, false) ++ (p, true) :: rest, built, b, log⟩ :=
  run_eq_run_next _

theorem run_join (h : b.join? built p.node = (some joined, below)) :
    run ⟨(p, true) :: rest, built, b, log⟩ =
      run ⟨rest, joined.2 :: below, joined.1, joined.2.event p.node :: log⟩ := by
  rw [run_eq_run_next, next_of_join? h]

/-- A pattern in front has its fragment built on top of the others, and
its nodes reported, before anything below it has its turn. -/
theorem run_pending (p : Pattern) (rest : List (Pattern × Bool)) (built : List Fragment)
    (b : Builder) (log : List Event) :
    run ⟨(p, false) :: rest, built, b, log⟩ =
      run ⟨rest, (b.construct p).fragment :: built, (b.construct p).builder,
        (b.construct p).log.reverse ++ log⟩ := by
  induction p generalizing rest built b log with
  | symbol c =>
      rw [run_operands]
      exact run_join rfl
  | union lhs rhs ihl ihr =>
      rw [run_operands]
      show run ⟨(lhs, false) :: (rhs, false) :: (.union lhs rhs, true) :: rest, _, _, _⟩ = _
      rw [ihl, ihr, run_join rfl]
      simp [construct, close, Pattern.node]
  | concat lhs rhs ihl ihr =>
      rw [run_operands]
      show run ⟨(lhs, false) :: (rhs, false) :: (.concat lhs rhs, true) :: rest, _, _, _⟩ = _
      rw [ihl, ihr, run_join rfl]
      simp [construct, close, Pattern.node]
  | star operand ih =>
      rw [run_operands]
      show run ⟨(operand, false) :: (.star operand, true) :: rest, _, _, _⟩ = _
      rw [ih, run_join rfl]
      simp [construct, close, Pattern.node]

theorem run_start (b : Builder) (p : Pattern) :
    (start b p).run =
      ⟨[], [(b.construct p).fragment], (b.construct p).builder, (b.construct p).log.reverse⟩ := by
  rw [start, run_pending, List.append_nil, run_of_pending_eq_nil rfl]

end Walk

/-! ## What is reported -/

/-- The nodes of a pattern are reported in post-order, each once. -/
theorem map_node?_log_construct (b : Builder) (p : Pattern) :
    (b.construct p).log.map Event.node? = p.nodes.map some := by
  induction p generalizing b with
  | symbol c => rfl
  | union lhs rhs ihl ihr =>
      simp only [construct, close, List.map_append, ihl, ihr, Pattern.nodes]
      rfl
  | concat lhs rhs ihl ihr =>
      simp only [construct, close, List.map_append, ihl, ihr, Pattern.nodes]
      rfl
  | star operand ih =>
      simp only [construct, close, List.map_append, ih, Pattern.nodes]
      rfl

/-- The walk with two stacks gives the fragment, the builder and the log
of the recursion. Each node puts its operands on the one stack and takes
their fragments off the other, once each, and finds them whenever it does;
one fragment is left. The nodes are reported in post-order. -/
theorem walk_eq_construct (b : Builder) (p : Pattern) :
    b.walk? p = some (b.construct p) ∧ b.build p = b.construct p ∧
      (Walk.start b p).run = Walk.next^[2 * p.size] (Walk.start b p) ∧
      (∀ n, (Walk.next^[n] (Walk.start b p)).Served) ∧
      (Walk.start b p).run.built = [(b.construct p).fragment] ∧
      (b.construct p).log.map Event.node? = p.nodes.map some := by
  have hrun := Walk.run_start b p
  refine ⟨?_, build_eq b p, Walk.run_eq_iterate _, ?_, ?_, map_node?_log_construct b p⟩
  · simp [walk?, hrun]
  · intro n
    exact Walk.served_of_suffices (Walk.suffices_iterate (Walk.suffices_start b p) n)
  · rw [hrun]

end Builder

end Thompson
