import Mathlib.Data.List.Nodup
import Thompson.Proofs.Construction
import Thompson.Proofs.StateCount

/-!
# The states of a fragment

A construction makes states of its own, and its fragment lists each of
them once: their numbers are the ones from the size of the builder on
(`Builder.states_perm_construct`). The accept states are some of them, at
least one, and as many as the shape of the pattern says
(`Pattern.acceptCount`).

The same is true of every subtree, since it is built by a construction
too, from the builder that the subtrees in front of it have left. These
constructions are listed in `Builder.stages`; each of them is reported
when it is done, and nothing else is (`Builder.log_construct`).
-/

namespace Thompson

namespace Pattern

/-- The characters at the leaves, from left to right. -/
def symbols : Pattern → List Char
  | symbol c => [c]
  | union lhs rhs => lhs.symbols ++ rhs.symbols
  | concat lhs rhs => lhs.symbols ++ rhs.symbols
  | star operand => operand.symbols

/-- How many accept states a pattern takes. A concatenation accepts where
its right operand does. -/
def acceptCount : Pattern → Nat
  | symbol _ => 1
  | union lhs rhs => lhs.acceptCount + rhs.acceptCount
  | concat _ rhs => rhs.acceptCount
  | star operand => operand.acceptCount + 1

/-- A pattern and all patterns in it, each behind its operands. -/
def subtrees : Pattern → List Pattern
  | symbol c => [symbol c]
  | union lhs rhs => lhs.subtrees ++ rhs.subtrees ++ [union lhs rhs]
  | concat lhs rhs => lhs.subtrees ++ rhs.subtrees ++ [concat lhs rhs]
  | star operand => operand.subtrees ++ [star operand]

theorem stateCount_eq (p : Pattern) :
    p.stateCount = 2 * p.symbols.length + p.nodes.count .union + p.nodes.count .star := by
  induction p with
  | symbol c => rfl
  | union lhs rhs ihl ihr =>
      simp [stateCount, symbols, nodes, ihl, ihr]
      omega
  | concat lhs rhs ihl ihr =>
      simp [stateCount, symbols, nodes, ihl, ihr]
      omega
  | star operand ih =>
      simp [stateCount, symbols, nodes, ih]
      omega

theorem acceptCount_pos (p : Pattern) : 0 < p.acceptCount := by
  induction p with
  | symbol c => exact Nat.one_pos
  | union lhs rhs ihl ihr => exact Nat.add_pos_left ihl _
  | concat lhs rhs ihl ihr => exact ihr
  | star operand ih => exact Nat.succ_pos _

end Pattern

namespace Builder

variable {b : Builder} {p : Pattern}

/-! ## Which states -/

/-- The states that are listed are those that were made. -/
theorem states_perm_construct (b : Builder) (p : Pattern) :
    (b.construct p).fragment.states.toList.Perm (List.range' b.size p.stateCount) := by
  induction p generalizing b with
  | symbol c => exact .refl _
  | union lhs rhs ihl ihr =>
      have hl := ihl b
      have hr := ihr (b.construct lhs).builder
      rw [size_construct] at hr
      rw [construct, close, states_unionFragment, size_construct, size_construct,
        Pattern.stateCount, List.range'_1_concat, ← List.range'_append_1, ← Nat.add_assoc]
      exact (List.perm_append_singleton _ _).symm.trans ((hl.append hr).append_right _)
  | concat lhs rhs ihl ihr =>
      have hl := ihl b
      have hr := ihr (b.construct lhs).builder
      rw [size_construct] at hr
      rw [construct, close, states_concatFragment, Pattern.stateCount, ← List.range'_append_1]
      exact hl.append hr
  | star operand ih =>
      rw [construct, close, states_starFragment, size_construct, Pattern.stateCount,
        List.range'_1_concat]
      exact (ih b).append_right _

theorem mem_states_construct {i : Nat} :
    i ∈ (b.construct p).fragment.states.toList ↔ b.size ≤ i ∧ i < (b.construct p).builder.size := by
  rw [(states_perm_construct b p).mem_iff, List.mem_range'_1, size_construct]

theorem nodup_states_construct (b : Builder) (p : Pattern) :
    (b.construct p).fragment.states.toList.Nodup :=
  (states_perm_construct b p).nodup_iff.mpr List.nodup_range'

theorem length_states_construct (b : Builder) (p : Pattern) :
    (b.construct p).fragment.states.toList.length = p.stateCount := by
  rw [(states_perm_construct b p).length_eq, List.length_range']

/-! ## Which accept states -/

theorem length_accepts_construct (b : Builder) (p : Pattern) :
    (b.construct p).fragment.accepts.toList.length = p.acceptCount := by
  induction p generalizing b with
  | symbol c => rfl
  | union lhs rhs ihl ihr =>
      rw [construct, close, accepts_unionFragment, List.length_append, ihl, ihr,
        Pattern.acceptCount]
  | concat lhs rhs ihl ihr => exact ihr _
  | star operand ih =>
      rw [construct, close, accepts_starFragment, List.length_append, ih, Pattern.acceptCount]
      rfl

/-- The operands of a union have their states apart, and the start of a
star is new. -/
theorem nodup_accepts_construct (b : Builder) (p : Pattern) :
    (b.construct p).fragment.accepts.toList.Nodup := by
  induction p generalizing b with
  | symbol c => exact List.nodup_singleton _
  | union lhs rhs ihl ihr =>
      have hl := adds_construct lhs b
      have hr := adds_construct rhs (b.construct lhs).builder
      rw [construct, close, accepts_unionFragment, List.nodup_append]
      refine ⟨ihl b, ihr _, fun i hi j hj => ?_⟩
      have := hl.accepts_mem i hi
      have := hr.accepts_mem j hj
      omega
  | concat lhs rhs ihl ihr => exact ihr _
  | star operand ih =>
      have ho := adds_construct operand b
      rw [construct, close, accepts_starFragment, List.nodup_append]
      refine ⟨ih b, List.nodup_singleton _, fun i hi j hj => ?_⟩
      have := ho.accepts_mem i hi
      rw [List.mem_singleton.mp hj]
      omega

/-! ## What is reported -/

/-- The constructions of all patterns in a pattern, in the order in which
they are done, each with the builder that it starts from. -/
def stages (b : Builder) : Pattern → List (Builder × Pattern)
  | .symbol c => [(b, .symbol c)]
  | .union lhs rhs =>
    b.stages lhs ++ (b.construct lhs).builder.stages rhs ++ [(b, .union lhs rhs)]
  | .concat lhs rhs =>
    b.stages lhs ++ (b.construct lhs).builder.stages rhs ++ [(b, .concat lhs rhs)]
  | .star operand => b.stages operand ++ [(b, .star operand)]

theorem map_snd_stages (b : Builder) (p : Pattern) : (b.stages p).map Prod.snd = p.subtrees := by
  induction p generalizing b with
  | symbol c => rfl
  | union lhs rhs ihl ihr => simp [stages, Pattern.subtrees, ihl, ihr]
  | concat lhs rhs ihl ihr => simp [stages, Pattern.subtrees, ihl, ihr]
  | star operand ih => simp [stages, Pattern.subtrees, ih]

theorem log_construct (b : Builder) (p : Pattern) :
    (b.construct p).log =
      (b.stages p).map fun stage => (stage.1.construct stage.2).fragment.event stage.2.node := by
  induction p generalizing b with
  | symbol c => rfl
  | union lhs rhs ihl ihr =>
      rw [stages, List.map_append, List.map_append, ← ihl, ← ihr]
      rfl
  | concat lhs rhs ihl ihr =>
      rw [stages, List.map_append, List.map_append, ← ihl, ← ihr]
      rfl
  | star operand ih =>
      rw [stages, List.map_append, ← ih]
      rfl

theorem event_construct (b : Builder) (p : Pattern) :
    (b.construct p).fragment.event p.node =
      .built p.node (b.construct p).fragment.start p.acceptCount p.stateCount := by
  rw [Fragment.event, ← Array.length_toList, ← Array.length_toList, length_accepts_construct,
    length_states_construct]

/-! ## All of it -/

/-- What a construction that started from `b` has to show for the states
that it has made. -/
structure Accounts (b : Builder) (p : Pattern) (c : Construction) : Prop where
  size_eq : c.builder.size = b.size + p.stateCount
  states_nodup : c.fragment.states.toList.Nodup
  states_perm : c.fragment.states.toList.Perm (List.range' b.size p.stateCount)
  start_mem : c.fragment.start ∈ c.fragment.states.toList
  accepts_nodup : c.fragment.accepts.toList.Nodup
  accepts_subset : c.fragment.accepts.toList ⊆ c.fragment.states.toList
  accepts_ne_nil : c.fragment.accepts.toList ≠ []
  accepts_length : c.fragment.accepts.toList.length = p.acceptCount

theorem accounts_construct (b : Builder) (p : Pattern) : Accounts b p (b.construct p) where
  size_eq := size_construct b p
  states_nodup := nodup_states_construct b p
  states_perm := states_perm_construct b p
  start_mem := mem_states_construct.mpr (adds_construct p b).start_mem
  accepts_nodup := nodup_accepts_construct b p
  accepts_subset := fun i hi => mem_states_construct.mpr ((adds_construct p b).accepts_mem i hi)
  accepts_ne_nil := by
    rw [← List.length_pos_iff, length_accepts_construct]
    exact p.acceptCount_pos
  accepts_length := length_accepts_construct b p

/-- Two states for a symbol, one for a union and for a star: so many are
made, and the fragment accounts for each of them once. It is the same for
every pattern in the pattern, and the reports give these numbers. -/
theorem build_accounts (b : Builder) (p : Pattern) :
    p.stateCount = 2 * p.symbols.length + p.nodes.count .union + p.nodes.count .star ∧
      Accounts b p (b.build p) ∧
      (b.stages p).map Prod.snd = p.subtrees ∧
      (∀ stage ∈ b.stages p, Accounts stage.1 stage.2 (stage.1.build stage.2)) ∧
      (b.build p).log = (b.stages p).map fun stage =>
        .built stage.2.node (stage.1.build stage.2).fragment.start stage.2.acceptCount
          stage.2.stateCount := by
  simp only [build_eq]
  refine ⟨p.stateCount_eq, accounts_construct b p, map_snd_stages b p, ?_, ?_⟩
  · exact fun stage _ => accounts_construct stage.1 stage.2
  · rw [log_construct]
    exact List.map_congr_left fun stage _ => event_construct stage.1 stage.2

end Builder

end Thompson
