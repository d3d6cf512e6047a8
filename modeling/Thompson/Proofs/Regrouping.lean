import Thompson.Document.Writer
import Thompson.Drawing.Dot
import Thompson.Proofs.Relocation

/-!
# Concatenations grouped otherwise

However the operands of several concatenations are grouped, the automaton
is the same, to the order of the targets of each state
(`Builder.build_eq_of_regroups`). The two groupings add the same
transitions, from the accept states of each operand to the start of the
next one, but in another order: with the operands on the right grouped
first, the third one is built before the first has its transitions.

So two things are to be shown. Transitions that are added to states which
are there already make no difference to a construction
(`Builder.construct_connectAll`), and those from the accept states of two
operands can change places, because no state accepts for both
(`Builder.connectAll_comm`).
-/

namespace Thompson

/-- The same but for the grouping of concatenations, which may differ
anywhere. -/
inductive Pattern.Regroups : Pattern → Pattern → Prop where
  | assoc (p q r : Pattern) : Regroups (.concat (.concat p q) r) (.concat p (.concat q r))
  | refl (p : Pattern) : Regroups p p
  | symm {p q : Pattern} : Regroups p q → Regroups q p
  | trans {p q r : Pattern} : Regroups p q → Regroups q r → Regroups p r
  | union {p p' q q' : Pattern} : Regroups p p' → Regroups q q' →
      Regroups (.union p q) (.union p' q')
  | concat {p p' q q' : Pattern} : Regroups p p' → Regroups q q' →
      Regroups (.concat p q) (.concat p' q')
  | star {p p' : Pattern} : Regroups p p' → Regroups (.star p) (.star p')

namespace Builder

/-! ## Transitions that change places -/

theorem connect_comm (b : Builder) {source source' : Nat} (h : source ≠ source')
    (label label' : Label) (target target' : Nat) :
    (b.connect source label target).connect source' label' target' =
      (b.connect source' label' target').connect source label target := by
  refine ext (Array.ext_getElem? fun i => ?_) fun _ => Iff.rfl
  simp only [getElem?_connect]
  by_cases hi : source = i
  · have hi' : source' ≠ i := fun hi' => h (hi.trans hi'.symm)
    simp only [if_pos hi, if_neg hi']
  · simp only [if_neg hi]

theorem connectAll_connect (b : Builder) {sources : Array Nat} {source : Nat}
    (h : source ∉ sources.toList) (target target' : Nat) :
    (b.connect source .epsilon target').connectAll sources target =
      (b.connectAll sources target).connect source .epsilon target' := by
  rw [connectAll_eq, connectAll_eq]
  generalize sources.toList = sources at h ⊢
  induction sources generalizing b with
  | nil => rfl
  | cons first sources ih =>
      rw [List.foldl_cons, List.foldl_cons, connect_comm b (List.ne_of_not_mem_cons h),
        ih _ (List.not_mem_of_not_mem_cons h)]

/-- Transitions from different states can be added in any order. -/
theorem connectAll_comm (b : Builder) {sources sources' : Array Nat}
    (h : sources.toList.Disjoint sources'.toList) (target target' : Nat) :
    (b.connectAll sources target).connectAll sources' target' =
      (b.connectAll sources' target').connectAll sources target := by
  rw [connectAll_eq _ sources, connectAll_eq _ sources]
  generalize sources.toList = sources at h ⊢
  induction sources generalizing b with
  | nil => rfl
  | cons source sources ih =>
      obtain ⟨hsource, hrest⟩ := List.disjoint_cons_left.mp h
      rw [List.foldl_cons, List.foldl_cons, ih _ hrest, connectAll_connect b hsource]

/-! ## Transitions that were there before -/

/-- A transition from a state of `base` is one of `base`, whatever is put
behind. -/
theorem onto_connect (b base : Builder) {source : Nat} (h : source < base.size) (label : Label)
    (target : Nat) :
    b.onto (base.connect source label target) = (b.onto base).connect source label target := by
  refine ext (Array.ext_getElem? fun i => ?_) fun _ => Iff.rfl
  have hsize : (base.connect source label target).states.size = base.states.size :=
    size_connect base source label target
  rw [getElem?_connect]
  simp only [onto, size_connect, Array.getElem?_append, hsize, getElem?_connect]
  by_cases hi : i < base.states.size
  · simp only [if_pos hi]
  · have hne : source ≠ i := by
      rintro rfl
      exact hi h
    simp only [if_neg hi, if_neg hne]

theorem onto_connectAll (b base : Builder) {sources : Array Nat}
    (h : ∀ i ∈ sources.toList, i < base.size) (target : Nat) :
    b.onto (base.connectAll sources target) = (b.onto base).connectAll sources target := by
  rw [connectAll_eq, connectAll_eq]
  generalize sources.toList = sources at h ⊢
  induction sources generalizing base with
  | nil => rfl
  | cons source sources ih =>
      obtain ⟨hsource, hrest⟩ := List.forall_mem_cons.mp h
      rw [List.foldl_cons, List.foldl_cons, ih, onto_connect b base hsource]
      intro i hi
      rw [size_connect]
      exact hrest i hi

/-- A construction does not look at the states that it finds. -/
theorem construct_connectAll (b : Builder) {sources : Array Nat}
    (h : ∀ i ∈ sources.toList, i < b.size) (target : Nat) (p : Pattern) :
    ((b.connectAll sources target).construct p).builder =
        (b.construct p).builder.connectAll sources target ∧
      ((b.connectAll sources target).construct p).fragment = (b.construct p).fragment := by
  obtain ⟨hbuilder, hfragment⟩ := construct_eq_onto b p
  obtain ⟨hbuilder', hfragment'⟩ := construct_eq_onto (b.connectAll sources target) p
  rw [hbuilder, hfragment, hbuilder', hfragment', size_connectAll, onto_connectAll _ b h]
  exact ⟨rfl, rfl⟩

/-! ## Three operands -/

theorem construct_assoc (b : Builder) (p q r : Pattern) :
    (b.construct (.concat (.concat p q) r)).builder =
        (b.construct (.concat p (.concat q r))).builder ∧
      (b.construct (.concat (.concat p q) r)).fragment =
        (b.construct (.concat p (.concat q r))).fragment := by
  have hp := adds_construct p b
  have hq := adds_construct q (b.construct p).builder
  have hpq : (b.construct p).fragment.accepts.toList.Disjoint
      ((b.construct p).builder.construct q).fragment.accepts.toList := by
    intro i hi hi'
    have := hp.accepts_mem i hi
    have := hq.accepts_mem i hi'
    omega
  obtain ⟨hbuilder, hfragment⟩ := construct_connectAll
    ((b.construct p).builder.construct q).builder (hp.accepts_lt hq)
    ((b.construct p).builder.construct q).fragment.start r
  simp only [construct, close, concatFragment, hbuilder, hfragment]
  exact ⟨connectAll_comm _ hpq _ _, by rw [Array.append_assoc]⟩

/-! ## Anywhere in a pattern -/

/-- The rule of a node sees its operands through their fragments and the
builder only. -/
theorem construct_eq_of_regroups {p q : Pattern} (h : p.Regroups q) (b : Builder) :
    (b.construct p).builder = (b.construct q).builder ∧
      (b.construct p).fragment = (b.construct q).fragment := by
  induction h generalizing b with
  | assoc p q r => exact construct_assoc b p q r
  | refl p => exact ⟨rfl, rfl⟩
  | symm _ ih => exact ⟨(ih b).1.symm, (ih b).2.symm⟩
  | trans _ _ ih ih' => exact ⟨(ih b).1.trans (ih' b).1, (ih b).2.trans (ih' b).2⟩
  | @union p p' q q' _ _ ihp ihq =>
      obtain ⟨hp, hpf⟩ := ihp b
      obtain ⟨hq, hqf⟩ := ihq (b.construct p').builder
      simp only [construct, close, hp, hpf, hq, hqf, and_self]
  | @concat p p' q q' _ _ ihp ihq =>
      obtain ⟨hp, hpf⟩ := ihp b
      obtain ⟨hq, hqf⟩ := ihq (b.construct p').builder
      simp only [construct, close, hp, hpf, hq, hqf, and_self]
  | @star p p' _ ih =>
      obtain ⟨hp, hpf⟩ := ih b
      simp only [construct, close, hp, hpf, and_self]

/-- Two patterns that differ in the grouping of concatenations only have
the same fragment in the same builder, and so the same automaton, with
the same drawing and the same saved text. -/
theorem build_eq_of_regroups {p q : Pattern} (h : p.Regroups q) :
    (∀ b : Builder, (b.build p).fragment = (b.build q).fragment ∧
      (b.build p).builder.states = (b.build q).builder.states ∧
      (b.build p).builder.alphabet = (b.build q).builder.alphabet) ∧
      ∀ regex : String, Automaton.ofPattern p regex = Automaton.ofPattern q regex ∧
        (Automaton.ofPattern p regex).dot = (Automaton.ofPattern q regex).dot ∧
        (Document.ofAutomaton (.ofPattern p regex)).textListing =
          (Document.ofAutomaton (.ofPattern q regex)).textListing := by
  have hautomaton : ∀ regex, Automaton.ofPattern p regex = Automaton.ofPattern q regex := by
    intro regex
    obtain ⟨hbuilder, hfragment⟩ := construct_eq_of_regroups h .fresh
    rw [Automaton.ofPattern_eq, Automaton.ofPattern_eq, hbuilder, hfragment]
  refine ⟨fun b => ?_, fun regex => ?_⟩
  · obtain ⟨hbuilder, hfragment⟩ := construct_eq_of_regroups h b
    rw [build_eq, build_eq, hbuilder]
    exact ⟨hfragment, rfl, rfl⟩
  · rw [hautomaton]
    exact ⟨rfl, rfl, rfl⟩

/-- Under a star, with an operand that accepts in two states. -/
theorem build_eq_of_regroups_star :
    let p := Pattern.star (.concat (.concat (.star (.symbol 'a')) (.symbol 'b')) (.symbol 'c'))
    let q := Pattern.star (.concat (.star (.symbol 'a')) (.concat (.symbol 'b') (.symbol 'c')))
    p.Regroups q ∧
      (∀ b : Builder, (b.build p).fragment = (b.build q).fragment ∧
        (b.build p).builder.states = (b.build q).builder.states ∧
        (b.build p).builder.alphabet = (b.build q).builder.alphabet) ∧
      ∀ regex : String, Automaton.ofPattern p regex = Automaton.ofPattern q regex ∧
        (Automaton.ofPattern p regex).dot = (Automaton.ofPattern q regex).dot ∧
        (Document.ofAutomaton (.ofPattern p regex)).textListing =
          (Document.ofAutomaton (.ofPattern q regex)).textListing := by
  intro p q
  have h : p.Regroups q := .star (.assoc _ _ _)
  exact ⟨h, build_eq_of_regroups h⟩

end Builder

end Thompson
