import Mathlib.Logic.Relation
import Thompson.Proofs.Bounds
import Thompson.Proofs.DraftText
import Thompson.Proofs.Loading

/-!
# Closures and steps as reachable states

`epsilonClosure` gives the states that epsilon transitions lead to from
the members of a set, `step` those that they lead to behind one
transition on a character, and stepping through a word those at the ends
of the paths that spell it. All of this is about the graph of the
automaton only, which may have epsilon cycles, and about sets of any
length: a member past the last state counts for nothing, whether it is
cut off in advance or passed over on the way.

The laws of a closure follow from one notion. A set is
`EpsilonClosed` if no epsilon transition leads out of it; closures and
steps are, and a set that is has itself as its closure.
-/

namespace Thompson

namespace StateSet

/-- The members of both sets, over the states of the longer one. -/
def union (s t : StateSet) : StateSet :=
  ⟨Array.ofFn fun i : Fin (max s.size t.size) => s.contains i || t.contains i⟩

@[simp] theorem size_union (s t : StateSet) : (s.union t).size = max s.size t.size :=
  Array.size_ofFn

theorem contains_union {s t : StateSet} {i : Nat} :
    (s.union t).contains i = true ↔ s.contains i = true ∨ t.contains i = true := by
  by_cases hi : i < max s.size t.size
  · simp [union, contains, Array.getD_eq_getD_getElem?, hi]
  · have hs := contains_eq_false_of_size_le (s := s) (i := i) (by omega)
    have ht := contains_eq_false_of_size_le (s := t) (i := i) (by omega)
    have hst := contains_eq_false_of_size_le (s := s.union t) (i := i) (by rw [size_union]; omega)
    rw [hs, ht, hst, or_self]

end StateSet

namespace Automaton

variable {a : Automaton} {s t : StateSet}

/-! ## Epsilon reachability -/

/-- Epsilon transitions, any number of them, lead from one state to the
other. -/
def Reaches (a : Automaton) : Nat → Nat → Prop :=
  Relation.ReflTransGen fun i j => a.Leads i .epsilon j

theorem reaches_iff_path {i j : Nat} : a.Reaches i j ↔ Path a.Leads i [] j := by
  constructor
  · intro h
    induction h using Relation.ReflTransGen.head_induction_on with
    | refl => exact .nil j
    | head hstep _ ih => exact .epsilon hstep ih
  · intro h
    generalize hread : ([] : List Char) = read at h
    induction h with
    | nil => exact .refl
    | epsilon hstep _ ih => exact .head hstep (ih hread)
    | char => cases hread

theorem source_lt_of_leads {i j : Nat} {label : Label} (h : a.Leads i label j) : i < a.size := by
  unfold Leads targets at h
  split at h
  · next s hs => exact (Array.getElem?_eq_some_iff.mp hs).1
  · cases h

/-! ## Members -/

@[simp] theorem size_epsilonClosure (a : Automaton) (s : StateSet) :
    (a.epsilonClosure s).size = a.size := by
  rw [epsilonClosure, size_close, StateSet.size_empty]

@[simp] theorem size_step (a : Automaton) (s : StateSet) (c : Char) :
    (a.step s c).size = a.size := by
  rw [step, size_close, StateSet.size_empty]

theorem WellFormed.contains_epsilonClosure (h : a.WellFormed) {q : Nat} :
    (a.epsilonClosure s).contains q = true ↔
      ∃ p < a.size, s.contains p = true ∧ a.Reaches p q := by
  rw [epsilonClosure, contains_close_empty h]
  simp only [StateSet.mem_toList, reaches_iff_path]
  exact exists_congr fun p => and_left_comm

/-- Whatever a transition starts from is a state, so members past the
last one need no test of their own. -/
theorem WellFormed.contains_step (h : a.WellFormed) {c : Char} {q : Nat} :
    (a.step s c).contains q = true ↔
      ∃ p < a.size, s.contains p = true ∧ ∃ m, a.Leads p (.char c) m ∧ a.Reaches m q := by
  rw [step, contains_close_empty h]
  simp only [mem_moves, StateSet.mem_toList, reaches_iff_path]
  constructor
  · rintro ⟨m, ⟨p, hp, hchar⟩, -, hpath⟩
    exact ⟨p, source_lt_of_leads hchar, hp, m, hchar, hpath⟩
  · rintro ⟨p, -, hp, m, hchar, hpath⟩
    exact ⟨m, ⟨p, hp, hchar⟩, h.lt_of_leads _ _ _ hchar, hpath⟩

/-! ## Laws of the closure -/

/-- One flag for each state, and no epsilon transition leads out. -/
structure EpsilonClosed (a : Automaton) (s : StateSet) : Prop where
  size_eq : s.size = a.size
  closed : ∀ p q, s.contains p = true → a.Reaches p q → s.contains q = true

theorem EpsilonClosed.epsilonClosure_eq (h : a.WellFormed) (hs : a.EpsilonClosed s) :
    a.epsilonClosure s = s := by
  refine StateSet.ext (by rw [size_epsilonClosure, hs.size_eq]) fun q => ?_
  rw [h.contains_epsilonClosure]
  constructor
  · rintro ⟨p, -, hp, hpq⟩
    exact hs.closed p q hp hpq
  · intro hq
    have hlt := StateSet.lt_size_of_contains hq
    exact ⟨q, hs.size_eq ▸ hlt, hq, .refl⟩

theorem WellFormed.epsilonClosed_epsilonClosure (h : a.WellFormed) (s : StateSet) :
    a.EpsilonClosed (a.epsilonClosure s) where
  size_eq := size_epsilonClosure a s
  closed p q hp hpq := by
    obtain ⟨i, hi, hmem, hip⟩ := h.contains_epsilonClosure.mp hp
    exact h.contains_epsilonClosure.mpr ⟨i, hi, hmem, hip.trans hpq⟩

theorem WellFormed.epsilonClosed_step (h : a.WellFormed) (s : StateSet) (c : Char) :
    a.EpsilonClosed (a.step s c) where
  size_eq := size_step a s c
  closed p q hp hpq := by
    obtain ⟨i, hi, hmem, m, hchar, hmp⟩ := h.contains_step.mp hp
    exact h.contains_step.mpr ⟨i, hi, hmem, m, hchar, hmp.trans hpq⟩

theorem WellFormed.epsilonClosure_mono (h : a.WellFormed)
    (hst : ∀ p, s.contains p = true → t.contains p = true) {q : Nat}
    (hq : (a.epsilonClosure s).contains q = true) : (a.epsilonClosure t).contains q = true := by
  obtain ⟨p, hlt, hp, hpq⟩ := h.contains_epsilonClosure.mp hq
  exact h.contains_epsilonClosure.mpr ⟨p, hlt, hst p hp, hpq⟩

theorem WellFormed.epsilonClosure_union (h : a.WellFormed) (s t : StateSet) :
    a.epsilonClosure (s.union t) = (a.epsilonClosure s).union (a.epsilonClosure t) := by
  refine StateSet.ext (by simp) fun q => ?_
  rw [StateSet.contains_union, h.contains_epsilonClosure]
  constructor
  · rintro ⟨p, hlt, hp, hpq⟩
    have closes : ∀ {u : StateSet}, u.contains p = true → (a.epsilonClosure u).contains q = true :=
      fun hu => h.contains_epsilonClosure.mpr ⟨p, hlt, hu, hpq⟩
    exact (StateSet.contains_union.mp hp).imp closes closes
  · rintro (hq | hq)
    · obtain ⟨p, hlt, hp, hpq⟩ := h.contains_epsilonClosure.mp hq
      exact ⟨p, hlt, StateSet.contains_union.mpr (Or.inl hp), hpq⟩
    · obtain ⟨p, hlt, hp, hpq⟩ := h.contains_epsilonClosure.mp hq
      exact ⟨p, hlt, StateSet.contains_union.mpr (Or.inr hp), hpq⟩

/-! ## All of it -/

/-- What closures and steps compute, of sets of any length, and the laws
that follow. The computations with checked accesses are among them, which
cut off members that are no states where the others pass over them. -/
structure StepsByReaching (a : Automaton) : Prop where
  closure_checked (s : StateSet) : a.epsilonClosure? s = some (a.epsilonClosure s)
  closure_size (s : StateSet) : (a.epsilonClosure s).size = a.size
  closure_contains (s : StateSet) (q : Nat) : (a.epsilonClosure s).contains q = true ↔
    ∃ p < a.size, s.contains p = true ∧ a.Reaches p q
  closure_closure (s : StateSet) : a.epsilonClosure (a.epsilonClosure s) = a.epsilonClosure s
  closure_mono (s t : StateSet) : (∀ p, s.contains p = true → t.contains p = true) →
    ∀ q, (a.epsilonClosure s).contains q = true → (a.epsilonClosure t).contains q = true
  closure_union (s t : StateSet) :
    a.epsilonClosure (s.union t) = (a.epsilonClosure s).union (a.epsilonClosure t)
  step_checked (s : StateSet) (c : Char) : a.step? s c = some (a.step s c)
  step_size (s : StateSet) (c : Char) : (a.step s c).size = a.size
  step_contains (s : StateSet) (c : Char) (q : Nat) : (a.step s c).contains q = true ↔
    ∃ p < a.size, s.contains p = true ∧ ∃ m, a.Leads p (.char c) m ∧ a.Reaches m q
  closure_step (s : StateSet) (c : Char) : a.epsilonClosure (a.step s c) = a.step s c
  word_contains (word : List Char) (q : Nat) :
    (word.foldl a.step a.startSet).contains q = true ↔ Path a.Leads a.start word q

theorem WellFormed.stepsByReaching (h : a.WellFormed) : a.StepsByReaching where
  closure_checked := h.epsilonClosure?_eq
  closure_size := size_epsilonClosure a
  closure_contains _ _ := h.contains_epsilonClosure
  closure_closure s := (h.epsilonClosed_epsilonClosure s).epsilonClosure_eq h
  closure_mono _ _ hst _ := h.epsilonClosure_mono hst
  closure_union := h.epsilonClosure_union
  step_checked := h.step?_eq
  step_size := size_step a
  step_contains _ _ _ := h.contains_step
  closure_step s c := (h.epsilonClosed_step s c).epsilonClosure_eq h
  word_contains := contains_foldl_step_startSet h

end Automaton

namespace Document

/-- On every automaton that is handed out, closures and steps are exactly
the states that can be reached. -/
theorem Provided.steps_by_reaching {d : Document} (h : d.Provided) :
    d.automaton.StepsByReaching :=
  h.wellFormed.stepsByReaching

/-- A file with an epsilon cycle, an epsilon loop, a target that is
listed twice and a label without targets. -/
theorem steps_by_reaching_cycle :
    let d : Draft := ⟨[⟨0, [(.char 'a', #[1]), (.epsilon, #[1, 1, 0])]⟩,
      ⟨1, [(.epsilon, #[0]), (.char 'b', #[])]⟩], 1, ⟨3, 2, [0x08], by decide⟩, [], "r"⟩
    ∃ doc log, loadText "cycle.json" d.text = (.ok doc, log) ∧ doc.Provided ∧
      doc.automaton.StepsByReaching := by
  intro d
  have hspells : SpellsText d.text d :=
    Draft.spellsText_text ⟨by decide, by decide, by decide, by decide⟩
  obtain ⟨doc, log, hload⟩ := exists_loadText hspells (by decide) (by decide) "cycle.json"
  have hprovided : doc.Provided := .loaded (congrArg Prod.fst hload)
  exact ⟨doc, log, hload, hprovided, hprovided.steps_by_reaching⟩

end Document

end Thompson
