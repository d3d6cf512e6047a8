import Thompson.Document.Reader
import Thompson.Proofs.Basic
import Thompson.Proofs.Construction

/-!
# The automata that are handed out

`Document.Provided` lists the ways to an automaton: a pattern is
compiled, a syntax tree is constructed, a fragment is finished, or a
file is loaded. Built automata are well formed because their builder is
sound, loaded ones because they have no defect and their alphabet is
derived anew (`Provided.wellFormed`); what holds of every well-formed
automaton therefore holds of each of them.
-/

namespace Thompson

/-! ## Automata without defects -/

namespace Automaton

variable {a : Automaton}

theorem stateDefect?_eq_none_iff {size place : Nat} {s : State} :
    stateDefect? size place s = none ↔
      s.id = place ∧ ∀ label target, target ∈ s.transitions.targets label → target < size := by
  unfold stateDefect?
  by_cases hid : s.id = place
  · rw [if_neg (not_not_intro hid), Option.map_eq_none_iff, List.find?_eq_none]
    simp only [hid, true_and, Prod.forall, Transitions.mem_toList, decide_eq_true_eq, Nat.not_le]
  · simp [hid]

theorem defect?_eq_none_iff :
    a.defect? = none ↔ a.start < a.size ∧ a.accepting.size = a.size ∧
      ∀ (i : Nat) (s : State), a.states[i]? = some s →
        s.id = i ∧ ∀ label target, target ∈ s.transitions.targets label → target < a.size := by
  unfold defect?
  by_cases hstart : a.size ≤ a.start
  · simp [hstart, Nat.not_lt.mpr hstart]
  · by_cases hsize : a.accepting.size = a.size
    · rw [if_neg hstart, if_neg (not_not_intro hsize), List.findSome?_eq_none_iff]
      simp only [Nat.not_le.mp hstart, hsize, true_and, Prod.forall, stateDefect?_eq_none_iff,
        List.mem_zipIdx_iff_getElem?, Array.getElem?_toList]
      exact ⟨fun h i s hs => h s i hs, fun h s i hs => h i s hs⟩
    · rw [if_neg hstart, if_pos hsize]
      simp [hsize]

/-- Without a defect, all that is missing is the alphabet. -/
theorem wellFormed_of_defect?_eq_none (h : a.defect? = none) :
    WellFormed { a with alphabet := a.usedAlphabet } := by
  obtain ⟨hstart, hsize, hstates⟩ := defect?_eq_none_iff.mp h
  refine ⟨hstart, hsize, fun i s hs => (hstates i s hs).1, fun i label target htarget => ?_, rfl⟩
  unfold targets at htarget
  split at htarget
  · next s hs => exact (hstates i s hs).2 label target htarget
  · cases htarget

end Automaton

/-! ## Ways to an automaton -/

namespace Document

/-- The documents that the library makes. An automaton that comes from
no file has its flags at the beginning of a byte. -/
inductive Provided : Document → Prop where
  | compiled {regex : String} {a : Automaton} {log : List Event} :
      Automaton.compile regex = .ok (a, log) → Provided (.ofAutomaton a)
  | constructed (p : Pattern) (regex : String) : Provided (.ofAutomaton (.ofPattern p regex))
  | finished {ps : List Pattern} {f : Fragment} (regex : String) :
      f ∈ (Builder.fresh.buildAll ps).2 →
      Provided (.ofAutomaton ((Builder.fresh.buildAll ps).1.finish f regex))
  | loaded {file : String} {text : List (Option Char)} {d : Document} :
      (loadText file text).1 = .ok d → Provided d

theorem rebuild_eq (d : Document) :
    d.rebuild.1 = { d with automaton.alphabet := d.automaton.usedAlphabet } := by
  unfold rebuild
  by_cases h : d.automaton.usedAlphabet = d.automaton.alphabet
  · simp [h]
  · simp [h]

/-- What it takes to load a text. -/
theorem loadText_eq_ok {file : String} {text : List (Option Char)} {d : Document}
    (h : (loadText file text).1 = .ok d) :
    ∃ found, ofText text = .ok found ∧ found.automaton.defect? = none ∧
      d = { found with automaton.alphabet := found.automaton.usedAlphabet } := by
  unfold loadText at h
  cases htext : ofText text with
  | error e =>
      rw [htext] at h
      cases h
  | ok found =>
      rw [htext] at h
      cases hdefect : found.automaton.defect? with
      | some defect =>
          simp only [hdefect] at h
          cases h
      | none =>
          simp only [hdefect, rebuild_eq] at h
          exact ⟨found, rfl, hdefect, (Except.ok.inj h).symm⟩

theorem exists_pattern_of_compile {regex : String} {a : Automaton} {log : List Event}
    (h : Automaton.compile regex = .ok (a, log)) :
    ∃ p, Pattern.ofText regex = .ok p ∧ a = .ofPattern p regex := by
  obtain ⟨p, hp, h⟩ := bind_eq_ok h
  exact ⟨p, hp, congrArg Prod.fst (Except.ok.inj h).symm⟩

theorem compile_star :
    Automaton.compile "a*" = .ok (Automaton.construct (.star (.symbol 'a')) "a*") := by
  have hparse : Pattern.ofText "a*" = .ok (.star (.symbol 'a')) := by decide +kernel
  rw [Automaton.compile, hparse]
  rfl

theorem Provided.wellFormed {d : Document} (h : d.Provided) : d.automaton.WellFormed := by
  cases h with
  | compiled hcompile =>
      obtain ⟨p, -, rfl⟩ := exists_pattern_of_compile hcompile
      exact Automaton.wellFormed_ofPattern p _
  | constructed p regex => exact Automaton.wellFormed_ofPattern p regex
  | @finished ps f regex hf =>
      obtain ⟨p, hp⟩ := Builder.exists_holds_of_mem Builder.sound_fresh hf
      exact hp.wellFormed_finish (Builder.sound_fresh.buildAll ps) regex
  | loaded hload =>
      obtain ⟨found, -, hdefect, rfl⟩ := loadText_eq_ok hload
      exact Automaton.wellFormed_of_defect?_eq_none hdefect

/-! ## Running a provided automaton -/

/-- On every text the run and the sets of `startSet` and `step` agree:
the verdict is that of the last set, and the log reports the sets in
order. -/
theorem Provided.run_follows_steps {d : Document} (h : d.Provided) (text : String) :
    d.automaton.accepts text =
        d.automaton.isAccepting (text.toList.foldl d.automaton.step d.automaton.startSet) ∧
      d.automaton.Reports d.automaton.startSet 0 text.toList (d.automaton.run text).log :=
  Automaton.run_spec h.wellFormed text

theorem run_follows_steps_star :
    let a := Automaton.ofPattern (.star (.symbol 'a')) "a*"
    (ofAutomaton a).Provided ∧
      a.accepts "ab" = a.isAccepting ("ab".toList.foldl a.step a.startSet) ∧
      a.Reports a.startSet 0 "ab".toList (a.run "ab").log :=
  ⟨.constructed _ _, Provided.run_follows_steps (.constructed _ _) "ab"⟩

end Document

end Thompson
