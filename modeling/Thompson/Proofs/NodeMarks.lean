import Thompson.Drawing.Viewer
import Thompson.Proofs.DrawnText
import Thompson.Proofs.Provided

/-!
# What drawings say about a state

Three drawings classify the states of an automaton. The DOT text gives
one shape to the start state and another to each accept state, and the
viewer writes words in front of the number of a state; they say which
states start and which accept, and a state can do both. The label for
Graphviz has room for one word only. It says which state starts, but of
the accept states it leaves out the start state
(`Provided.drawings_mark`), as in every automaton that is made from a
star (`Automaton.unmarked_start_ofPattern`).
-/

namespace Thompson

namespace Graphviz

/-- A label marks its node with a word if the word is one of its lines. -/
def Marks (label word : String) : Prop := word.toList ∈ label.toList.splitOn '\n'

instance (label word : String) : Decidable (Marks label word) :=
  inferInstanceAs (Decidable (_ ∈ _))

/-- The line that every label ends with. -/
def numberLine (n : Nat) : List Char := "State ".toList ++ (toString n).toList

theorem numberLine_eq (n : Nat) :
    numberLine n = 'S' :: 't' :: 'a' :: 't' :: 'e' :: ' ' :: (toString n).toList := rfl

theorem newline_not_mem_numberLine (n : Nat) : '\n' ∉ numberLine n := by
  intro hmem
  rcases List.mem_append.mp hmem with hword | hdigit
  · revert hword
    decide
  · rw [Drawing.Dialect.toList_toString] at hdigit
    exact absurd (Nat.isDigit_of_mem_toDigits (by decide) (by decide) hdigit) (by decide)

theorem splitOn_numberLine (n : Nat) : (numberLine n).splitOn '\n' = [numberLine n] :=
  List.splitOn_eq_singleton (newline_not_mem_numberLine n)

/-- A label is one line or two. -/
theorem splitOn_stateLabel (a : Automaton) (s : State) :
    (stateLabel a s).toList.splitOn '\n' =
      if s.id = a.start then ["Start".toList, numberLine s.id]
      else if a.accepting.contains s.id then ["Accept".toList, numberLine s.id]
      else [numberLine s.id] := by
  have hmarked {mark : List Char} (hmark : '\n' ∉ mark) :
      (mark ++ '\n' :: numberLine s.id).splitOn '\n' = [mark, numberLine s.id] := by
    rw [List.splitOn_append_cons_self_of_not_mem hmark, splitOn_numberLine]
  simp only [stateLabel, String.toList_append, List.append_assoc]
  split
  · exact hmarked (by decide : '\n' ∉ "Start".toList)
  · split
    · exact hmarked (by decide : '\n' ∉ "Accept".toList)
    · exact splitOn_numberLine s.id

theorem marks_start_iff {a : Automaton} {s : State} :
    Marks (stateLabel a s) "Start" ↔ s.id = a.start := by
  rw [Marks, splitOn_stateLabel]
  split
  · simp [*]
  · split <;> simp [*, numberLine_eq]

/-- An accept state is marked as one unless the run starts there. -/
theorem marks_accept_iff {a : Automaton} {s : State} :
    Marks (stateLabel a s) "Accept" ↔ a.accepting.contains s.id = true ∧ s.id ≠ a.start := by
  rw [Marks, splitOn_stateLabel]
  split
  · simp [*, numberLine_eq]
  · split <;> simp [*, numberLine_eq]

end Graphviz

namespace Viewer

/-- A label marks its node with the words before its first blank, which
slashes separate. -/
def Marks (label word : String) : Prop :=
  word.toList ∈ (label.toList.takeWhile (· ≠ ' ')).splitOn '/'

theorem splitOn_label (start accepting : Bool) (i : Nat) :
    ((nodeOf start accepting i).label.toList.takeWhile (· ≠ ' ')).splitOn '/' =
      match start, accepting with
      | true, true => ["Start".toList, "Accept".toList]
      | true, false => ["Start".toList]
      | false, true => ["Accept".toList]
      | false, false => ["State".toList] := by
  cases start <;> cases accepting <;> simp [nodeOf] <;> decide

theorem marks_start_iff {start accepting : Bool} {i : Nat} :
    Marks (nodeOf start accepting i).label "Start" ↔ start = true := by
  rw [Marks, splitOn_label]
  cases start <;> cases accepting <;> decide

theorem marks_accept_iff {start accepting : Bool} {i : Nat} :
    Marks (nodeOf start accepting i).label "Accept" ↔ accepting = true := by
  rw [Marks, splitOn_label]
  cases start <;> cases accepting <;> decide

end Viewer

/-- The start state of an automaton that is made from a star accepts, and
its label for Graphviz does not say so. -/
theorem Automaton.unmarked_start_ofPattern (operand : Pattern) (regex : String) {s : State}
    (hs : s.id = (ofPattern (.star operand) regex).start) :
    (ofPattern (.star operand) regex).accepting.contains s.id = true ∧
      ¬ Graphviz.Marks (Graphviz.stateLabel (ofPattern (.star operand) regex) s) "Accept" := by
  refine ⟨?_, fun hmarks => (Graphviz.marks_accept_iff.mp hmarks).2 hs⟩
  have hlt := (wellFormed_ofPattern (.star operand) regex).start_lt
  rw [hs]
  rw [ofPattern_eq] at hlt ⊢
  -- the new start stands behind the accept states of the operand
  exact Builder.contains_accepting_finish.mpr ⟨by simp [Builder.construct, Builder.close,
    Builder.starFragment, Builder.finish], hlt⟩

namespace Document

open Drawing

/-- Each state has a node of its own in the drawing for Graphviz and in
the viewer. All drawings mark the same start state. The DOT text and the
viewer mark the accept states; Graphviz is told of those that are not the
start state. -/
theorem Provided.drawings_mark {d : Document} (h : d.Provided) :
    let a := d.automaton
    ∃ shapes labels, Dialect.dot.nodes? a.dot = some shapes ∧
      Dialect.graphviz.nodes? (Graphviz.graph a) = some labels ∧
      labels.map Prod.fst = List.range a.size ∧ (Viewer.graph a).nodes.length = a.size ∧
      ∀ q < a.size, ∃ label node, labels[q]? = some (q, label) ∧
        (Viewer.graph a).nodes[q]? = some node ∧
        ((q, "box") ∈ shapes ↔ q = a.start) ∧
        (Graphviz.Marks label "Start" ↔ q = a.start) ∧
        (Viewer.Marks node.label "Start" ↔ q = a.start) ∧
        ((q, "doublecircle") ∈ shapes ↔ a.accepting.contains q = true) ∧
        (Viewer.Marks node.label "Accept" ↔ a.accepting.contains q = true) ∧
        (Graphviz.Marks label "Accept" ↔ a.accepting.contains q = true ∧ q ≠ a.start) := by
  intro a
  refine ⟨_, _, Dialect.nodes?_dot a, Dialect.nodes?_graph a, ?_, ?_, ?_⟩
  · rw [List.map_map, List.range_eq_range']
    exact List.zipIdx_map_snd 0 a.states.toList
  · simp [Viewer.graph]
  · intro q hq
    obtain ⟨s, hs⟩ : ∃ s, a.states[q]? = some s := ⟨_, Array.getElem?_eq_getElem hq⟩
    obtain rfl : s.id = q := h.wellFormed.id_eq q s hs
    refine ⟨Graphviz.stateLabel a s, Viewer.node a s.id, by simp [hs], by simp [Viewer.graph, hq],
      by simp, Graphviz.marks_start_iff, ?_, by simp [StateSet.mem_toList], ?_,
      Graphviz.marks_accept_iff⟩
    · rw [Viewer.node, Viewer.marks_start_iff, decide_eq_true_iff]
    · rw [Viewer.node, Viewer.marks_accept_iff]

/-- The automaton of a star: its start state accepts, and so does another
one. -/
def starAutomaton : Automaton :=
  ⟨#[⟨0, [(.char 'a', #[1])], by decide⟩, ⟨1, [(.epsilon, #[0])], by decide⟩,
    ⟨2, [(.epsilon, #[0])], by decide⟩], 2, ⟨#[false, true, true]⟩, .ofList ['a'], "a*"⟩

theorem exists_compile_star : ∃ log, Automaton.compile "a*" = .ok (starAutomaton, log) := by
  have hpattern : Automaton.ofPattern (.star (.symbol 'a')) "a*" = starAutomaton := by
    rw [Automaton.ofPattern_eq]
    decide
  rw [← hpattern]
  exact ⟨_, compile_star⟩

theorem drawings_mark_star :
    ∃ log, Automaton.compile "a*" = .ok (starAutomaton, log) ∧
      ∃ shapes labels label node, Dialect.dot.nodes? starAutomaton.dot = some shapes ∧
        Dialect.graphviz.nodes? (Graphviz.graph starAutomaton) = some labels ∧
        labels[1]? = some (1, label) ∧ (Viewer.graph starAutomaton).nodes[1]? = some node ∧
        (1, "doublecircle") ∈ shapes ∧ Viewer.Marks node.label "Accept" ∧
        Graphviz.Marks label "Accept" := by
  obtain ⟨log, hcompile⟩ := exists_compile_star
  obtain ⟨shapes, labels, hshapes, hlabels, -, -, hmarks⟩ :=
    Provided.drawings_mark (.compiled hcompile)
  obtain ⟨label, node, hlabel, hnode, -, -, -, hcircle, hviewer, hgraphviz⟩ :=
    hmarks 1 (by decide)
  exact ⟨log, hcompile, shapes, labels, label, node, hshapes, hlabels, hlabel, hnode,
    hcircle.mpr (by decide), hviewer.mpr (by decide), hgraphviz.mpr (by decide)⟩

/-- The start state of this automaton accepts, and the label for Graphviz
does not say so. -/
theorem unmarked_start_star :
    ∃ log, Automaton.compile "a*" = .ok (starAutomaton, log) ∧
      starAutomaton.accepting.contains 2 = true ∧
      ∃ shapes labels, Dialect.dot.nodes? starAutomaton.dot = some shapes ∧
        (2, "doublecircle") ∈ shapes ∧
        (Viewer.graph starAutomaton).nodes[2]?.map Viewer.Node.label = some "Start/Accept 2" ∧
        Dialect.graphviz.nodes? (Graphviz.graph starAutomaton) = some labels ∧
        labels[2]? = some (2, "Start\nState 2") ∧
        ¬ Graphviz.Marks "Start\nState 2" "Accept" := by
  obtain ⟨log, hcompile⟩ := exists_compile_star
  exact ⟨log, hcompile, by decide, _, _, Dialect.nodes?_dot _, by decide, by decide,
    Dialect.nodes?_graph _, by decide, by decide⟩

end Document

end Thompson
