import Mathlib.Data.List.TakeWhile
import Thompson.Automaton.Checked
import Thompson.Drawing.Checked
import Thompson.Proofs.Provided

/-!
# Accesses of well-formed automata

No operation on a well-formed automaton accesses a state, a mark, an
accept flag or a node by a number that is out of range: with checked
accesses each of them gives what it gives without
(`WellFormed.inRange`). The automata that are handed out are well formed,
so this is true of all of them, a file being no exception
(`Document.Provided.wellFormed_inRange`).

All numbers come from three places. The start state is in range; what a
transition leads to is (`WellFormed.lt_of_leads`); and what a search
finds had a mark (`Search.Tracks`), of which there are as many as states.
The members of a set that a caller hands over may be out of range; they
are passed over before anything is accessed by them.
-/

namespace Thompson

namespace StateSet

variable {s : StateSet} {i : Nat}

theorem insert?_of_lt (h : i < s.size) : s.insert? i = some (s.insert i) := if_pos h

theorem erase?_of_lt (h : i < s.size) : s.erase? i = some (s.erase i) := if_pos h

theorem contains_eq_false_of_size_le (h : s.size ≤ i) : s.contains i = false :=
  Bool.eq_false_iff.mpr fun hmem => Nat.not_lt.mpr h (lt_size_of_contains hmem)

theorem pairwise_toList (s : StateSet) : s.toList.Pairwise (· < ·) :=
  List.pairwise_lt_range.filter _

end StateSet

/-- No access of any operation on the automaton is out of range. -/
structure Automaton.InRange (a : Automaton) : Prop where
  run_eq (text : String) : a.run? text = some (a.run text)
  startSet_eq : a.startSet? = some a.startSet
  epsilonClosure_eq (s : StateSet) : a.epsilonClosure? s = some (a.epsilonClosure s)
  step_eq (s : StateSet) (c : Char) : a.step? s c = some (a.step s c)
  isAccepting_eq (s : StateSet) : a.isAccepting? s = some (a.isAccepting s)
  graphviz_eq : Graphviz.graph? a = some (Graphviz.graph a)
  viewer_eq : Viewer.graph? a = some (Viewer.graph a)

namespace Automaton

/-! ## Visits -/

namespace Search

variable {s : Search} {is : List Nat}

theorem size_visit (s : Search) (i : Nat) : (s.visit i).marks.size = s.marks.size := by
  unfold visit
  split
  · exact StateSet.size_insert ..
  · rfl

theorem foldlM_visit?_of_lt (h : ∀ i ∈ is, i < s.marks.size) :
    is.foldlM visit? s = some (is.foldl visit s) := by
  refine foldlM_eq_some (P := fun t => t.marks.size = s.marks.size) ?_ rfl
  intro t ht i hi
  refine ⟨?_, (size_visit t i).trans ht⟩
  rw [visit?_eq, if_pos]
  rw [ht]
  exact h i hi

theorem foldl_visit_of_blocks (h : ∀ i ∈ is, s.marks.Blocks i) : is.foldl visit s = s := by
  induction is with
  | nil => rfl
  | cons i is ih =>
      obtain ⟨hi, his⟩ := List.forall_mem_cons.mp h
      rw [List.foldl_cons, visit_of_blocks hi]
      exact ih his

/-- In ascending order all that has no mark comes last. -/
theorem foldl_visit_takeWhile {n : Nat} (hs : s.marks.size = n) (h : is.Pairwise (· < ·)) :
    (is.takeWhile (· < n)).foldl visit s = is.foldl visit s := by
  induction is generalizing s with
  | nil => rfl
  | cons i is ih =>
      obtain ⟨hi, his⟩ := List.pairwise_cons.mp h
      by_cases hlt : i < n
      · rw [List.takeWhile_cons_of_pos (by simpa using hlt), List.foldl_cons, List.foldl_cons]
        exact ih ((size_visit s i).trans hs) his
      · rw [List.takeWhile_cons_of_neg (by simpa using hlt), List.foldl_nil]
        refine (foldl_visit_of_blocks ?_).symm
        intro j hj
        have hle : i ≤ j := by
          rcases List.mem_cons.mp hj with rfl | hj
          · exact Nat.le_refl _
          · exact Nat.le_of_lt (hi j hj)
        exact Or.inl (by omega)

end Search

/-! ## Closures -/

variable {a : Automaton} {before marks : StateSet} {seeds : List Nat}

theorem lt_size_of_not_blocks {i : Nat} (h : ¬ before.Blocks i) : i < before.size :=
  Nat.lt_of_not_le fun hle => h (Or.inl hle)

theorem WellFormed.turn?_eq (h : a.WellFormed) {i : Nat} {s : Search} (hi : i < a.size)
    (hs : s.marks.size = a.size) :
    a.turn? i s = some ((a.targets i .epsilon).foldl Search.visit s) := by
  have hstate : a.states[i]? = some a.states[i] := Array.getElem?_eq_getElem hi
  have htargets : a.targets i .epsilon = a.states[i].transitions.targets .epsilon := by
    rw [targets, hstate]
  rw [turn?, hstate, htargets]
  refine Search.foldlM_visit?_of_lt ?_
  intro j hj
  rw [hs]
  exact h.target_lt i .epsilon j (htargets ▸ hj)

theorem WellFormed.search?_eq (h : a.WellFormed) (hbefore : before.size = a.size) {next : Nat}
    {s : Search} (hs : s.Tracks before) : a.search? next s = some (a.search next s) := by
  fun_induction search a next s with
  | case1 next s hlt ih =>
      have hfound : s.found[next] < a.size := by
        rw [← hbefore]
        exact lt_size_of_not_blocks (hs.free _ (by simp))
      have hturn := h.turn?_eq hfound (hs.size_eq.trans hbefore)
      rw [search?, dif_pos hlt]
      split
      · next hnone =>
          rw [hturn] at hnone
          cases hnone
      · next s' hs' =>
          obtain rfl := Option.some.inj (hturn.symm.trans hs')
          exact ih (hs.foldl_visit _)
  | case2 next s hge => rw [search?, dif_neg hge]

theorem WellFormed.close?_eq (h : a.WellFormed) (hmarks : marks.size = a.size)
    (hseeds : ∀ i ∈ seeds, i < a.size) : a.close? seeds marks = some (a.close seeds marks) := by
  have hseeded := Search.foldlM_visit?_of_lt (s := ⟨marks, #[]⟩) fun i hi => by
    show i < marks.size
    rw [hmarks]
    exact hseeds i hi
  rw [close?, hseeded]
  show (a.search? 0 _).bind _ = _
  rw [h.search?_eq hmarks ((Search.tracks_start marks).foldl_visit seeds)]
  rfl

/-- What a closure finds had a mark. -/
theorem lt_of_mem_close {j : Nat} (hj : j ∈ (a.close seeds before).2) : j < before.size :=
  lt_size_of_not_blocks ((explores_close a seeds before).free j (by simpa using hj))

theorem WellFormed.epsilonClosure?_eq (h : a.WellFormed) (s : StateSet) :
    a.epsilonClosure? s = some (a.epsilonClosure s) := by
  have hseeds : ∀ i ∈ s.toList.takeWhile (· < a.size), i < a.size := by
    intro i hi
    simpa using List.mem_takeWhile_imp hi
  rw [epsilonClosure?, h.close?_eq (StateSet.size_empty _) hseeds, epsilonClosure, close, close,
    Search.foldl_visit_takeWhile (StateSet.size_empty _) s.pairwise_toList]
  rfl

/-! ## One character at a time -/

theorem WellFormed.startSet?_eq (h : a.WellFormed) : a.startSet? = some a.startSet := by
  have hstart : a.start < (StateSet.empty a.size).size := by
    rw [StateSet.size_empty]
    exact h.start_lt
  rw [startSet?, StateSet.insert?_of_lt hstart]
  exact h.epsilonClosure?_eq _

theorem WellFormed.lt_of_mem_moves (h : a.WellFormed) {states : List Nat} {c : Char} :
    ∀ j ∈ a.moves states c, j < a.size := by
  intro j hj
  obtain ⟨i, -, hstep⟩ := mem_moves.mp hj
  exact h.lt_of_leads i _ j hstep

theorem WellFormed.step?_eq (h : a.WellFormed) (s : StateSet) (c : Char) :
    a.step? s c = some (a.step s c) := by
  rw [step?, h.close?_eq (StateSet.size_empty _) h.lt_of_mem_moves]
  rfl

theorem isAccepting?_eq (a : Automaton) (s : StateSet) :
    a.isAccepting? s = some (a.isAccepting s) := by
  refine anyM_eq_some ?_
  intro i hi
  by_cases hlt : i < a.accepting.size
  · rw [if_pos hlt, StateSet.at?_of_lt hlt]
  · rw [if_neg hlt, StateSet.contains_eq_false_of_size_le (Nat.le_of_not_lt hlt)]

/-! ## A whole text -/

theorem WellFormed.accepting_at? (h : a.WellFormed) {i : Nat} (hi : i < a.size) :
    a.accepting.at? i = some (a.accepting.contains i) := by
  refine StateSet.at?_of_lt ?_
  rw [h.size_accepting]
  exact hi

theorem foldlM_erase?_of_lt {is : List Nat} (h : ∀ i ∈ is, i < marks.size) :
    is.foldlM StateSet.erase? marks = some (marks.eraseAll is) := by
  refine foldlM_eq_some (P := fun s => s.size = marks.size) ?_ rfl
  intro s hs i hi
  refine ⟨StateSet.erase?_of_lt ?_, (s.size_erase i).trans hs⟩
  rw [hs]
  exact h i hi

/-- Between two characters the active states exist and there is a mark
for each state. -/
theorem WellFormed.runFrom?_eq (h : a.WellFormed) (text : List Char) {active : List Nat}
    (hactive : ∀ i ∈ active, i < a.size) (hmarks : marks.size = a.size) (position : Nat)
    (log : List Event) :
    a.runFrom? active marks position log text =
      some (a.runFrom active marks position log text) := by
  induction text generalizing active marks position log with
  | nil =>
      have haccepted : active.anyM a.accepting.at? = some (active.any a.accepting.contains) :=
        anyM_eq_some fun i hi => h.accepting_at? (hactive i hi)
      rw [runFrom?, haccepted, runFrom]
      rfl
  | cons c text ih =>
      rw [runFrom?, runFrom]
      split
      · have hcleared : (marks.eraseAll active).size = a.size := by simp [hmarks]
        have hmoves : ∀ i ∈ a.moves active c, i < a.size := h.lt_of_mem_moves
        have hclose := h.close?_eq hcleared hmoves
        have hreached : ∀ i ∈ (a.close (a.moves active c) (marks.eraseAll active)).2,
            i < a.size := by
          intro i hi
          rw [← hcleared]
          exact lt_of_mem_close hi
        have hnext : (a.close (a.moves active c) (marks.eraseAll active)).1.size = a.size :=
          (size_close ..).trans hcleared
        rw [foldlM_erase?_of_lt (hmarks ▸ hactive)]
        show (a.close? _ _).bind _ = _
        rw [hclose, Option.bind_some]
        generalize a.close (a.moves active c) (marks.eraseAll active) = closed at *
        obtain ⟨next, reached⟩ := closed
        show (if _ then _ else _) = some (if _ then _ else _)
        split
        · rfl
        · exact ih hreached hnext _ _
      · rfl

theorem WellFormed.run?_eq (h : a.WellFormed) (text : String) :
    a.run? text = some (a.run text) := by
  have hstart : ∀ i ∈ [a.start], i < a.size := by simpa using h.start_lt
  have hactive : ∀ i ∈ (a.close [a.start] (.empty a.size)).2, i < a.size := by
    intro i hi
    simpa using lt_of_mem_close hi
  have hmarks : (a.close [a.start] (.empty a.size)).1.size = a.size := by
    rw [size_close, StateSet.size_empty]
  rw [run?, h.close?_eq (StateSet.size_empty _) hstart]
  exact h.runFrom?_eq _ hactive hmarks 0 []

/-! ## States and transitions -/

theorem WellFormed.getElem?_id (h : a.WellFormed) {s : State} (hs : s ∈ a.states.toList) :
    a.states[s.id]? = some s := by
  obtain ⟨i, hi⟩ := List.mem_iff_getElem?.mp hs
  rw [Array.getElem?_toList] at hi
  rw [h.id_eq i s hi]
  exact hi

theorem WellFormed.id_lt (h : a.WellFormed) {s : State} (hs : s ∈ a.states.toList) :
    s.id < a.size :=
  (Array.getElem?_eq_some_iff.mp (h.getElem?_id hs)).1

theorem WellFormed.edge_lt (h : a.WellFormed) {e : Edge} (he : e ∈ a.edges) :
    e.source < a.size ∧ e.target < a.size := by
  obtain ⟨s, hs, he⟩ := List.mem_flatMap.mp he
  obtain ⟨⟨label, target⟩, htransition, rfl⟩ := List.mem_map.mp he
  refine ⟨h.id_lt hs, h.target_lt s.id label target ?_⟩
  rw [targets, h.getElem?_id hs]
  exact Transitions.mem_toList.mp htransition

theorem WellFormed.transition_lt (h : a.WellFormed) {i : Nat} {transition : Label × Nat}
    (ht : transition ∈ a.transitions i) : transition.2 < a.size := by
  refine h.target_lt i transition.1 transition.2 ?_
  unfold transitions at ht
  unfold targets
  split at ht
  · exact Transitions.mem_toList.mp ht
  · cases ht

end Automaton

open Automaton

variable {a : Automaton}

/-! ## Drawings -/

namespace Graphviz

theorem nodeLine?_eq (h : a.WellFormed) {s : State} (hs : s ∈ a.states.toList) (place : Nat) :
    nodeLine? a s place = some (nodeLine a s place) := by
  rw [nodeLine?, stateLabel?, h.accepting_at? (h.id_lt hs), nodeLine, stateLabel]
  split
  · rfl
  · rfl

theorem edgeLine?_eq (h : a.WellFormed) {e : Edge} (he : e ∈ a.edges) :
    edgeLine? (Array.range a.size) e = some (edgeLine e) := by
  obtain ⟨hsource, htarget⟩ := h.edge_lt he
  have hnode : ∀ i, i < a.size → (Array.range a.size)[i]? = some i := by
    intro i hi
    simp [hi]
  rw [edgeLine?, hnode _ hsource, hnode _ htarget]
  rfl

theorem graph?_eq (h : a.WellFormed) : graph? a = some (graph a) := by
  have hnodes : a.states.toList.zipIdx.mapM (fun x => nodeLine? a x.1 x.2) =
      some (a.states.toList.zipIdx.map fun x => nodeLine a x.1 x.2) :=
    mapM_eq_some fun x hx => nodeLine?_eq h (List.fst_mem_of_mem_zipIdx hx) x.2
  have hedges : a.edges.mapM (edgeLine? (Array.range a.size)) = some (a.edges.map edgeLine) :=
    mapM_eq_some fun e he => edgeLine?_eq h he
  rw [graph?, hnodes, hedges]
  rfl

end Graphviz

namespace Viewer

theorem node?_eq (h : a.WellFormed) {i : Nat} (hi : i < a.size) :
    node? a i = some (node a i) := by
  rw [node?, h.accepting_at? hi]
  rfl

theorem join?_eq {size source : Nat} {transition : Label × Nat} (hsource : source < size)
    (htarget : transition.2 < size) (arrows : List Arrow) :
    join? size source arrows transition = some (join source arrows transition) := by
  induction arrows with
  | nil => exact if_pos ⟨hsource, htarget⟩
  | cons e arrows ih =>
      rw [join?, join]
      split
      · rfl
      · rw [ih]
        rfl

theorem arrowsFrom?_eq (h : a.WellFormed) {i : Nat} (hi : i < a.size) :
    arrowsFrom? a i = some (arrowsFrom a i) := by
  refine foldlM_eq_some (P := fun _ => True) ?_ trivial
  intro arrows _ transition ht
  exact ⟨join?_eq hi (h.transition_lt ht) arrows, trivial⟩

theorem graph?_eq (h : a.WellFormed) : graph? a = some (graph a) := by
  have hnodes : (List.range a.size).mapM (node? a) = some ((List.range a.size).map (node a)) :=
    mapM_eq_some fun i hi => node?_eq h (List.mem_range.mp hi)
  have harrows : (List.range a.size).mapM (arrowsFrom? a) =
      some ((List.range a.size).map (arrowsFrom a)) :=
    mapM_eq_some fun i hi => arrowsFrom?_eq h (List.mem_range.mp hi)
  rw [graph?, hnodes, harrows, graph, List.flatMap]
  rfl

end Viewer

/-! ## All operations -/

theorem Automaton.WellFormed.inRange (h : a.WellFormed) : a.InRange where
  run_eq := h.run?_eq
  startSet_eq := h.startSet?_eq
  epsilonClosure_eq := h.epsilonClosure?_eq
  step_eq := h.step?_eq
  isAccepting_eq := isAccepting?_eq a
  graphviz_eq := Graphviz.graph?_eq h
  viewer_eq := Viewer.graph?_eq h

namespace Document

/-- Whatever automaton is handed out has a state, is well formed, lists
in its alphabet the characters on its transitions and no others, and has
no operation with an access out of range. -/
theorem Provided.wellFormed_inRange {d : Document} (h : d.Provided) :
    0 < d.automaton.size ∧ d.automaton.WellFormed ∧
      (∀ c, c ∈ d.automaton.alphabet ↔ d.automaton.Lists c) ∧ d.automaton.InRange := by
  have hwf := h.wellFormed
  refine ⟨Nat.zero_lt_of_lt hwf.start_lt, hwf, ?_, hwf.inRange⟩
  intro c
  rw [hwf.alphabet_eq]
  exact mem_usedAlphabet

theorem wellFormed_inRange_star :
    let a := Automaton.ofPattern (.star (.symbol 'a')) "a*"
    (ofAutomaton a).Provided ∧ 0 < a.size ∧ a.WellFormed ∧
      (∀ c, c ∈ a.alphabet ↔ a.Lists c) ∧ a.InRange :=
  ⟨.constructed _ _, Provided.wellFormed_inRange (.constructed _ _)⟩

end Document

end Thompson
