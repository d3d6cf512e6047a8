import Mathlib.Algebra.Ring.Nat
import Mathlib.Data.List.Induction
import Mathlib.Data.List.Nodup
import Thompson.Drawing.Viewer
import Thompson.Proofs.Bounds
import Thompson.Proofs.DrawnText
import Thompson.Proofs.Loading

/-!
# What drawings say about an automaton

Every drawing shows the same transitions: those of the states in turn
(`Automaton.drawnEdges`). The text drawings list them one by one, and the
viewer bundles those with the same ends (`Provided.drawings_agree`). The
edges of an automaton are kept state by state, and a state of a
well-formed automaton goes by the number of its place; so the sequence of
edges tells which transitions belong to which state, and a DOT text tells
everything about how an automaton runs, as long as no character is drawn
like epsilon (`Provided.eq_of_dot_eq`).

The viewer walks the transitions of each state and looks for an arrow to
put them on. What it has done after any number of transitions is
described at once by `Viewer.bundle`.
-/

namespace Thompson

/-! ## Lists -/

section Lists

variable {α β : Type}

/-- A list is walked by its places. -/
theorem flatMap_eq_flatMap_range {l : List α} {f : α → List β} {g : Nat → List β}
    (h : ∀ i x, l[i]? = some x → f x = g i) :
    l.flatMap f = (List.range l.length).flatMap g := by
  induction l using List.reverseRecOn with
  | nil => rfl
  | append_singleton l x ih =>
      have hlast : f x = g l.length := h l.length x (by simp)
      have hfront : l.flatMap f = (List.range l.length).flatMap g := by
        refine ih ?_
        intro i y hy
        obtain ⟨hi, -⟩ := List.getElem?_eq_some_iff.mp hy
        refine h i y ?_
        rw [List.getElem?_append_left hi]
        exact hy
      rw [List.flatMap_append, hfront, List.length_append, List.length_singleton,
        List.range_succ, List.flatMap_append, List.flatMap_singleton, List.flatMap_singleton, hlast]

theorem flatMap_range_ite (n i : Nat) (l : List β) :
    ((List.range n).flatMap fun j => if j = i then l else []) = if i < n then l else [] := by
  induction n with
  | zero => rfl
  | succ n ih =>
      rw [List.range_succ, List.flatMap_append, ih, List.flatMap_singleton]
      rcases Nat.lt_trichotomy i n with hlt | rfl | hgt
      · rw [if_pos hlt, if_neg (by omega), if_pos (by omega), List.append_nil]
      · simp
      · rw [if_neg (by omega), if_neg (by omega), if_neg (by omega), List.append_nil]

end Lists

/-! ## Edges in order -/

def Edge.ends (e : Edge) : Nat × Nat := (e.source, e.target)

namespace Automaton

variable {a : Automaton}

/-- The transitions of the state at a place as edges. -/
def edgesFrom (a : Automaton) (i : Nat) : List Edge :=
  (a.transitions i).map fun t => ⟨i, t.1, t.2⟩

theorem source_eq_of_mem_edgesFrom {i : Nat} {e : Edge} (h : e ∈ a.edgesFrom i) : e.source = i := by
  obtain ⟨t, -, rfl⟩ := List.mem_map.mp h
  rfl

theorem WellFormed.edges_eq (h : a.WellFormed) :
    a.edges = (List.range a.size).flatMap a.edgesFrom := by
  refine flatMap_eq_flatMap_range ?_
  intro i s hs
  rw [Array.getElem?_toList] at hs
  rw [State.edges, h.id_eq i s hs, edgesFrom, transitions, hs]

/-- The transitions of a state can be told from the edges of all states. -/
theorem WellFormed.transitions_eq (h : a.WellFormed) (i : Nat) :
    a.transitions i = (a.edges.filter fun e => e.source = i).map fun e => (e.label, e.target) := by
  have hfrom : ∀ j, (a.edgesFrom j).filter (fun e => e.source = i) =
      if j = i then a.edgesFrom i else [] := by
    intro j
    split
    · next hj =>
      subst hj
      refine List.filter_eq_self.mpr ?_
      intro e he
      simpa using source_eq_of_mem_edgesFrom he
    · next hj =>
      refine List.filter_eq_nil_iff.mpr ?_
      intro e he
      simpa [source_eq_of_mem_edgesFrom he] using hj
  rw [h.edges_eq, List.filter_flatMap]
  simp only [hfrom, flatMap_range_ite]
  split
  · rw [edgesFrom, List.map_map]
    exact (List.map_id _).symm
  · next hi =>
    have hnone : a.states[i]? = none := Array.getElem?_eq_none (Nat.le_of_not_lt hi)
    rw [transitions, hnone]
    rfl

theorem WellFormed.drawnEdges_eq (h : a.WellFormed) : a.drawnEdges = a.edges.map Edge.drawn := by
  rw [h.edges_eq, List.map_flatMap, drawnEdges]
  simp only [edgesFrom, List.map_map]
  rfl

end Automaton

/-! ## The DOT text and the automaton -/

theorem Label.toList_text_char (c : Char) : (Label.char c).text.toList = [c] :=
  String.toList_singleton c

/-- Only one character is written like epsilon. -/
theorem Label.eq_of_text_eq {l l' : Label} (h : l ≠ .char 'ε') (h' : l' ≠ .char 'ε')
    (htext : l.text = l'.text) : l = l' := by
  have hlist := congrArg String.toList htext
  cases l with
  | epsilon =>
      cases l' with
      | epsilon => rfl
      | char c =>
          rw [toList_text_char] at hlist
          obtain rfl : 'ε' = c := List.singleton_inj.mp hlist
          exact absurd rfl h'
  | char c =>
      rw [toList_text_char] at hlist
      cases l' with
      | epsilon =>
          obtain rfl : c = 'ε' := List.singleton_inj.mp hlist
          exact absurd rfl h
      | char c' =>
          rw [toList_text_char] at hlist
          rw [List.singleton_inj.mp hlist]

theorem Edge.eq_of_drawn_eq {e e' : Edge} (h : e.label ≠ .char 'ε') (h' : e'.label ≠ .char 'ε')
    (heq : e.drawn = e'.drawn) : e = e' := by
  obtain ⟨source, label, target⟩ := e
  obtain ⟨source', label', target'⟩ := e'
  obtain ⟨rfl, htext, rfl⟩ := DrawnEdge.mk.inj heq
  obtain rfl : label = label' := Label.eq_of_text_eq h h' htext
  rfl

theorem eq_of_map_drawn_eq {es es' : List Edge} (h : ∀ e ∈ es, e.label ≠ .char 'ε')
    (h' : ∀ e ∈ es', e.label ≠ .char 'ε') (heq : es.map Edge.drawn = es'.map Edge.drawn) :
    es = es' := by
  induction es generalizing es' with
  | nil => exact (List.map_eq_nil_iff.mp heq.symm).symm
  | cons e es ih =>
      cases es' with
      | nil => cases heq
      | cons e' es' =>
          obtain ⟨hfirst, hrest⟩ := List.cons.inj heq
          obtain ⟨he, hes⟩ := List.forall_mem_cons.mp h
          obtain ⟨he', hes'⟩ := List.forall_mem_cons.mp h'
          rw [Edge.eq_of_drawn_eq he he' hfirst, ih hes hes' hrest]

namespace Document

/-- Automata with the same DOT text have the same start state, the same
accept states and the same transitions of each state, in the same order,
whatever characters label them. -/
theorem Provided.eq_of_dot_eq {d d' : Document} (h : d.Provided) (h' : d'.Provided)
    (hletters : ∀ e ∈ d.automaton.edges, e.label ≠ .char 'ε')
    (hletters' : ∀ e ∈ d'.automaton.edges, e.label ≠ .char 'ε')
    (hdot : d.automaton.dot = d'.automaton.dot) :
    d.automaton.start = d'.automaton.start ∧
      (∀ i, d.automaton.accepting.contains i = d'.automaton.accepting.contains i) ∧
      ∀ i, d.automaton.transitions i = d'.automaton.transitions i := by
  have hnodes := Drawing.Dialect.nodes?_dot d.automaton
  rw [hdot, Drawing.Dialect.nodes?_dot, Option.some.injEq, List.cons.injEq] at hnodes
  obtain ⟨hstart, haccepting⟩ := hnodes
  have hdrawn := Drawing.Dialect.edges?_dot d.automaton
  rw [hdot, Drawing.Dialect.edges?_dot, Option.some.injEq] at hdrawn
  have hedges := eq_of_map_drawn_eq hletters' hletters hdrawn
  refine ⟨(congrArg Prod.fst hstart).symm, ?_, ?_⟩
  · intro i
    have hmem : d'.automaton.accepting.toList = d.automaton.accepting.toList :=
      List.map_injective_iff.mpr (fun i j hij => congrArg Prod.fst hij) haccepting
    rw [Bool.eq_iff_iff, ← StateSet.mem_toList, ← StateSet.mem_toList, hmem]
  · intro i
    rw [h.wellFormed.transitions_eq, h'.wellFormed.transitions_eq, hedges]

theorem eq_of_dot_eq_regex :
    let p : Pattern := .star (.concat (.symbol '\n') (.symbol ']'))
    let a := Automaton.ofPattern p "x"
    let b := Automaton.ofPattern p "y"
    (ofAutomaton a).Provided ∧ (ofAutomaton b).Provided ∧
      (∀ e ∈ a.edges, e.label ≠ .char 'ε') ∧ (∀ e ∈ b.edges, e.label ≠ .char 'ε') ∧
      a.dot = b.dot ∧ a ≠ b ∧ a.start = b.start ∧
      (∀ i, a.accepting.contains i = b.accepting.contains i) ∧
      ∀ i, a.transitions i = b.transitions i := by
  intro p a b
  have hletters : ∀ regex, ∀ e ∈ (Automaton.ofPattern p regex).edges, e.label ≠ .char 'ε' := by
    intro regex
    rw [Automaton.ofPattern_eq]
    show ∀ e ∈ (Builder.fresh.construct p).builder.states.toList.flatMap State.edges, _
    decide
  have hdot : a.dot = b.dot := by
    show (Automaton.ofPattern p "x").dot = (Automaton.ofPattern p "y").dot
    rw [Automaton.ofPattern_eq, Automaton.ofPattern_eq]
    rfl
  have hne : a ≠ b := by
    intro hab
    have hregex := congrArg Automaton.regex hab
    simp only [a, b, Automaton.ofPattern_eq, Builder.finish] at hregex
    exact absurd hregex (by decide)
  have ha : (ofAutomaton a).Provided := .constructed p "x"
  have hb : (ofAutomaton b).Provided := .constructed p "y"
  exact ⟨ha, hb, hletters "x", hletters "y", hdot, hne,
    ha.eq_of_dot_eq hb (hletters "x") (hletters "y") hdot⟩

end Document

/-! ## Arrows of the viewer -/

section Lists

variable {α : Type} [BEq α] [LawfulBEq α] {l : List α} {x : α}

/-- Only the first occurrence is kept. -/
theorem eraseDups_concat_of_mem (h : x ∈ l) : (l ++ [x]).eraseDups = l.eraseDups := by
  rw [List.eraseDups_append]
  simp [List.removeAll, h]

theorem eraseDups_concat_of_not_mem (h : x ∉ l) : (l ++ [x]).eraseDups = l.eraseDups ++ [x] := by
  rw [List.eraseDups_append]
  simp [List.removeAll, h, List.eraseDups_cons]

theorem nodup_eraseDups (l : List α) : l.eraseDups.Nodup := by
  induction l using List.reverseRecOn with
  | nil => simp
  | append_singleton l x ih =>
      by_cases h : x ∈ l
      · rw [eraseDups_concat_of_mem h]
        exact ih
      · rw [eraseDups_concat_of_not_mem h]
        refine List.nodup_append.mpr ⟨ih, List.nodup_singleton x, ?_⟩
        rintro y hy z hz rfl
        obtain rfl := List.mem_singleton.mp hz
        exact h (List.mem_eraseDups.mp hy)

/-- Nothing is erased across lists without a common element. -/
theorem eraseDups_append_of_disjoint {l l' : List α} (h : ∀ x ∈ l', x ∉ l) :
    (l ++ l').eraseDups = l.eraseDups ++ l'.eraseDups := by
  have hall : l'.removeAll l = l' := by
    refine List.filter_eq_self.mpr ?_
    intro x hx
    simpa using h x hx
  rw [List.eraseDups_append, hall]

end Lists

namespace Viewer

/-- The labels of all edges between two ends. -/
def labelsBetween (es : List Edge) (p : Nat × Nat) : List Label :=
  (es.filter fun e => e.ends = p).map Edge.label

/-- One arrow for each pair of ends, where the pair is first met, with
the labels of all edges between them. -/
def bundle (es : List Edge) : List Arrow :=
  (es.map Edge.ends).eraseDups.map fun p => ⟨p.1, p.2, labelsBetween es p⟩

theorem labelsBetween_append (es es' : List Edge) (p : Nat × Nat) :
    labelsBetween (es ++ es') p = labelsBetween es p ++ labelsBetween es' p := by
  rw [labelsBetween, List.filter_append, List.map_append]
  rfl

theorem labelsBetween_eq_nil {es : List Edge} {p : Nat × Nat} (h : p ∉ es.map Edge.ends) :
    labelsBetween es p = [] := by
  have hnone : (es.filter fun e => e.ends = p) = [] := by
    refine List.filter_eq_nil_iff.mpr ?_
    intro e he
    simpa using fun hends => h (List.mem_map.mpr ⟨e, he, hends⟩)
  rw [labelsBetween, hnone]
  rfl

theorem labelsBetween_concat (es : List Edge) (e : Edge) (p : Nat × Nat) :
    labelsBetween (es ++ [e]) p =
      if p = e.ends then labelsBetween es p ++ [e.label] else labelsBetween es p := by
  rw [labelsBetween_append]
  by_cases hp : p = e.ends
  · simp [labelsBetween, hp]
  · simp [labelsBetween, hp, Ne.symm hp]

section Join

variable {i : Nat} {t : Label × Nat} {ps : List (Nat × Nat)}

theorem join_of_not_mem (hps : ∀ p ∈ ps, p.1 = i) (h : (i, t.2) ∉ ps)
    (labels : Nat × Nat → List Label) :
    join i (ps.map fun p => ⟨p.1, p.2, labels p⟩) t =
      (ps.map fun p => ⟨p.1, p.2, labels p⟩) ++ [⟨i, t.2, [t.1]⟩] := by
  induction ps with
  | nil => rfl
  | cons p ps ih =>
      obtain ⟨hp, hps⟩ := List.forall_mem_cons.mp hps
      obtain ⟨hne, hrest⟩ := not_or.mp (mt List.mem_cons.mpr h)
      have htarget : p.2 ≠ t.2 := fun htarget => hne (Prod.ext hp.symm htarget.symm)
      rw [List.map_cons, join, if_neg htarget, ih hps hrest]
      rfl

theorem join_of_mem (hps : ∀ p ∈ ps, p.1 = i) (hnodup : ps.Nodup) (h : (i, t.2) ∈ ps)
    (labels : Nat × Nat → List Label) :
    join i (ps.map fun p => ⟨p.1, p.2, labels p⟩) t =
      ps.map fun p =>
        ⟨p.1, p.2, if p = (i, t.2) then labels p ++ [t.1] else labels p⟩ := by
  induction ps with
  | nil => cases h
  | cons p ps ih =>
      obtain ⟨hp, hps⟩ := List.forall_mem_cons.mp hps
      obtain ⟨hnot, hnodup⟩ := List.nodup_cons.mp hnodup
      rw [List.map_cons, List.map_cons, join]
      by_cases htarget : p.2 = t.2
      · have heq : p = (i, t.2) := Prod.ext hp htarget
        have hrest : ∀ q ∈ ps, q ≠ (i, t.2) := by
          rintro q hq rfl
          exact hnot (heq ▸ hq)
        rw [if_pos htarget, if_pos heq]
        congr 1
        refine List.map_congr_left ?_
        intro q hq
        rw [if_neg (hrest q hq)]
      · have hne : p ≠ (i, t.2) := fun heq => htarget (congrArg Prod.snd heq)
        rw [if_neg htarget, if_neg hne, ih hps hnodup ((List.mem_cons.mp h).resolve_left hne.symm)]

end Join

/-- Joining one more transition of a state to its arrows. -/
theorem join_bundle {i : Nat} {es : List Edge} (h : ∀ e ∈ es, e.source = i) (t : Label × Nat) :
    join i (bundle es) t = bundle (es ++ [⟨i, t.1, t.2⟩]) := by
  have hps : ∀ p ∈ (es.map Edge.ends).eraseDups, p.1 = i := by
    intro p hp
    obtain ⟨e, he, rfl⟩ := List.mem_map.mp (List.mem_eraseDups.mp hp)
    exact h e he
  have hends : (⟨i, t.1, t.2⟩ : Edge).ends = (i, t.2) := rfl
  unfold bundle
  simp only [labelsBetween_concat, hends, List.map_append, List.map_singleton]
  by_cases hmem : (i, t.2) ∈ es.map Edge.ends
  · rw [eraseDups_concat_of_mem hmem,
      join_of_mem hps (nodup_eraseDups _) (List.mem_eraseDups.mpr hmem)]
  · have hold : ∀ p ∈ (es.map Edge.ends).eraseDups, p ≠ (i, t.2) := by
      rintro p hp rfl
      exact hmem (List.mem_eraseDups.mp hp)
    rw [eraseDups_concat_of_not_mem hmem, join_of_not_mem hps (mt List.mem_eraseDups.mp hmem),
      List.map_append, List.map_singleton, if_pos rfl, labelsBetween_eq_nil hmem]
    congr 1
    refine List.map_congr_left ?_
    intro p hp
    rw [if_neg (hold p hp)]

/-- The arrows of a state bundle its transitions. -/
theorem arrowsFrom_eq (a : Automaton) (i : Nat) : arrowsFrom a i = bundle (a.edgesFrom i) := by
  suffices h : ∀ (ts : List (Label × Nat)) (es : List Edge), (∀ e ∈ es, e.source = i) →
      ts.foldl (join i) (bundle es) = bundle (es ++ ts.map fun t => ⟨i, t.1, t.2⟩) from
    h (a.transitions i) [] (by simp)
  intro ts
  induction ts with
  | nil => simp
  | cons t ts ih =>
      intro es hes
      rw [List.foldl_cons, join_bundle hes, ih, List.map_cons, List.append_assoc]
      · rfl
      · intro e he
        rcases List.mem_append.mp he with he | he
        · exact hes e he
        · rw [List.mem_singleton.mp he]

/-- Edges from different states share no arrow. -/
theorem bundle_append {es es' : List Edge} (h : ∀ e ∈ es, ∀ e' ∈ es', e.source ≠ e'.source) :
    bundle (es ++ es') = bundle es ++ bundle es' := by
  have hdisjoint : ∀ p ∈ es'.map Edge.ends, p ∉ es.map Edge.ends := by
    intro p hp' hp
    obtain ⟨e', he', rfl⟩ := List.mem_map.mp hp'
    obtain ⟨e, he, hends⟩ := List.mem_map.mp hp
    exact h e he e' he' (congrArg Prod.fst hends)
  rw [bundle, List.map_append, eraseDups_append_of_disjoint hdisjoint, List.map_append]
  congr 1
  · refine List.map_congr_left ?_
    intro p hp
    have hnot : p ∉ es'.map Edge.ends := fun hp' => hdisjoint p hp' (List.mem_eraseDups.mp hp)
    rw [labelsBetween_append, labelsBetween_eq_nil hnot, List.append_nil]
  · refine List.map_congr_left ?_
    intro p hp
    have hnot : p ∉ es.map Edge.ends := hdisjoint p (List.mem_eraseDups.mp hp)
    rw [labelsBetween_append, labelsBetween_eq_nil hnot, List.nil_append]

theorem flatMap_arrowsFrom_eq (a : Automaton) (n : Nat) :
    (List.range n).flatMap (arrowsFrom a) = bundle ((List.range n).flatMap a.edgesFrom) := by
  induction n with
  | zero => rfl
  | succ n ih =>
      rw [List.range_succ, List.flatMap_append, List.flatMap_append, List.flatMap_singleton,
        List.flatMap_singleton, ih, arrowsFrom_eq, bundle_append]
      intro e he e' he'
      obtain ⟨i, hi, he⟩ := List.mem_flatMap.mp he
      rw [Automaton.source_eq_of_mem_edgesFrom he, Automaton.source_eq_of_mem_edgesFrom he']
      exact Nat.ne_of_lt (List.mem_range.mp hi)

theorem arrows_eq {a : Automaton} (h : a.WellFormed) : (graph a).arrows = bundle a.edges := by
  rw [h.edges_eq]
  exact flatMap_arrowsFrom_eq a a.size

/-- A transition adds one label, to an arrow of its own or to another. -/
theorem sum_length_join (i : Nat) (arrows : List Arrow) (t : Label × Nat) :
    ((join i arrows t).map fun e => e.labels.length).sum =
      (arrows.map fun e => e.labels.length).sum + 1 := by
  induction arrows with
  | nil => rfl
  | cons e arrows ih =>
      rw [join]
      split
      · simp
        omega
      · rw [List.map_cons, List.sum_cons, ih, List.map_cons, List.sum_cons]
        omega

theorem sum_length_arrowsFrom (a : Automaton) (i : Nat) :
    ((arrowsFrom a i).map fun e => e.labels.length).sum = (a.transitions i).length := by
  suffices h : ∀ (ts : List (Label × Nat)) (arrows : List Arrow),
      ((ts.foldl (join i) arrows).map fun e => e.labels.length).sum =
        (arrows.map fun e => e.labels.length).sum + ts.length by
    rw [arrowsFrom, h]
    exact Nat.zero_add _
  intro ts
  induction ts with
  | nil => simp
  | cons t ts ih =>
      intro arrows
      rw [List.foldl_cons, ih, sum_length_join, List.length_cons]
      omega

theorem sum_length_arrows (a : Automaton) :
    ((graph a).arrows.map fun e => e.labels.length).sum = a.drawnEdges.length := by
  rw [graph, Automaton.drawnEdges]
  induction List.range a.size with
  | nil => rfl
  | cons i is ih =>
      rw [List.flatMap_cons, List.map_append, List.sum_append, sum_length_arrowsFrom, ih,
        List.flatMap_cons, List.length_append, List.length_map]

end Viewer

namespace Document

open Drawing Viewer

/-- Every drawing of a provided automaton shows the transitions of its
states in turn. The viewer has one arrow for each pair of ends, in the
order in which the pairs are first met, and lists on it the labels of all
transitions between them; it loses none. -/
theorem Provided.drawings_agree {d : Document} (h : d.Provided) :
    let shown := d.automaton.drawnEdges
    let arrows := (Viewer.graph d.automaton).arrows
    Dialect.dot.edges? d.automaton.dot = some shown ∧
      Dialect.graphviz.edges? (Graphviz.graph d.automaton) = some shown ∧
      (arrows.map fun e => (e.source, e.target)) = (shown.map DrawnEdge.ends).eraseDups ∧
      (∀ e ∈ arrows, e.text =
        ", ".intercalate ((shown.filter fun t => t.ends = (e.source, e.target)).map
          DrawnEdge.label)) ∧
      (arrows.map fun e => e.labels.length).sum = shown.length := by
  have hwf := h.wellFormed
  have hends : (d.automaton.edges.map Edge.drawn).map DrawnEdge.ends =
      d.automaton.edges.map Edge.ends := by
    rw [List.map_map]
    rfl
  refine ⟨?_, ?_, ?_, ?_, sum_length_arrows d.automaton⟩
  · rw [Dialect.edges?_dot, hwf.drawnEdges_eq]
  · rw [Dialect.edges?_graph, hwf.drawnEdges_eq]
  · rw [arrows_eq hwf, hwf.drawnEdges_eq, hends, bundle, List.map_map]
    exact List.map_id _
  · intro e he
    rw [arrows_eq hwf] at he
    obtain ⟨p, -, rfl⟩ := List.mem_map.mp he
    rw [Arrow.text, hwf.drawnEdges_eq, List.filter_map, labelsBetween, List.map_map, List.map_map]
    rfl

/-- A file whose first state has two labels for one target, a target
twice, a transition to itself and a label without target. -/
theorem drawings_agree_parallel :
    let d : Draft := ⟨[⟨0, [(.char 'a', #[1, 1]), (.epsilon, #[1, 0]), (.char 'b', #[])]⟩,
      ⟨1, [(.char ']', #[0])]⟩], 0, ⟨0, 2, [2], by decide⟩, [], "x"⟩
    let a : Automaton := ⟨#[⟨0, [(.epsilon, #[1, 0]), (.char 'a', #[1, 1]), (.char 'b', #[])],
      by decide⟩, ⟨1, [(.char ']', #[0])], by decide⟩], 0, ⟨#[false, true]⟩,
      .ofList ['a', 'b', ']'], "x"⟩
    let shown := a.drawnEdges
    let arrows := (Viewer.graph a).arrows
    (loadText "in.json" d.text).1 = .ok (.ofAutomaton a) ∧
      shown = [⟨0, "ε", 1⟩, ⟨0, "ε", 0⟩, ⟨0, "a", 1⟩, ⟨0, "a", 1⟩, ⟨1, "]", 0⟩] ∧
      Dialect.dot.edges? a.dot = some shown ∧
      Dialect.graphviz.edges? (Graphviz.graph a) = some shown ∧
      (arrows.map fun e => (e.source, e.target)) = (shown.map DrawnEdge.ends).eraseDups ∧
      (∀ e ∈ arrows, e.text =
        ", ".intercalate ((shown.filter fun t => t.ends = (e.source, e.target)).map
          DrawnEdge.label)) ∧
      (arrows.map fun e => e.labels.length).sum = shown.length := by
  intro d a shown arrows
  have hspells : SpellsText d.text d :=
    Draft.spellsText_text ⟨by decide, by decide, by decide, by decide⟩
  have hmakes : d.Makes a := by
    refine ⟨.cons ⟨rfl, .swap ..⟩ (.cons ⟨rfl, .refl _⟩ .nil), rfl, by decide, ?_, rfl⟩
    intro c
    simp [a, d, Draft.Uses, DraftState.labels, -List.mem_map, or_assoc]
  have hload : (loadText "in.json" d.text).1 = .ok (.ofAutomaton a) :=
    loadText_of_verdict hspells (.loaded (by decide) (by decide) hmakes rfl) "in.json"
  have hprovided : (ofAutomaton a).Provided := .loaded hload
  exact ⟨hload, by decide, hprovided.drawings_agree⟩

end Document

end Thompson
