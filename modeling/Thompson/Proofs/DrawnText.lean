import Mathlib.Data.List.Basic
import Thompson.Drawing.Reader

/-!
# Drawings are read back

Both drawings of an automaton say what they show: reading the text gives
the statements it was written from, whatever characters the labels are
(`read?_dot`, `read?_graph`). No statement is the beginning of another,
since a number ends at the first character that is no digit, a bare
label is one character long, and a quoted label ends at the first quote
without a backslash in front of it.
-/

namespace Thompson

namespace Drawing

variable {text tail rest : List Char} {i j : Nat}

/-! ## Parts of a statement -/

theorem behind?_append (word : String) (rest : List Char) :
    behind? word (word.toList ++ rest) = some rest :=
  List.isPrefixOf?_eq_some_iff_append_eq.mpr rfl

/-- The digits of a number end in front of a space. -/
theorem readNumber_toDigits (n : Nat) (rest : List Char) :
    readNumber (Nat.toDigits 10 n ++ ' ' :: rest) = some (n, ' ' :: rest) := by
  have hdigits : ∀ c ∈ Nat.toDigits 10 n, c.isDigit = true := by
    intro c hc
    exact Nat.isDigit_of_mem_toDigits (by decide) (by decide) hc
  have htake : (Nat.toDigits 10 n ++ ' ' :: rest).takeWhile Char.isDigit = Nat.toDigits 10 n := by
    rw [List.takeWhile_append_of_pos hdigits, List.takeWhile_cons_of_neg (by decide),
      List.append_nil]
  have hdrop : (Nat.toDigits 10 n ++ ' ' :: rest).dropWhile Char.isDigit = ' ' :: rest := by
    rw [List.dropWhile_append_of_pos hdigits, List.dropWhile_cons_of_neg (by decide)]
  have hne : (Nat.toDigits 10 n).isEmpty = false := by
    rw [List.isEmpty_eq_false_iff]
    exact Nat.toDigits_ne_nil
  rw [readNumber, htake, hdrop, hne, Nat.ofDigitChars_ten_toDigits]
  rfl

theorem readQuoted_escape (c : Char) (text : List Char) :
    readQuoted (Graphviz.escape c ++ text) =
      (readQuoted text).map fun read => (c :: read.1, read.2) := by
  unfold Graphviz.escape
  split
  · next h =>
    rcases h with rfl | rfl
    · cases hread : readQuoted text <;> simp [readQuoted, unescape?, hread]
    · cases hread : readQuoted text <;> simp [readQuoted, unescape?, hread]
  · next h =>
    split
    · next hbreak =>
      subst hbreak
      cases hread : readQuoted text <;> simp [readQuoted, unescape?, hread]
    · obtain ⟨hquote, hbackslash⟩ := not_or.mp h
      rw [List.singleton_append, readQuoted]
      · cases hread : readQuoted text <;> simp
      · exact fun hc => hquote hc
      · intro d rest hc
        exact absurd hc hbackslash

theorem readQuoted_quoted (label rest : List Char) :
    readQuoted (label.flatMap Graphviz.escape ++ '"' :: rest) = some (label, rest) := by
  induction label with
  | nil => rfl
  | cons c label ih =>
      rw [List.flatMap_cons, List.append_assoc, readQuoted_escape, ih]
      rfl

/-! ## Statements -/

namespace Dialect

variable {d : Dialect} {mark label : String}

theorem readName_append (d : Dialect) (n : Nat) (rest : List Char) :
    readName d (d.lead.toList ++ (Nat.toDigits 10 n ++ ' ' :: rest)) = some (n, ' ' :: rest) := by
  rw [readName, behind?_append]
  exact readNumber_toDigits n rest

/-- What comes behind the names of a statement begins like this. -/
def Bracketed (text : List Char) : Prop := ∃ tail, text = ' ' :: '[' :: tail

theorem readStatement_node (hbracket : Bracketed text) (h : d.readMark text = some (mark, rest)) :
    readStatement d ("    ".toList ++ (d.lead.toList ++ (Nat.toDigits 10 i ++ text))) =
      some (.node i mark, rest) := by
  obtain ⟨tail, rfl⟩ := hbracket
  have harrow : behind? " -> " (' ' :: '[' :: tail) = none := rfl
  rw [readStatement, behind?_append]
  simp only [bind, Option.bind, readName_append, harrow, h]
  rfl

theorem readStatement_edge (hbracket : Bracketed text)
    (h : d.readLabel text = some (label, rest)) :
    readStatement d ("    ".toList ++ (d.lead.toList ++ (Nat.toDigits 10 i ++ (" -> ".toList ++
        (d.lead.toList ++ (Nat.toDigits 10 j ++ text)))))) =
      some (.edge ⟨i, label, j⟩, rest) := by
  obtain ⟨tail, rfl⟩ := hbracket
  have hsource : ∀ target, readName d (d.lead.toList ++ (Nat.toDigits 10 i ++
      (" -> ".toList ++ target))) = some (i, " -> ".toList ++ target) := by
    intro target
    exact readName_append d i ("-> ".toList ++ target)
  rw [readStatement, behind?_append]
  simp only [bind, Option.bind, hsource, behind?_append, readName_append, h]
  rfl

/-- A text is read as one statement, whatever follows it. -/
structure Writes (d : Dialect) (text : String) (statement : Statement) : Prop where
  indented : ∃ tail, text.toList = ' ' :: tail
  read : ∀ rest, readStatement d (text.toList ++ rest) = some (statement, rest)

theorem Writes.readStatements {text : String} {statement : Statement}
    (h : d.Writes text statement) (rest : List Char) :
    readStatements d (text.toList ++ rest) = (readStatements d rest).map (statement :: ·) := by
  obtain ⟨tail, htail⟩ := h.indented
  have hopen : text.toList ++ rest ≠ "\x7d\n".toList := by
    intro hclose
    rw [htail] at hclose
    cases hclose
  have hlength : rest.length < (text.toList ++ rest).length := by
    rw [htail, List.length_append, List.length_cons]
    omega
  rw [Dialect.readStatements, if_neg hopen, h.read rest]
  exact if_pos hlength

theorem readStatements_join {α : Type} {write : α → String} {shown : α → Statement} {as : List α}
    (h : ∀ a ∈ as, d.Writes (write a) (shown a)) (rest : List Char) :
    readStatements d ((String.join (as.map write)).toList ++ rest) =
      (readStatements d rest).map (as.map shown ++ ·) := by
  rw [String.toList_join, List.flatMap_map]
  induction as with
  | nil => simp
  | cons a as ih =>
      obtain ⟨ha, has⟩ := List.forall_mem_cons.mp h
      rw [List.flatMap_cons, List.append_assoc, ha.readStatements, ih has, Option.map_map]
      rfl

theorem readStatements_close (d : Dialect) : readStatements d "\x7d\n".toList = some [] := by
  rw [Dialect.readStatements, if_pos rfl]

/-- A drawing is read as the statements between its heading and its
closing brace. -/
theorem read?_eq {statements : List Statement} {body : String}
    (h : readStatements d (body.toList ++ "\x7d\n".toList) = some statements) :
    read? d (d.heading ++ body ++ "\x7d\n") = some statements := by
  rw [read?, String.toList_append, String.toList_append, List.append_assoc, behind?_append]
  exact h

theorem toList_toString (n : Nat) : (toString n).toList = Nat.toDigits 10 n := by
  rw [Nat.toString_eq_ofList_toDigits]
  exact String.toList_ofList

/-! ## The DOT language -/

theorem toList_dotNode (i : Nat) (shape : String) :
    (Automaton.dotNode i shape).toList = "    ".toList ++ (dot.lead.toList ++
      (Nat.toDigits 10 i ++ (" [shape = ".toList ++ (shape.toList ++ "];\n".toList)))) := by
  simp only [Automaton.dotNode, Automaton.dotName, String.toList_append, toList_toString,
    List.append_assoc]
  rfl

theorem toList_dotEdge (e : Edge) :
    (Automaton.dotEdge e).toList = "    ".toList ++ (dot.lead.toList ++
      (Nat.toDigits 10 e.source ++ (" -> ".toList ++ (dot.lead.toList ++
        (Nat.toDigits 10 e.target ++ (" [label=".toList ++
          (e.label.text.toList ++ "];\n".toList))))))) := by
  simp only [Automaton.dotEdge, Automaton.dotName, String.toList_append, toList_toString,
    List.append_assoc]
  rfl

theorem exists_text_eq (l : Label) : ∃ c : Char, l.text = c.toString := by
  cases l with
  | epsilon => exact ⟨'ε', rfl⟩
  | char c => exact ⟨c, rfl⟩

theorem writes_dotNode {shape : String} (h : shape = "box" ∨ shape = "doublecircle") (i : Nat) :
    dot.Writes (Automaton.dotNode i shape) (.node i shape) := by
  refine ⟨⟨_, toList_dotNode i shape⟩, ?_⟩
  intro rest
  simp only [toList_dotNode, List.append_assoc]
  refine readStatement_node ⟨_, rfl⟩ ?_
  rcases h with rfl | rfl
  · exact rfl
  · exact rfl

theorem writes_dotEdge (e : Edge) : dot.Writes (Automaton.dotEdge e) (.edge e.drawn) := by
  obtain ⟨c, hc⟩ := exists_text_eq e.label
  refine ⟨⟨_, toList_dotEdge e⟩, ?_⟩
  intro rest
  have hlabel : dot.readLabel (" [label=".toList ++ ([c] ++ ("];\n".toList ++ rest))) =
      some (c.toString, rest) := by
    show readBareLabel _ = _
    simp only [readBareLabel, bind, Option.bind, behind?_append, List.singleton_append]
    rfl
  rw [toList_dotEdge, Edge.drawn, hc, Char.toString, String.toList_singleton]
  simp only [List.append_assoc]
  exact readStatement_edge ⟨_, rfl⟩ hlabel

theorem read?_dot (a : Automaton) :
    dot.read? a.dot = some (.node a.start "box" ::
      (a.accepting.toList.map fun i => .node i "doublecircle") ++
      a.edges.map fun e => .edge e.drawn) := by
  have hdot : a.dot = dot.heading ++ (Automaton.dotNode a.start "box" ++
      String.join (a.accepting.toList.map fun i => Automaton.dotNode i "doublecircle") ++
      String.join (a.edges.map Automaton.dotEdge)) ++ "\x7d\n" := by
    show _ ++ _ ++ _ ++ _ ++ _ = _
    simp only [String.append_assoc]
    rfl
  rw [hdot]
  refine read?_eq ?_
  simp only [String.toList_append, List.append_assoc]
  rw [(writes_dotNode (Or.inl rfl) a.start).readStatements,
    readStatements_join (fun i _ => writes_dotNode (Or.inr rfl) i),
    readStatements_join (fun e _ => writes_dotEdge e), readStatements_close]
  simp

/-! ## The drawing for Graphviz -/

theorem toList_attributes (label : String) :
    (Graphviz.attributes label).toList = " [ label = \"".toList ++
      (label.toList.flatMap Graphviz.escape ++ '"' :: " ]\n".toList) := by
  rw [Graphviz.attributes, Graphviz.quote, String.toList_append, String.toList_append]
  simp only [String.toList_ofList, List.cons_append, List.append_assoc, List.nil_append]
  rfl

theorem bracketed_attributes (label : String) (rest : List Char) :
    Bracketed ((Graphviz.attributes label).toList ++ rest) := by
  rw [toList_attributes]
  exact ⟨_, rfl⟩

theorem readQuotedLabel_attributes (label : String) (rest : List Char) :
    readQuotedLabel ((Graphviz.attributes label).toList ++ rest) = some (label, rest) := by
  rw [toList_attributes]
  simp only [readQuotedLabel, bind, Option.bind, List.append_assoc, List.cons_append,
    behind?_append, readQuoted_quoted, String.ofList_toList]
  rfl

theorem toList_nodeLine (a : Automaton) (s : State) (place : Nat) :
    (Graphviz.nodeLine a s place).toList = "    ".toList ++ (graphviz.lead.toList ++
      (Nat.toDigits 10 place ++ (Graphviz.attributes (Graphviz.stateLabel a s)).toList)) := by
  simp only [Graphviz.nodeLine, String.toList_append, toList_toString, List.append_assoc]
  rfl

theorem toList_edgeLine (e : Edge) :
    (Graphviz.edgeLine e).toList = "    ".toList ++ (graphviz.lead.toList ++
      (Nat.toDigits 10 e.source ++ (" -> ".toList ++ (graphviz.lead.toList ++
        (Nat.toDigits 10 e.target ++ (Graphviz.attributes e.label.text).toList))))) := by
  simp only [Graphviz.edgeLine, String.toList_append, toList_toString, List.append_assoc]
  rfl

theorem writes_nodeLine (a : Automaton) (s : State) (place : Nat) :
    graphviz.Writes (Graphviz.nodeLine a s place) (.node place (Graphviz.stateLabel a s)) := by
  refine ⟨⟨_, toList_nodeLine a s place⟩, ?_⟩
  intro rest
  simp only [toList_nodeLine, List.append_assoc]
  exact readStatement_node (bracketed_attributes _ rest) (readQuotedLabel_attributes _ rest)

theorem writes_edgeLine (e : Edge) : graphviz.Writes (Graphviz.edgeLine e) (.edge e.drawn) := by
  refine ⟨⟨_, toList_edgeLine e⟩, ?_⟩
  intro rest
  simp only [toList_edgeLine, List.append_assoc]
  exact readStatement_edge (bracketed_attributes _ rest) (readQuotedLabel_attributes _ rest)

theorem read?_graph (a : Automaton) :
    graphviz.read? (Graphviz.graph a) =
      some ((a.states.toList.zipIdx.map fun x => .node x.2 (Graphviz.stateLabel a x.1)) ++
        a.edges.map fun e => .edge e.drawn) := by
  have hgraph : Graphviz.graph a = graphviz.heading ++
      (String.join (a.states.toList.zipIdx.map fun x => Graphviz.nodeLine a x.1 x.2) ++
        String.join (a.edges.map Graphviz.edgeLine)) ++ "\x7d\n" := by
    simp only [Graphviz.graph, String.append_assoc]
    rfl
  rw [hgraph]
  refine read?_eq ?_
  simp only [String.toList_append, List.append_assoc]
  rw [readStatements_join fun x _ => writes_nodeLine a x.1 x.2,
    readStatements_join fun e _ => writes_edgeLine e, readStatements_close]
  simp

/-! ## Nodes and edges -/

theorem filterMap_node?_nodes {α : Type} (name : α → Nat) (mark : α → String) (as : List α) :
    (as.map fun a => Statement.node (name a) (mark a)).filterMap Statement.node? =
      as.map fun a => (name a, mark a) := by
  rw [List.filterMap_map, ← List.filterMap_eq_map]
  rfl

theorem filterMap_edge?_edges (es : List Edge) :
    (es.map fun e => Statement.edge e.drawn).filterMap Statement.edge? = es.map Edge.drawn := by
  rw [List.filterMap_map, ← List.filterMap_eq_map]
  rfl

theorem filterMap_node?_edges (es : List Edge) :
    (es.map fun e => Statement.edge e.drawn).filterMap Statement.node? = [] := by
  simp [Statement.node?]

theorem filterMap_edge?_nodes {α : Type} (name : α → Nat) (mark : α → String) (as : List α) :
    (as.map fun a => Statement.node (name a) (mark a)).filterMap Statement.edge? = [] := by
  simp [Statement.edge?]

theorem nodes?_dot (a : Automaton) :
    dot.nodes? a.dot =
      some ((a.start, "box") :: a.accepting.toList.map fun i => (i, "doublecircle")) := by
  rw [nodes?, read?_dot, Option.map_some, List.filterMap_append, List.filterMap_cons,
    filterMap_node?_nodes, filterMap_node?_edges, List.append_nil]
  rfl

theorem edges?_dot (a : Automaton) : dot.edges? a.dot = some (a.edges.map Edge.drawn) := by
  rw [edges?, read?_dot, Option.map_some, List.filterMap_append, List.filterMap_cons,
    filterMap_edge?_nodes, filterMap_edge?_edges]
  rfl

theorem nodes?_graph (a : Automaton) :
    graphviz.nodes? (Graphviz.graph a) =
      some (a.states.toList.zipIdx.map fun x => (x.2, Graphviz.stateLabel a x.1)) := by
  rw [nodes?, read?_graph, Option.map_some, List.filterMap_append, filterMap_node?_nodes,
    filterMap_node?_edges, List.append_nil]

theorem edges?_graph (a : Automaton) :
    graphviz.edges? (Graphviz.graph a) = some (a.edges.map Edge.drawn) := by
  rw [edges?, read?_graph, Option.map_some, List.filterMap_append, filterMap_edge?_nodes,
    filterMap_edge?_edges, List.nil_append]

end Dialect

end Drawing

end Thompson
