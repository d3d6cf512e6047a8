import Thompson.Drawing.Sentence
import Thompson.Proofs.DrawnText
import Thompson.Proofs.Shape
import Thompson.Proofs.UniqueReading

/-!
# Which drawings are sentences

A drawing in the DOT language is a sentence of that language as far as its
labels are identifiers. Labels are one character long and stand in the
text without quotes, so only the characters of a name are safe. A label
that is a quote does not have to do harm by itself: the reader takes it for
the beginning of a quoted label, which ends at the next label that is a
quote. Nothing in between ends it, since a label is followed by a bracket
and a backslash takes only the bracket along.

Reading line by line, a drawing is thus a sentence exactly if its edges
are `Paired` (`sentence_dot`). The edges of compiled patterns are, because
their labels are letters.
-/

namespace Thompson

namespace Label

variable {l : Label}

/-- The one character of a label's text. -/
def sign : Label → Char
  | .epsilon => 'ε'
  | .char c => c

theorem toList_text (l : Label) : l.text.toList = [l.sign] := by
  cases l with
  | epsilon => rfl
  | char c => simp [text, sign]

theorem bare_iff : l.Bare ↔ Drawing.isNameChar l.sign = true := by
  rw [Bare, toList_text, List.forall_mem_singleton]

theorem sign_eq_quote_iff : l.sign = '"' ↔ l = .char '"' := by
  cases l with
  | epsilon => exact iff_of_false (by decide) nofun
  | char c => simp [sign]

end Label

namespace Drawing

variable {c : Char} {word part rest tail front inner label : List Char} {i : Nat}
  {shape : String} {e : Edge} {edges : List Edge} {parts : List (List Char)}
  {nodes : List (Nat × String)}

/-! ## Quoted texts -/

/-- Text without quotes and backslashes. -/
def Ordinary (text : List Char) : Prop := ∀ c ∈ text, c ≠ '"' ∧ c ≠ '\\'

instance (text : List Char) : Decidable (Ordinary text) :=
  List.decidableBAll (fun c : Char => c ≠ '"' ∧ c ≠ '\\') text

theorem Ordinary.append (h : Ordinary front) (hrest : Ordinary rest) : Ordinary (front ++ rest) :=
  List.forall_mem_append.mpr ⟨h, hrest⟩

theorem Digits.ordinary (h : Digits word) : Ordinary word := by
  intro c hc
  constructor
  · rintro rfl
    cases h _ hc
  · rintro rfl
    cases h _ hc

theorem Ordinary.escaped_append (h : Ordinary front) (hrest : Escaped rest) :
    Escaped (front ++ rest) := by
  induction front with
  | nil => exact hrest
  | cons c front ih =>
      obtain ⟨⟨hquote, hbackslash⟩, hfront⟩ := List.forall_mem_cons.mp h
      exact .plain hquote hbackslash (ih hfront)

/-- Ordinary text does not end a quoted text. -/
theorem Escaped.exists_behind (h : Escaped inner) (hfront : Ordinary front)
    (heq : inner ++ '"' :: rest = front ++ tail) :
    ∃ inner', Escaped inner' ∧ inner' ++ '"' :: rest = tail := by
  induction front generalizing inner with
  | nil => exact ⟨inner, h, heq⟩
  | cons c front ih =>
      obtain ⟨⟨hquote, hbackslash⟩, hfront⟩ := List.forall_mem_cons.mp hfront
      cases h with
      | nil => exact absurd (List.cons.inj heq).1.symm hquote
      | plain _ _ h => exact ih h hfront (List.cons.inj heq).2
      | escape h => exact absurd (List.cons.inj heq).1.symm hbackslash

/-! ## Identifiers in front of a bracket -/

theorem Numeral.mem (h : Numeral word) (hc : c ∈ word) : c.isDigit = true ∨ c = '.' ∨ c = '-' := by
  obtain ⟨⟨sign, whole, fraction, rfl, hsign, hwhole, hfraction⟩, -⟩ := h
  rcases List.mem_append.mp hc with hc | hc
  · rcases hsign with rfl | rfl
    · cases hc
    · exact Or.inr (Or.inr (List.mem_singleton.mp hc))
  · rcases List.mem_append.mp hc with hc | hc
    · exact Or.inl (hwhole c hc)
    · rcases hfraction with rfl | ⟨digits, rfl, hdigits⟩
      · cases hc
      · rcases List.mem_cons.mp hc with rfl | hc
        · exact Or.inr (Or.inl rfl)
        · exact Or.inl (hdigits c hc)

theorem identifier_singleton (h : isNameChar c = true) : Identifier [c] := by
  rcases Bool.or_eq_true_iff.mp h with hstart | hdigit
  · exact .name hstart (by simp)
  · refine .numeral ⟨⟨[], [c], [], rfl, Or.inl rfl, ?_, Or.inl rfl⟩, c, by simp, hdigit⟩
    simpa [Digits] using hdigit

theorem eq_singleton_of_append_eq (hword : ']' ∉ word) (hne : word ≠ [])
    (heq : word ++ ']' :: rest = c :: ']' :: tail) : word = [c] ∧ rest = tail := by
  cases word with
  | nil => exact absurd rfl hne
  | cons d word =>
      obtain ⟨rfl, hbehind⟩ := List.cons.inj heq
      cases word with
      | nil => exact ⟨rfl, (List.cons.inj hbehind).2⟩
      | cons e word =>
          obtain ⟨rfl, -⟩ := List.cons.inj hbehind
          simp at hword

/-- Where one character stands in front of the bracket, an identifier is
this character, or the character is a quote and opens a text. -/
theorem Identifier.eq_singleton_or (h : Identifier word)
    (heq : word ++ ']' :: rest = c :: ']' :: tail) :
    (isNameChar c = true ∧ rest = tail) ∨
      (c = '"' ∧ ∃ inner, Escaped inner ∧ inner ++ '"' :: ']' :: rest = ']' :: tail) := by
  cases h with
  | @name d word hstart hword =>
      have hnames : ∀ e ∈ d :: word, isNameChar e = true :=
        List.forall_mem_cons.mpr ⟨Bool.or_eq_true_iff.mpr (Or.inl hstart), hword⟩
      have hbracket : ']' ∉ d :: word := fun hmem => absurd (hnames _ hmem) (by decide)
      obtain ⟨hsingle, hrest⟩ := eq_singleton_of_append_eq hbracket nofun heq
      exact Or.inl ⟨hnames c (by simp [hsingle]), hrest⟩
  | numeral hnumeral =>
      obtain ⟨d, hd, hdigit⟩ := hnumeral.digit
      have hbracket : ']' ∉ word := by
        intro hmem
        rcases hnumeral.mem hmem with h | h | h <;> cases h
      obtain ⟨rfl, hrest⟩ := eq_singleton_of_append_eq hbracket (List.ne_nil_of_mem hd) heq
      obtain rfl := List.mem_singleton.mp hd
      exact Or.inl ⟨Bool.or_eq_true_iff.mpr (Or.inr hdigit), hrest⟩
  | quoted hinner =>
      obtain ⟨rfl, hbehind⟩ := List.cons.inj heq
      exact Or.inr ⟨rfl, _, hinner, (List.append_assoc _ _ _).symm.trans hbehind⟩

/-! ## Parts of a sentence -/

/-- Where two words of one kind of characters end, the texts go on
alike. -/
theorem append_inj_of_forall {p : Char → Bool} {front front' : List Char} {d : Char}
    (hfront : ∀ c ∈ front, p c = true) (hfront' : ∀ c ∈ front', p c = true) (hc : p c = false)
    (hd : p d = false) (heq : front ++ c :: rest = front' ++ d :: tail) :
    front = front' ∧ c :: rest = d :: tail := by
  have htake := congrArg (List.takeWhile p) heq
  rw [List.takeWhile_append_of_pos hfront, List.takeWhile_append_of_pos hfront',
    List.takeWhile_cons_of_neg (by simp [hc]), List.takeWhile_cons_of_neg (by simp [hd]),
    List.append_nil, List.append_nil] at htake
  subst htake
  exact ⟨rfl, List.append_cancel_left heq⟩

/-- What a sentence can go on with behind its heading. -/
inductive Part : List Char → Prop where
  | node {part : List Char} : NodeStatement part → Part part
  | edge {part : List Char} : EdgeStatement part → Part part
  | close : Part "\x7d".toList

theorem Part.exists_cons (h : Part part) :
    ∃ c tail, part = c :: tail ∧ c.isWhitespace = false := by
  cases h with
  | node h =>
      cases h with
      | shaped => exact ⟨'q', _, rfl, rfl⟩
  | edge h =>
      cases h with
      | labelled => exact ⟨'q', _, rfl, rfl⟩
  | close => exact ⟨_, [], rfl, rfl⟩

/-- The first part begins where the first blanks end. -/
theorem Spaced.exists_first {blank : List Char} (hblank : Blank blank)
    (h : Spaced parts (blank ++ c :: tail))
    (hparts : ∀ part ∈ parts, ∃ c tail, part = c :: tail ∧ c.isWhitespace = false)
    (hc : c.isWhitespace = false) :
    ∃ part parts' rest, parts = part :: parts' ∧ part ++ rest = c :: tail ∧
      Spaced parts' rest := by
  generalize htext : blank ++ c :: tail = text at h
  cases h with
  | nil htextblank =>
      rw [← htext] at htextblank
      rw [htextblank c (by simp)] at hc
      cases hc
  | @cons blank' part rest parts hblank' hrest =>
      obtain ⟨d, tail', rfl, hd⟩ := hparts part List.mem_cons_self
      have heq := append_inj_of_forall hblank' hblank hd hc htext.symm
      exact ⟨_, parts, rest, rfl, heq.2, hrest⟩

/-! ## Lines of a drawing -/

def nodeText (i : Nat) (shape : String) : List Char :=
  'q' :: (Nat.toDigits 10 i ++ (" [shape = ".toList ++ (shape.toList ++ "];".toList)))

/-- What is written in front of the label of an edge. -/
def edgeLead (e : Edge) : List Char :=
  'q' :: (Nat.toDigits 10 e.source ++ (" -> q".toList ++ (Nat.toDigits 10 e.target ++
    " [label=".toList)))

def nodeLines (nodes : List (Nat × String)) : List Char :=
  nodes.flatMap fun x => (Automaton.dotNode x.1 x.2).toList

def edgeLines (edges : List Edge) : List Char :=
  edges.flatMap fun e => (Automaton.dotEdge e).toList

/-- The lines of the edges and the line of the closing brace. -/
def closing (edges : List Edge) : List Char := edgeLines edges ++ "\x7d\n".toList

theorem toList_dotNode_append (i : Nat) (shape : String) (tail : List Char) :
    (Automaton.dotNode i shape).toList ++ tail =
      "    ".toList ++ (nodeText i shape ++ '\n' :: tail) := by
  rw [Dialect.toList_dotNode]
  simp only [nodeText, List.append_assoc, List.cons_append]
  rfl

theorem toList_dotEdge_append (e : Edge) (tail : List Char) :
    (Automaton.dotEdge e).toList ++ tail =
      "    ".toList ++ (edgeLead e ++ e.label.sign :: ']' :: ';' :: '\n' :: tail) := by
  rw [Dialect.toList_dotEdge, Label.toList_text]
  simp only [edgeLead, List.append_assoc, List.cons_append]
  rfl

theorem closing_cons (e : Edge) (edges : List Edge) :
    closing (e :: edges) =
      "    ".toList ++ (edgeLead e ++ e.label.sign :: ']' :: ';' :: '\n' :: closing edges) := by
  rw [closing, edgeLines, List.flatMap_cons, List.append_assoc, toList_dotEdge_append]
  rfl

theorem number_toDigits (n : Nat) : Number (Nat.toDigits 10 n) :=
  ⟨Nat.toDigits_ne_nil, fun _ hc => Nat.isDigit_of_mem_toDigits (by decide) (by decide) hc⟩

theorem ordinary_edgeLead (e : Edge) : Ordinary ("    ".toList ++ edgeLead e) := by
  have hsource := (number_toDigits e.source).2.ordinary
  have htarget := (number_toDigits e.target).2.ordinary
  have hspace : Ordinary "    q".toList := by decide
  have harrow : Ordinary " -> q".toList := by decide
  have hlabel : Ordinary " [label=".toList := by decide
  exact hspace.append (hsource.append (harrow.append (htarget.append hlabel)))

theorem nodeStatement_nodeText (h : shape = "box" ∨ shape = "doublecircle") :
    NodeStatement (nodeText i shape) :=
  .shaped (number_toDigits i) h

theorem edgeStatement_edgeLead (e : Edge) (h : Identifier label) :
    EdgeStatement (edgeLead e ++ (label ++ "];".toList)) := by
  have hstatement := EdgeStatement.labelled (number_toDigits e.source) (number_toDigits e.target) h
  simp only [edgeLead, List.append_assoc, List.cons_append]
  exact hstatement

/-! ## From paired labels to sentences -/

theorem escaped_lines (h : ∀ e ∈ edges, e.label ≠ .char '"') (hrest : Escaped rest) :
    Escaped (edgeLines edges ++ rest) := by
  induction edges with
  | nil => exact hrest
  | cons e edges ih =>
      obtain ⟨hlabel, hedges⟩ := List.forall_mem_cons.mp h
      have hquote : e.label.sign ≠ '"' := mt Label.sign_eq_quote_iff.mp hlabel
      have hbreak : Ordinary [';', '\n'] := by decide
      have hlines := hbreak.escaped_append (ih hedges)
      rw [edgeLines, List.flatMap_cons, List.append_assoc, toList_dotEdge_append,
        ← List.append_assoc]
      refine (ordinary_edgeLead e).escaped_append ?_
      by_cases hbackslash : e.label.sign = '\\'
      · rw [hbackslash]
        exact .escape hlines
      · exact .plain hquote hbackslash (.plain (by decide) (by decide) hlines)

theorem Spaced.line (part : List Char) (h : Spaced parts ('\n' :: tail)) :
    Spaced (part :: parts) ('\n' :: ("    ".toList ++ (part ++ '\n' :: tail))) := by
  have hblank : Blank "\n    ".toList := by decide
  exact .cons hblank h

theorem Spaced.node_lines (h : Spaced parts ('\n' :: tail)) :
    Spaced ((nodes.map fun x => nodeText x.1 x.2) ++ parts)
      ('\n' :: (nodeLines nodes ++ tail)) := by
  induction nodes with
  | nil => exact h
  | cons x nodes ih =>
      rw [nodeLines, List.flatMap_cons, List.append_assoc, toList_dotNode_append]
      exact ih.line (nodeText x.1 x.2)

theorem Paired.exists_statements (h : Paired edges) :
    ∃ parts, (∀ part ∈ parts, EdgeStatement part) ∧
      Spaced (parts ++ ["\x7d".toList]) ('\n' :: closing edges) := by
  induction h with
  | nil =>
      have hblank : Blank ['\n'] := by decide
      exact ⟨[], by simp, .cons hblank (.nil hblank)⟩
  | @bare e edges hlabel _ ih =>
      obtain ⟨parts, hparts, hspaced⟩ := ih
      have hstatement := edgeStatement_edgeLead e
        (identifier_singleton (Label.bare_iff.mp hlabel))
      refine ⟨_ :: parts, List.forall_mem_cons.mpr ⟨hstatement, hparts⟩, ?_⟩
      have hline := hspaced.line (edgeLead e ++ ([e.label.sign] ++ "];".toList))
      rw [closing_cons]
      simpa using hline
  | @quotes opens closes inner edges hopens hinner hcloses _ ih =>
      obtain ⟨parts, hparts, hspaced⟩ := ih
      have hbracket : Ordinary "];\n".toList := by decide
      have hescaped := hbracket.escaped_append
        (escaped_lines hinner ((ordinary_edgeLead closes).escaped_append .nil))
      have hstatement := edgeStatement_edgeLead opens (.quoted hescaped)
      refine ⟨_ :: parts, List.forall_mem_cons.mpr ⟨hstatement, hparts⟩, ?_⟩
      have hline := hspaced.line (edgeLead opens ++ ('"' :: ("];\n".toList ++
        (edgeLines inner ++ (("    ".toList ++ edgeLead closes) ++ [])) ++ ['"']) ++ "];".toList))
      have hlines : closing (inner ++ closes :: edges) =
          edgeLines inner ++ closing (closes :: edges) := by
        simp [closing, edgeLines]
      rw [closing_cons, hlines, closing_cons, Label.sign_eq_quote_iff.mpr hopens,
        Label.sign_eq_quote_iff.mpr hcloses]
      simpa using hline

/-! ## From sentences to paired labels -/

/-- A number in front of a space is read up to the space. -/
theorem Number.append_inj {name name' : List Char} (h : Number name) (h' : Number name')
    (hrest : rest.head? = some ' ') (htail : tail.head? = some ' ')
    (heq : name ++ rest = name' ++ tail) : rest = tail := by
  obtain ⟨rest, rfl⟩ := List.head?_eq_some_iff.mp hrest
  obtain ⟨tail, rfl⟩ := List.head?_eq_some_iff.mp htail
  exact (append_inj_of_forall h.2 h'.2 rfl rfl heq).2

/-- A part that is read where a node is drawn is the statement of the
node. -/
theorem Part.rest_of_nodeText (h : Part part) (hshape : shape = "box" ∨ shape = "doublecircle")
    (heq : part ++ rest = nodeText i shape ++ '\n' :: tail) : rest = '\n' :: tail := by
  cases h with
  | node h =>
      cases h with
      | @shaped name shape' hname hshape' =>
          simp only [nodeText, List.cons_append, List.append_assoc] at heq
          have hbehind := hname.append_inj (number_toDigits i) rfl rfl (List.cons.inj heq).2
          have hmarks := List.append_cancel_left hbehind
          rcases hshape with rfl | rfl <;> rcases hshape' with rfl | rfl
          · exact List.append_cancel_left (List.append_cancel_left hmarks)
          · exact absurd (List.cons.inj hmarks).1 (by decide)
          · exact absurd (List.cons.inj hmarks).1 (by decide)
          · exact List.append_cancel_left (List.append_cancel_left hmarks)
  | edge h =>
      cases h with
      | labelled hsource htarget hlabel =>
          simp only [nodeText, List.cons_append, List.append_assoc] at heq
          have hbehind := hsource.append_inj (number_toDigits i) rfl rfl (List.cons.inj heq).2
          exact absurd (List.cons.inj (List.cons.inj hbehind).2).1 (by decide)
  | close => cases heq

/-- A part that is read where an edge is drawn is the statement of the
edge, and its label is bare; or the label is a quote, and the part goes on
to another one. -/
theorem Part.rest_of_edgeLead (h : Part part)
    (heq : part ++ rest = edgeLead e ++ c :: ']' :: ';' :: '\n' :: tail) :
    (isNameChar c = true ∧ rest = '\n' :: tail) ∨
      (c = '"' ∧ ∃ inner, Escaped inner ∧
        inner ++ '"' :: ']' :: ';' :: rest = ']' :: ';' :: '\n' :: tail) := by
  cases h with
  | node h =>
      cases h with
      | shaped hname =>
          simp only [edgeLead, List.cons_append, List.append_assoc] at heq
          have hbehind := hname.append_inj (number_toDigits e.source) rfl rfl (List.cons.inj heq).2
          exact absurd (List.cons.inj (List.cons.inj hbehind).2).1 (by decide)
  | edge h =>
      cases h with
      | @labelled source target label hsource htarget hlabel =>
          simp only [edgeLead, List.cons_append, List.append_assoc] at heq
          have hbehind := hsource.append_inj (number_toDigits e.source) rfl rfl
            (List.cons.inj heq).2
          have hbehind := htarget.append_inj (number_toDigits e.target) rfl rfl
            (List.append_cancel_left hbehind)
          have hbehind := List.append_cancel_left hbehind
          rcases hlabel.eq_singleton_or hbehind with ⟨hname, hrest⟩ | hquote
          · exact Or.inl ⟨hname, (List.cons.inj hrest).2⟩
          · exact Or.inr hquote
  | close => cases heq

/-- A label that is a quote ends a quoted text. Behind any other one the
text goes on in the next line: a backslash takes along the bracket only. -/
theorem Escaped.label_cases (h : Escaped inner)
    (heq : inner ++ '"' :: rest = c :: ']' :: ';' :: '\n' :: tail) :
    (c = '"' ∧ rest = ']' :: ';' :: '\n' :: tail) ∨
      (c ≠ '"' ∧ ∃ inner', Escaped inner' ∧ inner' ++ '"' :: rest = tail) := by
  cases h with
  | nil =>
      obtain ⟨rfl, hrest⟩ := List.cons.inj heq
      exact Or.inl ⟨rfl, hrest⟩
  | plain hquote _ h =>
      have hbracket : Ordinary [']', ';', '\n'] := by decide
      obtain ⟨rfl, hbehind⟩ := List.cons.inj heq
      exact Or.inr ⟨hquote, h.exists_behind hbracket hbehind⟩
  | escape h =>
      have hsemicolon : Ordinary [';', '\n'] := by decide
      obtain ⟨rfl, hbehind⟩ := List.cons.inj heq
      exact Or.inr ⟨by decide, h.exists_behind hsemicolon (List.cons.inj hbehind).2⟩

/-- In the lines of a drawing, a quoted text ends at the first label that
is a quote. -/
theorem Escaped.exists_closing (h : Escaped inner) (heq : inner ++ '"' :: rest = closing edges) :
    ∃ front e back, edges = front ++ e :: back ∧ (∀ d ∈ front, d.label ≠ .char '"') ∧
      e.label = .char '"' ∧ rest = ']' :: ';' :: '\n' :: closing back := by
  induction edges generalizing inner with
  | nil =>
      have hclose : Ordinary "\x7d\n".toList := by decide
      obtain ⟨inner, -, heq⟩ := h.exists_behind hclose (heq.trans (List.append_nil _).symm)
      simp at heq
  | cons e edges ih =>
      rw [closing_cons, ← List.append_assoc] at heq
      obtain ⟨inner, h, heq⟩ := h.exists_behind (ordinary_edgeLead e) heq
      rcases h.label_cases heq with ⟨hquote, hrest⟩ | ⟨hquote, inner, h, heq⟩
      · exact ⟨[], e, edges, rfl, by simp, Label.sign_eq_quote_iff.mp hquote, hrest⟩
      · obtain ⟨front, d, back, rfl, hfront, hd, hrest⟩ := ih h heq
        have hlabel := mt Label.sign_eq_quote_iff.mpr hquote
        exact ⟨e :: front, d, back, rfl, List.forall_mem_cons.mpr ⟨hlabel, hfront⟩, hd, hrest⟩

/-- The next line of a drawing is read as the next part. -/
theorem Spaced.exists_line (h : Spaced parts ('\n' :: ("    ".toList ++ 'q' :: tail)))
    (hparts : ∀ part ∈ parts, Part part) :
    ∃ part parts' rest, parts = part :: parts' ∧ part ++ rest = 'q' :: tail ∧
      Spaced parts' rest := by
  have hblank : Blank "\n    ".toList := by decide
  exact Spaced.exists_first hblank h (fun part hpart => (hparts part hpart).exists_cons) rfl

theorem Spaced.behind_nodes
    (h : Spaced parts ('\n' :: (nodeLines nodes ++ tail)))
    (hparts : ∀ part ∈ parts, Part part)
    (hshapes : ∀ x ∈ nodes, x.2 = "box" ∨ x.2 = "doublecircle") :
    ∃ parts', (∀ part ∈ parts', Part part) ∧ Spaced parts' ('\n' :: tail) := by
  induction nodes generalizing parts with
  | nil => exact ⟨parts, hparts, h⟩
  | cons x nodes ih =>
      obtain ⟨hshape, hshapes⟩ := List.forall_mem_cons.mp hshapes
      rw [nodeLines, List.flatMap_cons, List.append_assoc, toList_dotNode_append] at h
      obtain ⟨part, parts, rest, rfl, hpart, hrest⟩ := h.exists_line hparts
      obtain ⟨hfirst, hparts⟩ := List.forall_mem_cons.mp hparts
      rw [hfirst.rest_of_nodeText hshape hpart] at hrest
      exact ih hrest hparts hshapes

/-- A line is left over for each edge, or several edges are gone with a
quoted text. -/
theorem Spaced.paired (h : Spaced parts ('\n' :: closing edges))
    (hparts : ∀ part ∈ parts, Part part) : Paired edges := by
  induction hlength : edges.length using Nat.strong_induction_on generalizing edges parts with
  | _ n ih =>
      cases edges with
      | nil => exact .nil
      | cons e edges =>
          rw [closing_cons] at h
          obtain ⟨part, parts, rest, rfl, hpart, hrest⟩ := h.exists_line hparts
          obtain ⟨hfirst, hparts⟩ := List.forall_mem_cons.mp hparts
          rcases hfirst.rest_of_edgeLead hpart with ⟨hname, rfl⟩ | ⟨hquote, inner, hinner, heq⟩
          · have hedges := ih edges.length (by rw [← hlength]; simp) hrest hparts rfl
            exact .bare (Label.bare_iff.mpr hname) hedges
          · have hbracket : Ordinary "];\n".toList := by decide
            obtain ⟨inner, hinner, heq⟩ := hinner.exists_behind hbracket heq
            obtain ⟨front, d, back, rfl, hfront, hd, htail⟩ := hinner.exists_closing heq
            obtain rfl := (List.cons.inj (List.cons.inj htail).2).2
            have hback := ih back.length (by rw [← hlength]; simp; omega) hrest hparts rfl
            exact .quotes (Label.sign_eq_quote_iff.mp hquote) hfront hd hback

/-! ## Whole drawings -/

/-- The states that a drawing lists, with their shapes. -/
def shapes (a : Automaton) : List (Nat × String) :=
  (a.start, "box") :: a.accepting.toList.map fun i => (i, "doublecircle")

theorem box_or_doublecircle_of_mem_shapes {a : Automaton} {x : Nat × String} (h : x ∈ shapes a) :
    x.2 = "box" ∨ x.2 = "doublecircle" := by
  rcases List.mem_cons.mp h with rfl | h
  · exact Or.inl rfl
  · obtain ⟨i, -, rfl⟩ := List.mem_map.mp h
    exact Or.inr rfl

theorem toList_dot (a : Automaton) :
    a.dot.toList =
      "digraph G \x7b".toList ++ ('\n' :: (nodeLines (shapes a) ++ closing a.edges)) := by
  simp [Automaton.dot, shapes, nodeLines, edgeLines, closing, String.toList_join,
    List.flatMap_map]

theorem sentence_of_paired {a : Automaton} (h : Paired a.edges) : Sentence a.dot := by
  obtain ⟨edges, hedges, hspaced⟩ := h.exists_statements
  refine ⟨(shapes a).map fun x => nodeText x.1 x.2, edges, ?_, hedges, ?_⟩
  · intro part hpart
    obtain ⟨x, hx, rfl⟩ := List.mem_map.mp hpart
    exact nodeStatement_nodeText (box_or_doublecircle_of_mem_shapes hx)
  · have hblank : Blank [] := by decide
    rw [toList_dot, List.append_assoc]
    exact .cons hblank hspaced.node_lines

theorem paired_of_sentence {a : Automaton} (h : Sentence a.dot) : Paired a.edges := by
  obtain ⟨nodes, edges, hnodes, hedges, hspaced⟩ := h
  have hparts : ∀ part ∈ nodes ++ edges ++ ["\x7d".toList], Part part := by
    simp only [List.mem_append, List.mem_singleton]
    rintro part ((hpart | hpart) | rfl)
    · exact .node (hnodes part hpart)
    · exact .edge (hedges part hpart)
    · exact .close
  have hstart := fun part hpart => (hparts part hpart).exists_cons
  have hblank : Blank [] := by decide
  rw [toList_dot] at hspaced
  obtain ⟨part, parts, rest, heq, hpart, hrest⟩ := Spaced.exists_first hblank hspaced
    (List.forall_mem_cons.mpr ⟨⟨'d', _, rfl, rfl⟩, hstart⟩) rfl
  obtain ⟨rfl, rfl⟩ := List.cons.inj heq
  rw [List.append_cancel_left hpart] at hrest
  obtain ⟨parts, hparts, hrest⟩ := hrest.behind_nodes hparts
    fun x hx => box_or_doublecircle_of_mem_shapes hx
  exact hrest.paired hparts

theorem paired_of_forall (h : ∀ e ∈ edges, e.label.Bare) : Paired edges := by
  induction edges with
  | nil => exact .nil
  | cons e edges ih =>
      obtain ⟨hlabel, hedges⟩ := List.forall_mem_cons.mp h
      exact .bare hlabel (ih hedges)

end Drawing

namespace Automaton

variable {a : Automaton}

/-- Patterns are written with letters, so their automata have bare labels. -/
theorem bare_of_compile {regex : String} {log : List Event} (h : compile regex = .ok (a, log)) :
    ∀ e ∈ a.edges, e.label.Bare := by
  obtain ⟨p, hp, rfl⟩ := Document.exists_pattern_of_compile h
  intro e he
  rw [Label.bare_iff]
  cases hlabel : e.label with
  | epsilon => decide
  | char c =>
      have hmem : c ∈ (ofPattern p regex).edges.filterMap Edge.letter? :=
        List.mem_filterMap.mpr ⟨e, he, by rw [Edge.letter?, hlabel]⟩
      have hletter := Pattern.isLetter_of_ofText hp c
        ((shaped_ofPattern p regex).letters_perm.mem_iff.mp hmem)
      have halpha : c.isAlpha = true := hletter
      simp [Label.sign, Drawing.isNameChar, Drawing.isNameStart, halpha]

/-- A drawing is a sentence if its labels are bare, or quotes that pair
up, and only then. That of a pattern's automaton always is. -/
theorem sentence_dot (a : Automaton) :
    (Drawing.Sentence a.dot ↔ Drawing.Paired a.edges) ∧
      ∀ (regex : String) (log : List Event), compile regex = .ok (a, log) →
        Drawing.Sentence a.dot := by
  constructor
  · exact ⟨Drawing.paired_of_sentence, Drawing.sentence_of_paired⟩
  · intro regex log h
    exact Drawing.sentence_of_paired (Drawing.paired_of_forall (bare_of_compile h))

/-- A star of letters, and two quotes that make one label of the
transition between theirs. -/
theorem sentence_dot_star_and_quotes :
    (∃ a log, compile "a*" = .ok (a, log) ∧ Drawing.Sentence a.dot) ∧
      Drawing.Sentence (ofPattern (.concat (.symbol '"') (.symbol '"')) "").dot := by
  constructor
  · exact ⟨_, _, Document.compile_star, (sentence_dot _).2 "a*" _ Document.compile_star⟩
  · have hedges : (ofPattern (.concat (.symbol '"') (.symbol '"')) "").edges =
        ⟨0, .char '"', 1⟩ :: ([⟨1, .epsilon, 2⟩] ++ ⟨2, .char '"', 3⟩ :: []) := by
      rw [ofPattern_eq]
      decide
    rw [(sentence_dot _).1, hedges]
    exact .quotes rfl (by simp) rfl .nil

/-- A quote for a symbol opens a label that nothing closes. -/
theorem not_sentence_dot_quote :
    let a := ofPattern (.symbol '"') "x"
    (Document.ofAutomaton a).Provided ∧
      a.dot = "digraph G \x7b\n    q0 [shape = box];\n    q1 [shape = doublecircle];\n" ++
        "    q0 -> q1 [label=\"];\n\x7d\n" ∧
      ¬ Drawing.Sentence a.dot := by
  refine ⟨.constructed _ _, ?_, ?_⟩
  · rw [ofPattern_eq]
    decide +kernel
  · intro h
    have hedges : (ofPattern (.symbol '"') "x").edges = [⟨0, .char '"', 1⟩] := by
      rw [ofPattern_eq]
      decide
    have hpaired := Drawing.paired_of_sentence h
    generalize (ofPattern (.symbol '"') "x").edges = edges at hpaired hedges
    cases hpaired with
    | nil => cases hedges
    | bare hlabel =>
        obtain ⟨rfl, -⟩ := List.cons.inj hedges
        exact absurd (Label.bare_iff.mp hlabel) (by decide)
    | quotes => simp at hedges

end Automaton

end Thompson
