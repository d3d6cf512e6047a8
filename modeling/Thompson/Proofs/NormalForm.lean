import Thompson.Pattern.Printer
import Thompson.Proofs.Refusal

/-!
# Patterns that a text can spell

The parser folds to the left, so not every pattern comes from a text: a
normal one is a union of concatenations of starred letters, and only the
left operand of a union or of a concatenation can be one itself. Of a
normal pattern the parentheses of its printed text tell nothing: without
them the text is the one it was parsed from (`ofText_eq_ok_iff`).

Between the two stand the readings of the grammar. A normal pattern is
the fold of an expression that names letters
(`Normal.exists_expression`); its text without parentheses is that of
the expression (`Expression.Lettered.bare_eq`); and the tokens of this
text, concatenations included, spell the expression
(`Expression.Lettered.spells_spell`), so it is what the parser reads.
-/

namespace Thompson

namespace Pattern

/-! ## Normal forms -/

/-- A letter with any number of stars. -/
inductive Starred : Pattern → Prop where
  | symbol {c : Char} : isLetter c = true → Starred (.symbol c)
  | star {p : Pattern} : Starred p → Starred (.star p)

/-- Starred letters, concatenated from the left. -/
inductive Chained : Pattern → Prop where
  | single {p : Pattern} : Starred p → Chained p
  | concat {p q : Pattern} : Chained p → Starred q → Chained (.concat p q)

/-- Chains, united from the left. -/
inductive Normal : Pattern → Prop where
  | single {p : Pattern} : Chained p → Normal p
  | union {p q : Pattern} : Normal p → Chained q → Normal (.union p q)

/-! ## Texts without parentheses -/

def withoutParentheses (text : List Char) : List Char := text.filter fun c => c ≠ '(' ∧ c ≠ ')'

/-- The printed text of a pattern without its parentheses. -/
def bare (p : Pattern) : String := String.ofList (withoutParentheses p.print.toList)

theorem toList_bare (p : Pattern) : p.bare.toList = withoutParentheses p.text.toList := by
  rw [bare, String.toList_ofList, print_eq]

theorem bare_symbol {c : Char} (h : isLetter c = true) : (symbol c).bare.toList = [c] := by
  have hc : c ≠ '(' ∧ c ≠ ')' := by
    constructor
    · rintro rfl
      cases h
    · rintro rfl
      cases h
  simp [toList_bare, text, withoutParentheses, hc]

theorem bare_star (p : Pattern) : (star p).bare.toList = p.bare.toList ++ ['*'] := by
  simp [toList_bare, text, withoutParentheses]

theorem bare_concat (p q : Pattern) :
    (concat p q).bare.toList = p.bare.toList ++ q.bare.toList := by
  simp [toList_bare, text, withoutParentheses]

theorem bare_union (p q : Pattern) :
    (union p q).bare.toList = p.bare.toList ++ '|' :: q.bare.toList := by
  simp [toList_bare, text, withoutParentheses]

/-! ## Readings that name letters -/

def Sequence.Lettered (piece : Sequence) : Prop := ∀ i ∈ piece.toList, isLetter i.letter = true

def Expression.Lettered (e : Expression) : Prop := ∀ piece ∈ e.toList, piece.Lettered

def Expression.text (e : Expression) : List Char := ['|'].intercalate (e.toList.map Sequence.text)

namespace Row

variable {α : Type}

/-- One more part behind the others. -/
def push (r : Row α) (a : α) : Row α := ⟨r.first, r.others ++ [a]⟩

theorem forall_mem_push {r : Row α} {a : α} {P : α → Prop} :
    (∀ b ∈ (r.push a).toList, P b) ↔ (∀ b ∈ r.toList, P b) ∧ P a := by
  simp [push, toList, or_imp, forall_and, and_assoc]

variable {join : Pattern → Pattern → Pattern} {value : α → Pattern}

theorem fold_push (r : Row α) (a : α) :
    (r.push a).fold join value = join (r.fold join value) (value a) :=
  List.foldl_concat ..

/-- What holds of the first part, and still when a part is joined, holds
of the whole row. -/
theorem fold_induction {P : Pattern → Prop} (r : Row α) (hfirst : P (value r.first))
    (hjoin : ∀ p, P p → ∀ a ∈ r.others, P (join p (value a))) : P (r.fold join value) :=
  List.foldlRecOn r.others _ hfirst hjoin

variable {between : List Char} {written : α → List Char}

theorem intercalate_map (r : Row α) :
    between.intercalate (r.toList.map written) =
      written r.first ++ r.others.flatMap fun a => between ++ written a := by
  rw [toList, List.map_cons, intercalate_cons, List.flatMap_map]

theorem bare_foldl
    (hjoin : ∀ p q, (join p q).bare.toList = p.bare.toList ++ (between ++ q.bare.toList))
    {parts : List α} (hparts : ∀ a ∈ parts, (value a).bare.toList = written a) (p : Pattern) :
    (parts.foldl (fun p a => join p (value a)) p).bare.toList =
      p.bare.toList ++ parts.flatMap fun a => between ++ written a := by
  induction parts generalizing p with
  | nil => simp
  | cons a parts ih =>
      obtain ⟨ha, hparts⟩ := List.forall_mem_cons.mp hparts
      rw [List.foldl_cons, ih hparts, hjoin, ha, List.flatMap_cons]
      simp only [List.append_assoc]

/-- A row is written as its parts are, with what joins them in between. -/
theorem bare_fold (r : Row α)
    (hjoin : ∀ p q, (join p q).bare.toList = p.bare.toList ++ (between ++ q.bare.toList))
    (hparts : ∀ a ∈ r.toList, (value a).bare.toList = written a) :
    (r.fold join value).bare.toList = between.intercalate (r.toList.map written) := by
  obtain ⟨hfirst, hothers⟩ := List.forall_mem_cons.mp hparts
  rw [fold, bare_foldl hjoin hothers, hfirst, intercalate_map]

end Row

/-! ## From readings to normal patterns -/

theorem Item.starred {i : Item} (h : isLetter i.letter = true) : Starred i.pattern := by
  obtain ⟨c, stars⟩ := i
  change isLetter c = true at h
  show Starred (Pattern.star^[stars] (.symbol c))
  induction stars with
  | zero => exact .symbol h
  | succ k ih =>
      rw [Function.iterate_succ_apply']
      exact .star ih

theorem Item.bare_eq {i : Item} (h : isLetter i.letter = true) :
    i.pattern.bare.toList = i.text := by
  obtain ⟨c, stars⟩ := i
  change isLetter c = true at h
  show (Pattern.star^[stars] (.symbol c)).bare.toList = c :: List.replicate stars '*'
  induction stars with
  | zero => exact bare_symbol h
  | succ k ih =>
      rw [Function.iterate_succ_apply', bare_star, ih, List.replicate_succ', List.cons_append]

theorem Sequence.Lettered.chained {piece : Sequence} (h : piece.Lettered) :
    Chained piece.pattern := by
  obtain ⟨hfirst, hothers⟩ := List.forall_mem_cons.mp h
  refine Row.fold_induction piece (.single (Item.starred hfirst)) ?_
  intro p hp i hi
  exact .concat hp (Item.starred (hothers i hi))

theorem Sequence.Lettered.bare_eq {piece : Sequence} (h : piece.Lettered) :
    piece.pattern.bare.toList = piece.text := by
  have hbare : piece.pattern.bare.toList = [].intercalate (piece.toList.map Item.text) :=
    Row.bare_fold piece bare_concat fun i hi => Item.bare_eq (h i hi)
  rw [hbare, Row.intercalate_map]
  rfl

theorem Expression.Lettered.normal {e : Expression} (h : e.Lettered) : Normal e.pattern := by
  obtain ⟨hfirst, hothers⟩ := List.forall_mem_cons.mp h
  refine Row.fold_induction e (.single (Sequence.Lettered.chained hfirst)) ?_
  intro p hp piece hpiece
  exact .union hp (hothers piece hpiece).chained

theorem Expression.Lettered.bare_eq {e : Expression} (h : e.Lettered) :
    e.pattern.bare.toList = e.text :=
  Row.bare_fold e bare_union fun piece hpiece => (h piece hpiece).bare_eq

/-! ## From normal patterns to readings -/

variable {p : Pattern}

theorem Starred.exists_item (h : Starred p) :
    ∃ i : Item, isLetter i.letter = true ∧ p = i.pattern := by
  induction h with
  | @symbol c hc => exact ⟨⟨c, 0⟩, hc, rfl⟩
  | star _ ih =>
      obtain ⟨⟨c, stars⟩, hc, rfl⟩ := ih
      exact ⟨⟨c, stars + 1⟩, hc, (Function.iterate_succ_apply' ..).symm⟩

theorem Chained.exists_sequence (h : Chained p) :
    ∃ piece : Sequence, piece.Lettered ∧ p = piece.pattern := by
  induction h with
  | single h =>
      obtain ⟨i, hi, rfl⟩ := h.exists_item
      exact ⟨⟨i, []⟩, by simpa [Sequence.Lettered, Row.toList] using hi, rfl⟩
  | concat _ hq ih =>
      obtain ⟨piece, hpiece, rfl⟩ := ih
      obtain ⟨i, hi, rfl⟩ := hq.exists_item
      exact ⟨piece.push i, Row.forall_mem_push.mpr ⟨hpiece, hi⟩, (Row.fold_push ..).symm⟩

theorem Normal.exists_expression (h : Normal p) :
    ∃ e : Expression, e.Lettered ∧ p = e.pattern := by
  induction h with
  | single h =>
      obtain ⟨piece, hpiece, rfl⟩ := h.exists_sequence
      exact ⟨⟨piece, []⟩, by simpa [Expression.Lettered, Row.toList] using hpiece, rfl⟩
  | union _ hq ih =>
      obtain ⟨e, he, rfl⟩ := ih
      obtain ⟨piece, hpiece, rfl⟩ := hq.exists_sequence
      exact ⟨e.push piece, Row.forall_mem_push.mpr ⟨he, hpiece⟩, (Row.fold_push ..).symm⟩

/-! ## The tokens of a reading -/

theorem spell_replicate_star (before : Option Char) (k : Nat) :
    spell before (List.replicate k '*') = List.replicate k .star := by
  induction k generalizing before with
  | zero => rfl
  | succ k ih =>
      rw [List.replicate_succ, spell_cons_of_not_joined (Or.inr rfl), ih, List.replicate_succ]
      rfl

theorem Item.spells_cons {i : Item} (h : isLetter i.letter = true) :
    i.Spells (tokenOf i.letter :: spell (some i.letter) (List.replicate i.stars '*')) := by
  refine ⟨_, _, rfl, kind_tokenOf_of_isLetter h, ?_, ?_, ?_⟩
  · rw [tokenOf, if_pos h]
    rfl
  · rw [spell_replicate_star, List.length_replicate]
  · intro s hs
    rw [spell_replicate_star] at hs
    rw [List.eq_of_mem_replicate hs]
    rfl

/-- What joins an item to what stands before it is its concatenation. -/
theorem Item.exists_spells {i : Item} (h : isLetter i.letter = true) (before : Option Char) :
    ∃ front middle, spell before i.text = front ++ middle ∧ Joint front ∧ i.Spells middle := by
  rw [Item.text, spell_cons, tokensAt]
  split
  · exact ⟨[.concat], _, rfl, Or.inr ⟨_, rfl, rfl⟩, Item.spells_cons h⟩
  · exact ⟨[], _, rfl, Or.inl rfl, Item.spells_cons h⟩

theorem led_spell_items {items : List Item} (h : ∀ i ∈ items, isLetter i.letter = true)
    (before : Option Char) :
    Led Joint Item.Spells items (spell before (items.flatMap Item.text)) := by
  induction items generalizing before with
  | nil => exact .nil
  | cons i items ih =>
      obtain ⟨hi, hitems⟩ := List.forall_mem_cons.mp h
      obtain ⟨front, middle, htokens, hfront, hmiddle⟩ := Item.exists_spells hi before
      rw [List.flatMap_cons, spell_append, htokens, List.append_assoc]
      exact .cons hfront hmiddle (ih hitems _)

/-- At the beginning of a text and behind a bar there is nothing to join. -/
theorem Sequence.Lettered.spells_spell {piece : Sequence} (h : piece.Lettered)
    {before : Option Char} (hbefore : before.any isLetter = false) :
    piece.Spells (spell before piece.text) := by
  obtain ⟨hfirst, hothers⟩ := List.forall_mem_cons.mp h
  rw [Sequence.text, Row.toList, List.flatMap_cons, spell_append]
  refine ⟨_, _, rfl, ?_, led_spell_items hothers _⟩
  rw [Item.text, spell_cons_of_not_joined (Or.inl hbefore)]
  exact Item.spells_cons hfirst

theorem led_spell_pieces {pieces : List Sequence} (h : ∀ piece ∈ pieces, piece.Lettered)
    (before : Option Char) :
    Led Bar Sequence.Spells pieces
      (spell before (pieces.flatMap fun piece => ['|'] ++ piece.text)) := by
  induction pieces generalizing before with
  | nil => exact .nil
  | cons piece pieces ih =>
      obtain ⟨hpiece, hpieces⟩ := List.forall_mem_cons.mp h
      rw [List.flatMap_cons, spell_append, List.singleton_append,
        spell_cons_of_not_joined (Or.inr rfl)]
      show Led _ _ _ ([.union] ++ (spell (some '|') piece.text ++ spell _ _))
      exact .cons ⟨.union, rfl, rfl⟩ (hpiece.spells_spell rfl) (ih hpieces _)

theorem Expression.Lettered.spells_spell {e : Expression} (h : e.Lettered) :
    e.Spells (spell none e.text) := by
  obtain ⟨hfirst, hothers⟩ := List.forall_mem_cons.mp h
  rw [Expression.text, Row.intercalate_map, spell_append]
  exact ⟨_, _, rfl, Sequence.Lettered.spells_spell hfirst rfl, led_spell_pieces hothers _⟩

/-! ## The text of a reading -/

theorem Sequence.Lettered.wellSpelled {piece : Sequence} (h : piece.Lettered) :
    WellSpelled piece.text := by
  intro c hc
  obtain ⟨i, hi, hc⟩ := List.mem_flatMap.mp hc
  rcases List.mem_cons.mp hc with rfl | hstar
  · exact isPatternChar_iff.mpr (Or.inl (h i hi))
  · rw [List.eq_of_mem_replicate hstar]
    rfl

theorem Expression.Lettered.wellSpelled {e : Expression} (h : e.Lettered) : WellSpelled e.text := by
  obtain ⟨hfirst, hothers⟩ := List.forall_mem_cons.mp h
  rw [Expression.text, Row.intercalate_map]
  intro c hc
  rcases List.mem_append.mp hc with hc | hc
  · exact Sequence.Lettered.wellSpelled hfirst c hc
  · obtain ⟨piece, hmem, hc⟩ := List.mem_flatMap.mp hc
    rcases List.mem_cons.mp hc with rfl | hc
    · rfl
    · exact (hothers piece hmem).wellSpelled c hc

variable {pattern : String}

/-- What a text is parsed to is the fold of an expression with this text. -/
theorem ofText_eq_ok_iff_exists_expression :
    ofText pattern = .ok p ↔
      ∃ e : Expression, e.Lettered ∧ pattern.toList = e.text ∧ p = e.pattern := by
  constructor
  · intro h
    obtain ⟨e, rfl, hreads, hsplit⟩ := exists_expression_of_ofText h
    refine ⟨e, fun piece hpiece => (hreads piece hpiece).1, ?_, rfl⟩
    rw [Expression.text, ← hsplit, List.intercalate_splitOn]
  · rintro ⟨e, he, htext, rfl⟩
    have hspelled : WellSpelled pattern.toList := by
      rw [htext]
      exact he.wellSpelled
    rw [ofText_of_wellSpelled hspelled]
    refine parse_of_spells ?_
    rw [upToEnd_spell, htext]
    exact he.spells_spell

/-- Parsing is the inverse of printing without parentheses, between texts
that are patterns and normal patterns. -/
theorem ofText_eq_ok_iff (pattern : String) (p : Pattern) :
    ofText pattern = .ok p ↔ p.Normal ∧ pattern = p.bare := by
  rw [ofText_eq_ok_iff_exists_expression, ← String.toList_inj]
  constructor
  · rintro ⟨e, he, htext, rfl⟩
    exact ⟨he.normal, htext.trans he.bare_eq.symm⟩
  · rintro ⟨hp, htext⟩
    obtain ⟨e, he, rfl⟩ := hp.exists_expression
    exact ⟨e, he, htext.trans he.bare_eq, rfl⟩

end Pattern

end Thompson
