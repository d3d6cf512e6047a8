import Mathlib.Data.List.Forall2
import Mathlib.Logic.ExistsUnique
import Thompson.Proofs.Grammar
import Thompson.Proofs.Provided

/-!
# From the text of a pattern to its language

What a pattern means, said about its text alone: cut at the bars it
falls into pieces, each piece is read as letters with their stars
(`Item.Reads`), and a text is a word if it falls into parts, one for
each letter of some piece (`Item.Matches`).

Two things connect this with what `compile` does. The tokens of a text
spell it again once concatenations are dropped (`literal_spell`), so a
reading of the tokens is one of the text, and there is no other
(`Item.text_injective`). And a pattern that is folded from parts matches
what the parts match one behind the other, or one of them
(`Sequence.matches_iff`, `Expression.matches_iff`).
-/

namespace Thompson

/-! ## Words of items -/

namespace Pattern

namespace Item

/-- How an item is written. -/
def text (i : Item) : List Char := i.letter :: List.replicate i.stars '*'

/-- Whether a text is what an item stands for: its letter, or the letter
any number of times if it has a star. -/
def Matches (i : Item) (part : List Char) : Prop :=
  if i.stars = 0 then part = [i.letter] else ∃ n, part = List.replicate n i.letter

/-- Whether a piece of a pattern is written as these items. -/
def Reads (items : List Item) (piece : List Char) : Prop :=
  (∀ i ∈ items, isLetter i.letter = true) ∧ items.flatMap text = piece

end Item

variable {p : Pattern} {word : List Char}

/-- If `p` matches repetitions of one letter only, and the letter itself,
then its star matches every repetition. -/
theorem star_matches_iff_replicate {c : Char} (hc : p.Matches [c])
    (hp : ∀ word, p.Matches word → ∃ n, word = List.replicate n c) :
    (star p).Matches word ↔ ∃ n, word = List.replicate n c := by
  constructor
  · intro h
    generalize hq : star p = q at h
    induction h with
    | symbol | unionLeft | unionRight | concat => cases hq
    | starNil => exact ⟨0, rfl⟩
    | starCons hfront _ _ ih =>
        obtain rfl := star.inj hq
        obtain ⟨m, rfl⟩ := hp _ hfront
        obtain ⟨n, rfl⟩ := ih rfl
        exact ⟨m + n, by rw [List.replicate_append_replicate]⟩
  · rintro ⟨n, rfl⟩
    induction n with
    | zero => exact .starNil
    | succ n ih =>
        rw [List.replicate_succ]
        exact Matches.starCons hc ih

/-- A letter with any stars matches itself, and nothing but repetitions
of itself. -/
theorem iterate_star_matches (c : Char) : ∀ k,
    (star^[k] (symbol c)).Matches [c] ∧
      ∀ word, (star^[k] (symbol c)).Matches word → ∃ n, word = List.replicate n c
  | 0 => ⟨.symbol c, fun _ h => ⟨1, symbol_matches_iff.mp h⟩⟩
  | k + 1 => by
      obtain ⟨hc, hp⟩ := iterate_star_matches c k
      rw [Function.iterate_succ_apply']
      exact ⟨(star_matches_iff_replicate hc hp).mpr ⟨1, rfl⟩,
        fun _ h => (star_matches_iff_replicate hc hp).mp h⟩

theorem Item.pattern_matches_iff (i : Item) : i.pattern.Matches word ↔ i.Matches word := by
  obtain ⟨c, stars⟩ := i
  unfold Item.pattern Item.Matches
  cases stars with
  | zero => simpa using symbol_matches_iff
  | succ k =>
      obtain ⟨hc, hp⟩ := iterate_star_matches c k
      rw [Function.iterate_succ_apply', star_matches_iff_replicate hc hp]
      simp

/-! ## Words of folds -/

/-- Items joined to a pattern match one behind the other. -/
theorem foldl_concat_matches_iff (items : List Item) (p : Pattern) :
    (items.foldl (fun p i => .concat p i.pattern) p).Matches word ↔
      ∃ front parts, word = front ++ parts.flatten ∧ p.Matches front ∧
        List.Forall₂ Item.Matches items parts := by
  induction items generalizing p with
  | nil =>
      constructor
      · intro h
        exact ⟨word, [], by simp, h, .nil⟩
      · rintro ⟨front, parts, rfl, h, hparts⟩
        cases hparts
        simpa using h
  | cons i items ih =>
      rw [List.foldl_cons, ih]
      constructor
      · rintro ⟨front, parts, rfl, hfront, hparts⟩
        obtain ⟨front, part, rfl, hp, hi⟩ := concat_matches_iff.mp hfront
        exact ⟨front, part :: parts, by simp, hp, .cons (i.pattern_matches_iff.mp hi) hparts⟩
      · rintro ⟨front, parts, rfl, hp, hparts⟩
        cases hparts with
        | @cons _ part _ parts hi hparts =>
            exact ⟨front ++ part, parts, by simp, .concat hp (i.pattern_matches_iff.mpr hi),
              hparts⟩

theorem Sequence.matches_iff (piece : Sequence) :
    piece.pattern.Matches word ↔
      ∃ parts, List.Forall₂ Item.Matches piece.toList parts ∧ parts.flatten = word := by
  unfold Sequence.pattern Row.fold Row.toList
  rw [foldl_concat_matches_iff]
  constructor
  · rintro ⟨front, parts, rfl, hfirst, hparts⟩
    exact ⟨front :: parts, .cons (Item.pattern_matches_iff _ |>.mp hfirst) hparts, rfl⟩
  · rintro ⟨parts, hparts, rfl⟩
    cases hparts with
    | @cons _ part _ parts hfirst hparts =>
        exact ⟨part, parts, rfl, (Item.pattern_matches_iff _).mpr hfirst, hparts⟩

theorem foldl_union_matches_iff (pieces : List Sequence) (p : Pattern) :
    (pieces.foldl (fun p piece => .union p piece.pattern) p).Matches word ↔
      p.Matches word ∨ ∃ piece ∈ pieces, piece.pattern.Matches word := by
  induction pieces generalizing p with
  | nil => simp
  | cons piece pieces ih =>
      rw [List.foldl_cons, ih, union_matches_iff, or_assoc]
      simp

theorem Expression.matches_iff (e : Expression) :
    e.pattern.Matches word ↔ ∃ piece ∈ e.toList, piece.pattern.Matches word := by
  unfold Expression.pattern Row.fold Row.toList
  rw [foldl_union_matches_iff]
  simp

end Pattern

/-! ## Texts of tokens -/

/-- The character of a text that a token comes from. -/
def Token.char? (t : Token) : Option Char :=
  match t.kind with
  | .symbol => some t.value
  | .union => some '|'
  | .star => some '*'
  | .concat => none
  | .endOfInput => none

/-- The text that tokens spell. -/
def literal (ts : List Token) : List Char := ts.filterMap Token.char?

theorem literal_append (ts us : List Token) : literal (ts ++ us) = literal ts ++ literal us :=
  List.filterMap_append

theorem tokenOf_char? {c : Char} (h : isPatternChar c = true) :
    (tokenOf c).char? = some c := by
  unfold isPatternChar at h
  unfold tokenOf
  by_cases hletter : isLetter c = true
  · rw [if_pos hletter]
    rfl
  · by_cases hbar : c = '|'
    · subst hbar
      rfl
    · rw [if_neg hletter, if_neg hbar]
      simp only [hletter, hbar, Bool.false_or, Bool.or_eq_true, beq_iff_eq, false_or] at h
      rw [h]
      rfl

theorem literal_spell (text : List Char) (h : ∀ c ∈ text, isPatternChar c = true)
    (before : Option Char) : literal (spell before text) = text := by
  induction text generalizing before with
  | nil => rfl
  | cons c text ih =>
      obtain ⟨hc, htext⟩ := List.forall_mem_cons.mp h
      have htoken : literal (tokensAt before c) = [c] := by
        have hliteral : literal [tokenOf c] = [c] := by simp [literal, tokenOf_char? hc]
        unfold tokensAt
        split
        · exact hliteral
        · exact hliteral
      rw [spell_cons, literal_append, ih htext, htoken]
      rfl

/-- The tokens of a text are no end of input, and its symbols are
letters. -/
theorem kind_of_mem_spell {before : Option Char} {text : List Char} {t : Token}
    (ht : t ∈ spell before text) :
    t.kind ≠ .endOfInput ∧ (t.kind = .symbol → isLetter t.value = true) := by
  induction text generalizing before with
  | nil => cases ht
  | cons c text ih =>
      rw [spell_cons, List.mem_append] at ht
      rcases ht with ht | ht
      · have htoken : (tokenOf c).kind ≠ .endOfInput ∧
            ((tokenOf c).kind = .symbol → isLetter (tokenOf c).value = true) := by
          unfold tokenOf
          split
          · next hletter => exact ⟨by simp [Token.symbol], fun _ => hletter⟩
          · split <;> simp [Token.union, Token.star]
        unfold tokensAt at ht
        split at ht
        · rcases List.mem_cons.mp ht with rfl | ht
          · simp [Token.concat]
          · rwa [List.mem_singleton.mp ht]
        · rwa [List.mem_singleton.mp ht]
      · exact ih ht

theorem tokenize_eq {pattern : String} {ts : List Token} (h : tokenize pattern = .ok ts) :
    (∀ c ∈ pattern.toList, isPatternChar c = true) ∧
      ts = spell none pattern.toList ++ [.endOfInput] := by
  unfold tokenize at h
  simp only at h
  split at h
  · cases h
  · next hfind =>
      refine ⟨fun c hc => ?_, (Except.ok.inj h).symm⟩
      obtain ⟨i, hi, rfl⟩ := List.mem_iff_getElem.mp hc
      have := List.find?_eq_none.mp hfind (pattern.toList[i], i)
        (List.mem_zipIdx_iff_getElem?.mpr (List.getElem?_eq_getElem hi))
      simpa using this

namespace Pattern

/-! ## Texts of readings -/

theorem literal_stars {stars : List Token} (h : ∀ s ∈ stars, s.kind = .star) :
    literal stars = List.replicate stars.length '*' := by
  induction stars with
  | nil => rfl
  | cons s stars ih =>
      obtain ⟨hs, hstars⟩ := List.forall_mem_cons.mp h
      have hchar : s.char? = some '*' := by rw [Token.char?, hs]
      rw [literal, List.filterMap_cons_some hchar, List.length_cons, List.replicate_succ]
      exact congrArg _ (ih hstars)

theorem Item.Spells.literal_eq {i : Item} {ts : List Token} (h : i.Spells ts) :
    literal ts = i.text := by
  obtain ⟨t, stars, rfl, hkind, hvalue, hlength, hstars⟩ := h
  have hchar : t.char? = some i.letter := by rw [Token.char?, hkind, hvalue]
  rw [literal, List.filterMap_cons_some hchar, Item.text, ← hlength]
  exact congrArg _ (literal_stars hstars)

theorem Joint.literal_eq {ts : List Token} (h : Joint ts) : literal ts = [] := by
  rcases h with rfl | ⟨t, ht, rfl⟩
  · rfl
  · simp [literal, Token.char?, ht]

theorem Bar.literal_eq {ts : List Token} (h : Bar ts) : literal ts = ['|'] := by
  obtain ⟨t, ht, rfl⟩ := h
  simp [literal, Token.char?, ht]

/-- The text of a row, given those of its parts and of what stands
between them. -/
theorem Led.literal_eq {α : Type} {lead : List Token → Prop} {part : α → List Token → Prop}
    {as : List α} {ts : List Token} (h : Led lead part as ts) {between : List Char}
    {value : α → List Char} (hlead : ∀ {ts}, lead ts → literal ts = between)
    (hpart : ∀ {a ts}, part a ts → literal ts = value a) :
    literal ts = as.flatMap fun a => between ++ value a := by
  induction h with
  | nil => rfl
  | cons hfront hmiddle _ ih =>
      rw [literal_append, literal_append, hlead hfront, hpart hmiddle, ih]
      simp

def Sequence.text (piece : Sequence) : List Char := piece.toList.flatMap Item.text

theorem Sequence.Spells.literal_eq {piece : Sequence} {ts : List Token} (h : piece.Spells ts) :
    literal ts = piece.text := by
  obtain ⟨front, back, rfl, hfirst, hothers⟩ := h
  rw [literal_append, hfirst.literal_eq,
    hothers.literal_eq Joint.literal_eq Item.Spells.literal_eq]
  rfl

theorem Expression.Spells.literal_eq {e : Expression} {ts : List Token} (h : e.Spells ts) :
    literal ts = ['|'].intercalate (e.toList.map Sequence.text) := by
  obtain ⟨front, back, rfl, hfirst, hothers⟩ := h
  rw [literal_append, hfirst.literal_eq,
    hothers.literal_eq Bar.literal_eq Sequence.Spells.literal_eq, Row.toList, List.map_cons,
    intercalate_cons, List.flatMap_map]

/-- Each part of a row is spelled by some of its tokens. -/
theorem Led.exists_part {α : Type} {lead : List Token → Prop} {part : α → List Token → Prop}
    {as : List α} {ts : List Token} (h : Led lead part as ts) {a : α} (ha : a ∈ as) :
    ∃ us, us ⊆ ts ∧ part a us := by
  induction h with
  | nil => cases ha
  | @cons b as front middle back _ hmiddle _ ih =>
      rcases List.mem_cons.mp ha with rfl | ha
      · exact ⟨middle, fun t ht => by simp [ht], hmiddle⟩
      · obtain ⟨us, hus, hpart⟩ := ih ha
        exact ⟨us, fun t ht => by simp [hus ht], hpart⟩

theorem Row.Spells.exists_part {α : Type} {lead : List Token → Prop}
    {part : α → List Token → Prop} {r : Row α} {ts : List Token} (h : r.Spells lead part ts)
    {a : α} (ha : a ∈ r.toList) : ∃ us, us ⊆ ts ∧ part a us := by
  obtain ⟨front, back, rfl, hfirst, hothers⟩ := h
  rcases List.mem_cons.mp ha with rfl | ha
  · exact ⟨front, List.subset_append_left _ _, hfirst⟩
  · obtain ⟨us, hus, hpart⟩ := hothers.exists_part ha
    exact ⟨us, fun t ht => List.mem_append_right _ (hus ht), hpart⟩

/-! ## Readings of texts -/

theorem stars_injective {m n : Nat} {back back' : List Char} (h : back.head? ≠ some '*')
    (h' : back'.head? ≠ some '*')
    (heq : List.replicate m '*' ++ back = List.replicate n '*' ++ back') :
    m = n ∧ back = back' := by
  induction m generalizing n with
  | zero =>
      cases n with
      | zero => exact ⟨rfl, heq⟩
      | succ n =>
          obtain rfl : back = '*' :: (List.replicate n '*' ++ back') := heq
          exact absurd rfl h
  | succ m ih =>
      cases n with
      | zero =>
          obtain rfl : '*' :: (List.replicate m '*' ++ back) = back' := heq
          exact absurd rfl h'
      | succ n =>
          obtain ⟨rfl, hback⟩ := ih (List.cons.inj heq).2
          exact ⟨rfl, hback⟩

/-- A letter is no star, so a next item begins where the stars end. -/
theorem Item.head?_flatMap_text {items : List Item} (h : ∀ i ∈ items, isLetter i.letter = true) :
    (items.flatMap text).head? ≠ some '*' := by
  cases items with
  | nil => simp
  | cons i items =>
      intro hhead
      have hletter := h i (List.mem_cons_self ..)
      rw [Option.some.inj hhead] at hletter
      cases hletter

theorem Item.text_injective : ∀ {items items' : List Item},
    (∀ i ∈ items, isLetter i.letter = true) → (∀ i ∈ items', isLetter i.letter = true) →
    items.flatMap text = items'.flatMap text → items = items'
  | [], [], _, _, _ => rfl
  | [], _ :: _, _, _, htext => by cases htext
  | _ :: _, [], _, _, htext => by cases htext
  | ⟨c, m⟩ :: items, ⟨d, n⟩ :: items', h, h', htext => by
      have hitems := fun i hi => h i (List.mem_cons_of_mem _ hi)
      have hitems' := fun i hi => h' i (List.mem_cons_of_mem _ hi)
      obtain ⟨hletter, hback⟩ := List.cons.inj htext
      obtain ⟨hstars, hrest⟩ := stars_injective (head?_flatMap_text hitems)
        (head?_flatMap_text hitems') hback
      obtain rfl : c = d := hletter
      obtain rfl : m = n := hstars
      rw [text_injective hitems hitems' hrest]

/-- No piece has a bar in it. -/
theorem Item.not_bar_mem_text {items : List Item} (h : ∀ i ∈ items, isLetter i.letter = true) :
    '|' ∉ items.flatMap text := by
  intro hmem
  obtain ⟨i, hi, hbar⟩ := List.mem_flatMap.mp hmem
  rcases List.mem_cons.mp hbar with hletter | hstar
  · have := h i hi
    rw [← hletter] at this
    cases this
  · cases List.eq_of_mem_replicate hstar

/-- Behind the tokens of a text up to an end of input there is no more
text. -/
theorem literal_rest {before : Option Char} {text : List Char} {used rest : List Token}
    (hsplit : spell before text ++ [.endOfInput] = used ++ rest)
    (hrest : ∀ t ∈ rest.head?, t.kind = .endOfInput) : literal rest = [] := by
  rcases List.append_eq_append_iff.mp hsplit with ⟨back, -, hback⟩ | ⟨middle, hmiddle, rfl⟩
  · have hsuffix : rest.Sublist [.endOfInput] := hback ▸ List.sublist_append_right ..
    exact List.sublist_nil.mp (hsuffix.filterMap Token.char?)
  · cases middle with
    | nil => rfl
    | cons t middle =>
        have ht : t ∈ spell before text := by simp [hmiddle]
        exact absurd (hrest t rfl) (kind_of_mem_spell ht).1

/-- The pattern of a text has an expression that the text is cut into. -/
theorem exists_expression_of_ofText {pattern : String} {p : Pattern}
    (h : ofText pattern = .ok p) :
    ∃ e : Expression, p = e.pattern ∧
      (∀ piece ∈ e.toList, Item.Reads piece.toList piece.text) ∧
      pattern.toList.splitOn '|' = e.toList.map Sequence.text := by
  obtain ⟨ts, htokens, h⟩ := bind_eq_ok h
  obtain ⟨hchars, rfl⟩ := tokenize_eq htokens
  obtain ⟨e, used, rest, hsplit, hused, rfl, hrest⟩ := exists_expression_of_parse h
  have hreads : ∀ piece ∈ e.toList, Item.Reads piece.toList piece.text := by
    intro piece hpiece
    refine ⟨fun i hi => ?_, rfl⟩
    obtain ⟨us, hus, hspells⟩ := Row.Spells.exists_part hused hpiece
    obtain ⟨vs, hvs, t, stars, rfl, hkind, hvalue, -, -⟩ :=
      Row.Spells.exists_part hspells hi
    have ht : t ∈ spell none pattern.toList ++ [.endOfInput] := by
      rw [hsplit]
      exact List.mem_append_left _ (hus (hvs (List.mem_cons_self ..)))
    rw [← hvalue]
    rcases List.mem_append.mp ht with ht | ht
    · exact (kind_of_mem_spell ht).2 hkind
    · rw [List.mem_singleton.mp ht] at hkind
      cases hkind
  have htext : literal (spell none pattern.toList ++ [.endOfInput]) =
      literal (used ++ rest) := congrArg literal hsplit
  rw [literal_append, literal_append, literal_rest hsplit hrest, literal_spell _ hchars,
    hused.literal_eq] at htext
  refine ⟨e, rfl, hreads, ?_⟩
  rw [(List.append_nil _).symm.trans (htext.trans (List.append_nil _)),
    List.splitOn_intercalate '|' ?_ (by simp [Row.toList])]
  intro text htext
  obtain ⟨piece, hpiece, rfl⟩ := List.mem_map.mp htext
  exact Item.not_bar_mem_text (hreads piece hpiece).1

end Pattern

/-! ## Words of a compiled pattern -/

namespace Automaton

/-- A pattern that compiles is cut into pieces that can each be read in
one way, and its words are those that fall into parts for the items of
one piece. -/
theorem compile_accepts_iff {pattern : String} {a : Automaton} {log : List Event}
    (h : compile pattern = .ok (a, log)) :
    (∀ piece ∈ pattern.toList.splitOn '|', ∃! items, Pattern.Item.Reads items piece) ∧
      ∀ text : String, a.accepts text = true ↔
        ∃ piece ∈ pattern.toList.splitOn '|', ∃ items, Pattern.Item.Reads items piece ∧
          ∃ parts, List.Forall₂ Pattern.Item.Matches items parts ∧
            parts.flatten = text.toList := by
  obtain ⟨p, hp, rfl⟩ := Document.exists_pattern_of_compile h
  obtain ⟨e, rfl, hreads, hsplit⟩ := Pattern.exists_expression_of_ofText hp
  have unique : ∀ {items items' piece}, Pattern.Item.Reads items piece →
      Pattern.Item.Reads items' piece → items = items' := fun h h' =>
    Pattern.Item.text_injective h.1 h'.1 (h.2.trans h'.2.symm)
  rw [hsplit]
  constructor
  · intro piece hpiece
    obtain ⟨piece, hmem, rfl⟩ := List.mem_map.mp hpiece
    exact ⟨piece.toList, hreads piece hmem, fun items hitems => unique hitems (hreads piece hmem)⟩
  · intro text
    rw [accepts_ofPattern, Pattern.Expression.matches_iff]
    constructor
    · rintro ⟨piece, hmem, hmatches⟩
      exact ⟨piece.text, List.mem_map_of_mem hmem, piece.toList, hreads piece hmem,
        piece.matches_iff.mp hmatches⟩
    · rintro ⟨piece, hpiece, items, hitems, hparts⟩
      obtain ⟨piece, hmem, rfl⟩ := List.mem_map.mp hpiece
      rw [unique hitems (hreads piece hmem)] at hparts
      exact ⟨piece, hmem, piece.matches_iff.mpr hparts⟩

theorem compile_accepts_iff_letter_star :
    ∃ a log, compile "ab*" = .ok (a, log) ∧
      (∀ piece ∈ "ab*".toList.splitOn '|', ∃! items, Pattern.Item.Reads items piece) ∧
      ∀ text : String, a.accepts text = true ↔
        ∃ piece ∈ "ab*".toList.splitOn '|', ∃ items, Pattern.Item.Reads items piece ∧
          ∃ parts, List.Forall₂ Pattern.Item.Matches items parts ∧
            parts.flatten = text.toList := by
  have htokens : tokenize "ab*" =
      .ok [.symbol 'a', .concat, .symbol 'b', .star, .endOfInput] := by decide
  have hparse : Pattern.ofText "ab*" = .ok (.concat (.symbol 'a') (.star (.symbol 'b'))) := by
    rw [Pattern.ofText, htokens]
    cbv
  have hcompile : compile "ab*" =
      .ok (construct (.concat (.symbol 'a') (.star (.symbol 'b'))) "ab*") := by
    rw [compile, hparse]
    rfl
  exact ⟨_, _, hcompile, compile_accepts_iff hcompile⟩

end Automaton

end Thompson
