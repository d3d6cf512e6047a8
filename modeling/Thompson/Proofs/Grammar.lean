import Mathlib.Data.List.Basic
import Mathlib.Logic.Function.Iterate
import Thompson.Pattern.Parser

/-!
# What the readers of tokens read

The levels of the grammar as relations between a reading and the tokens
it spells: an `Item` is a symbol with its stars, and pieces and
expressions are parts in a row, each part behind the first one led in by
`Joint` or by `Bar`. A reader that succeeds has taken off tokens that
such a reading spells, and its pattern is the fold of the reading to the
left (`exists_expression_of_parse`).
-/

namespace Thompson

namespace Pattern

/-! ## Readings -/

/-- A symbol and the number of its stars. -/
structure Item where
  letter : Char
  stars : Nat

/-- Parts in a row, at least one. -/
structure Row (α : Type) where
  first : α
  others : List α

namespace Row

variable {α : Type}

def toList (r : Row α) : List α := r.first :: r.others

/-- Join the patterns of the parts, from left to right. -/
def fold (join : Pattern → Pattern → Pattern) (value : α → Pattern) (r : Row α) : Pattern :=
  r.others.foldl (fun p part => join p (value part)) (value r.first)

end Row

abbrev Sequence := Row Item

abbrev Expression := Row Sequence

def Item.pattern (i : Item) : Pattern := Pattern.star^[i.stars] (.symbol i.letter)

def Sequence.pattern (p : Sequence) : Pattern := p.fold .concat Item.pattern

def Expression.pattern (e : Expression) : Pattern := e.fold .union Sequence.pattern

/-! ## The grammar -/

/-- The tokens of some parts, each behind tokens that lead to it. -/
inductive Led {α : Type} (lead : List Token → Prop) (part : α → List Token → Prop) :
    List α → List Token → Prop where
  | nil : Led lead part [] []
  | cons {a : α} {as : List α} {front middle back : List Token} :
      lead front → part a middle → Led lead part as back →
      Led lead part (a :: as) (front ++ (middle ++ back))

/-- Only the first part of a row stands without a lead. -/
def Row.Spells {α : Type} (lead : List Token → Prop) (part : α → List Token → Prop)
    (r : Row α) (ts : List Token) : Prop :=
  ∃ front back, ts = front ++ back ∧ part r.first front ∧ Led lead part r.others back

/-- Two items of a piece are joined by a concatenation or by nothing. -/
def Joint (ts : List Token) : Prop := ts = [] ∨ ∃ t : Token, t.kind = .concat ∧ ts = [t]

/-- Two pieces of an expression are separated by a union. -/
def Bar (ts : List Token) : Prop := ∃ t : Token, t.kind = .union ∧ ts = [t]

def Item.Spells (i : Item) (ts : List Token) : Prop :=
  ∃ t stars, ts = t :: stars ∧ t.kind = .symbol ∧ t.value = i.letter ∧
    stars.length = i.stars ∧ ∀ s ∈ stars, s.kind = .star

def Sequence.Spells (p : Sequence) (ts : List Token) : Prop := Row.Spells Joint Item.Spells p ts

def Expression.Spells (e : Expression) (ts : List Token) : Prop :=
  Row.Spells Bar Sequence.Spells e ts

/-! ## Readers -/

variable {p q : Pattern} {ts rest : List Token}

theorem readStars_eq (h : readStars p ts = (q, rest)) :
    ∃ stars : List Token, ts = stars ++ rest ∧ (∀ s ∈ stars, s.kind = .star) ∧
      q = Pattern.star^[stars.length] p := by
  fun_induction readStars p ts with
  | case1 p =>
      obtain ⟨rfl, rfl⟩ := Prod.mk.inj h
      exact ⟨[], rfl, by simp, rfl⟩
  | case2 p t ts ht ih =>
      obtain ⟨stars, rfl, hstars, rfl⟩ := ih h
      exact ⟨t :: stars, rfl, List.forall_mem_cons.mpr ⟨ht, hstars⟩, rfl⟩
  | case3 p t ts ht =>
      obtain ⟨rfl, rfl⟩ := Prod.mk.inj h
      exact ⟨[], rfl, by simp, rfl⟩

theorem readItem_eq (h : readItem ts = .ok (q, rest)) :
    ∃ (i : Item) (used : List Token), ts = used ++ rest ∧ i.Spells used ∧ q = i.pattern := by
  cases ts with
  | nil => cases h
  | cons t ts =>
      rw [readItem] at h
      split at h
      · next ht =>
          obtain ⟨stars, rfl, hstars, rfl⟩ := readStars_eq (Except.ok.inj h)
          exact ⟨⟨t.value, stars.length⟩, t :: stars, rfl, ⟨t, stars, rfl, ht, rfl, rfl, hstars⟩,
            rfl⟩
      · cases h

/-- What leads to the next item is a joint. -/
theorem nextItem?_eq {next : List Token} (h : nextItem? ts = some next) :
    ∃ front, ts = front ++ next ∧ Joint front := by
  cases ts with
  | nil => cases h
  | cons t ts =>
      rw [nextItem?] at h
      split at h
      · next ht =>
          obtain rfl := Option.some.inj h
          exact ⟨[t], rfl, Or.inr ⟨t, ht, rfl⟩⟩
      · obtain rfl := Option.some.inj h
        exact ⟨[], rfl, Or.inl rfl⟩
      · cases h

theorem readItems_eq (h : readItems p ts = .ok (q, rest)) :
    ∃ (items : List Item) (used : List Token), ts = used ++ rest ∧
      Led Joint Item.Spells items used ∧
      q = items.foldl (fun p i => .concat p i.pattern) p := by
  fun_induction readItems p ts with
  | case1 p ts hn =>
      obtain ⟨rfl, rfl⟩ := Prod.mk.inj (Except.ok.inj h)
      exact ⟨[], [], rfl, .nil, rfl⟩
  | case2 => cases h
  | case3 p ts next hn item rest' hi _ _ ih =>
      obtain ⟨front, rfl, hfront⟩ := nextItem?_eq hn
      obtain ⟨i, middle, rfl, hmiddle, rfl⟩ := readItem_eq hi
      obtain ⟨items, back, rfl, hback, rfl⟩ := ih h
      exact ⟨i :: items, front ++ (middle ++ back), by simp, .cons hfront hmiddle hback, rfl⟩

theorem readPiece_eq (h : readPiece ts = .ok (q, rest)) :
    ∃ (piece : Sequence) (used : List Token), ts = used ++ rest ∧ piece.Spells used ∧
      q = piece.pattern := by
  unfold readPiece at h
  split at h
  · cases h
  · next item rest' hi =>
      obtain ⟨i, front, rfl, hfront, rfl⟩ := readItem_eq hi
      obtain ⟨items, back, rfl, hback, rfl⟩ := readItems_eq h
      exact ⟨⟨i, items⟩, front ++ back, by simp, ⟨front, back, rfl, hfront, hback⟩, rfl⟩

theorem nextPiece?_eq {next : List Token} (h : nextPiece? ts = some next) :
    ∃ front, ts = front ++ next ∧ Bar front := by
  cases ts with
  | nil => cases h
  | cons t ts =>
      rw [nextPiece?] at h
      split at h
      · next ht =>
          obtain rfl := Option.some.inj h
          exact ⟨[t], rfl, t, ht, rfl⟩
      · cases h

theorem readPieces_eq (h : readPieces p ts = .ok (q, rest)) :
    ∃ (pieces : List Sequence) (used : List Token), ts = used ++ rest ∧
      Led Bar Sequence.Spells pieces used ∧
      q = pieces.foldl (fun p piece => .union p piece.pattern) p := by
  fun_induction readPieces p ts with
  | case1 p ts hn =>
      obtain ⟨rfl, rfl⟩ := Prod.mk.inj (Except.ok.inj h)
      exact ⟨[], [], rfl, .nil, rfl⟩
  | case2 => cases h
  | case3 p ts next hn piece rest' hp _ _ ih =>
      obtain ⟨front, rfl, hfront⟩ := nextPiece?_eq hn
      obtain ⟨piece, middle, rfl, hmiddle, rfl⟩ := readPiece_eq hp
      obtain ⟨pieces, back, rfl, hback, rfl⟩ := ih h
      exact ⟨piece :: pieces, front ++ (middle ++ back), by simp, .cons hfront hmiddle hback, rfl⟩

theorem readExpression_eq (h : readExpression ts = .ok (q, rest)) :
    ∃ (e : Expression) (used : List Token), ts = used ++ rest ∧ e.Spells used ∧
      q = e.pattern := by
  unfold readExpression at h
  split at h
  · cases h
  · next piece rest' hp =>
      obtain ⟨piece, front, rfl, hfront, rfl⟩ := readPiece_eq hp
      obtain ⟨pieces, back, rfl, hback, rfl⟩ := readPieces_eq h
      exact ⟨⟨piece, pieces⟩, front ++ back, by simp, ⟨front, back, rfl, hfront, hback⟩, rfl⟩

/-- Parsed tokens spell an expression up to their end, or up to an end of
input among them. -/
theorem exists_expression_of_parse (h : parse ts = .ok q) :
    ∃ (e : Expression) (used rest : List Token), ts = used ++ rest ∧ e.Spells used ∧
      q = e.pattern ∧ ∀ t ∈ rest.head?, t.kind = .endOfInput := by
  unfold parse at h
  split at h
  · cases h
  · split at h <;> cases h
  · next hread =>
      obtain rfl := Except.ok.inj h
      obtain ⟨e, used, rfl, hused, rfl⟩ := readExpression_eq hread
      exact ⟨e, used, [], rfl, hused, rfl, by simp⟩
  · next p t rest hread =>
      split at h
      · next ht =>
          obtain rfl := Except.ok.inj h
          obtain ⟨e, used, rfl, hused, rfl⟩ := readExpression_eq hread
          exact ⟨e, used, t :: rest, rfl, hused, rfl, by simpa using ht⟩
      · cases h

end Pattern

end Thompson
