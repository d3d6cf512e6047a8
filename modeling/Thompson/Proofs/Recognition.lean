import Mathlib.Data.List.TakeWhile
import Thompson.Proofs.Basic
import Thompson.Proofs.Grammar

/-!
# What the parser decides

Of the tokens read so far one thing matters for what may come next:
whether they are an expression already, or whether an operand has to
follow (`Standing`). Whatever the grammar spells goes from any standing
to a complete one (`Expression.Spells.completes`). Of a whole list of
tokens, as far as it is read (`upToEnd`), one of three things is true,
and the parser tells which (`parse_cases`): the tokens are an expression,
a token is out of place, or the tokens end where an operand has to stand.

What an expression is folded to follows from the other direction: the
readers read back what the grammar spells, up to a token that none of
them would take (`Expression.Spells.readExpression_append`).
-/

namespace Thompson

namespace Pattern

/-! ## Standings -/

/-- What tokens read so far are to an expression. -/
inductive Standing where
  /-- An operand has to follow. -/
  | wanting
  /-- They are an expression, which may go on. -/
  | complete
  deriving DecidableEq

namespace Standing

/-- The standing after one more token; `none` if the token is out of
place. -/
def next? : Standing → TokenKind → Option Standing
  | _, .symbol => some .complete
  | .complete, .star => some .complete
  | .complete, .concat => some .wanting
  | .complete, .union => some .wanting
  | _, _ => none

/-- The standing after some more tokens. -/
def after? (s : Standing) (ts : List Token) : Option Standing :=
  ts.foldlM (fun s t => s.next? t.kind) s

@[simp] theorem next?_symbol (s : Standing) : s.next? .symbol = some .complete := by
  cases s <;> rfl

@[simp] theorem after?_nil (s : Standing) : s.after? [] = some s := rfl

@[simp] theorem after?_cons (s : Standing) (t : Token) (ts : List Token) :
    s.after? (t :: ts) = (s.next? t.kind).bind (after? · ts) := List.foldlM_cons

theorem after?_append (s : Standing) (us vs : List Token) :
    s.after? (us ++ vs) = (s.after? us).bind (after? · vs) := List.foldlM_append

/-- The only tokens out of place are an end of input, and any but a
symbol where an operand has to stand. -/
theorem next?_eq_none {s : Standing} {kind : TokenKind} (h : s.next? kind = none) :
    kind = .endOfInput ∨ s = .wanting ∧ kind ≠ .symbol := by
  cases s <;> cases kind <;> simp_all [next?]

theorem next?_wanting {kind : TokenKind} (h : kind ≠ .symbol) : wanting.next? kind = none := by
  cases kind <;> simp_all [next?]

/-- Tokens that keep their places have no end of input among them. -/
theorem kind_ne_of_after? {s s' : Standing} {ts : List Token} (h : s.after? ts = some s') :
    ∀ t ∈ ts, t.kind ≠ .endOfInput := by
  induction ts generalizing s with
  | nil => simp
  | cons t ts ih =>
      rw [after?_cons, Option.bind_eq_some_iff] at h
      obtain ⟨next, hnext, hts⟩ := h
      intro u hu
      rcases List.mem_cons.mp hu with rfl | hu
      · intro hkind
        rw [hkind] at hnext
        cases s <;> cases hnext
      · exact ih hts u hu

end Standing

/-! ## Standings of sentences -/

/-- From any standing the tokens lead to a complete one. -/
def Completes (ts : List Token) : Prop := ∀ s : Standing, s.after? ts = some .complete

theorem after?_stars {stars : List Token} (h : ∀ s ∈ stars, s.kind = .star) :
    Standing.complete.after? stars = some .complete := by
  induction stars with
  | nil => rfl
  | cons s stars ih =>
      obtain ⟨hs, hstars⟩ := List.forall_mem_cons.mp h
      rw [Standing.after?_cons, hs]
      exact ih hstars

theorem Item.Spells.completes {i : Item} {ts : List Token} (h : i.Spells ts) : Completes ts := by
  obtain ⟨t, stars, rfl, ht, -, -, hstars⟩ := h
  intro s
  rw [Standing.after?_cons, ht, Standing.next?_symbol]
  exact after?_stars hstars

theorem Joint.exists_after? {ts : List Token} (h : Joint ts) :
    ∃ s, Standing.complete.after? ts = some s := by
  rcases h with rfl | ⟨t, ht, rfl⟩
  · exact ⟨.complete, rfl⟩
  · exact ⟨.wanting, by simp [ht, Standing.next?]⟩

theorem Bar.exists_after? {ts : List Token} (h : Bar ts) :
    ∃ s, Standing.complete.after? ts = some s := by
  obtain ⟨t, ht, rfl⟩ := h
  exact ⟨.wanting, by simp [ht, Standing.next?]⟩

section Rows

variable {α : Type} {lead : List Token → Prop} {part : α → List Token → Prop}

theorem Led.after? {as : List α} {ts : List Token} (h : Led lead part as ts)
    (hlead : ∀ {ts}, lead ts → ∃ s, Standing.complete.after? ts = some s)
    (hpart : ∀ {a ts}, part a ts → Completes ts) :
    Standing.complete.after? ts = some .complete := by
  induction h with
  | nil => rfl
  | cons hfront hmiddle _ ih =>
      obtain ⟨s, hs⟩ := hlead hfront
      rw [Standing.after?_append, hs, Option.bind_some, Standing.after?_append, hpart hmiddle s]
      exact ih

/-- A row is complete at its end if its parts are and what leads to a
part may follow one. -/
theorem Row.Spells.completes {r : Row α} {ts : List Token} (h : r.Spells lead part ts)
    (hlead : ∀ {ts}, lead ts → ∃ s, Standing.complete.after? ts = some s)
    (hpart : ∀ {a ts}, part a ts → Completes ts) : Completes ts := by
  obtain ⟨front, back, rfl, hfirst, hothers⟩ := h
  intro s
  rw [Standing.after?_append, hpart hfirst s]
  exact hothers.after? hlead hpart

end Rows

theorem Sequence.Spells.completes {piece : Sequence} {ts : List Token} (h : piece.Spells ts) :
    Completes ts :=
  Row.Spells.completes h Joint.exists_after? Item.Spells.completes

theorem Expression.Spells.completes {e : Expression} {ts : List Token} (h : e.Spells ts) :
    Completes ts :=
  Row.Spells.completes h Bar.exists_after? Sequence.Spells.completes

/-! ## Where readers stop -/

/-- No token of these kinds stands in front. -/
def Lacks (kinds : List TokenKind) (ts : List Token) : Prop := ∀ t ∈ ts.head?, t.kind ∉ kinds

@[simp] theorem lacks_nil (kinds : List TokenKind) : Lacks kinds [] := by simp [Lacks]

@[simp] theorem lacks_cons {kinds : List TokenKind} {t : Token} {ts : List Token} :
    Lacks kinds (t :: ts) ↔ t.kind ∉ kinds := by simp [Lacks]

variable {p q : Pattern} {ts rest : List Token}

theorem lacks_readStars (h : readStars p ts = (q, rest)) : Lacks [.star] rest := by
  fun_induction readStars p ts with
  | case1 p =>
      obtain ⟨-, rfl⟩ := Prod.mk.inj h
      exact lacks_nil _
  | case2 p t ts ht ih => exact ih h
  | case3 p t ts ht =>
      obtain ⟨-, rfl⟩ := Prod.mk.inj h
      simpa using ht

theorem lacks_readItem (h : readItem ts = .ok (q, rest)) : Lacks [.star] rest := by
  cases ts with
  | nil => cases h
  | cons t ts =>
      rw [readItem] at h
      split at h
      · exact lacks_readStars (Except.ok.inj h)
      · cases h

theorem lacks_of_nextItem? (h : nextItem? ts = none) : Lacks [.concat, .symbol] ts := by
  cases ts with
  | nil => exact lacks_nil _
  | cons t ts =>
      rw [nextItem?] at h
      split at h <;> simp_all

theorem lacks_readItems (hts : Lacks [.star] ts) (h : readItems p ts = .ok (q, rest)) :
    Lacks [.star, .concat, .symbol] rest := by
  fun_induction readItems p ts with
  | case1 p ts hn =>
      obtain ⟨-, rfl⟩ := Prod.mk.inj (Except.ok.inj h)
      intro t ht
      have := hts t ht
      have := lacks_of_nextItem? hn t ht
      simp_all
  | case2 => cases h
  | case3 p ts next hn item rest' hi _ _ ih => exact ih (lacks_readItem hi) h

theorem lacks_readPiece (h : readPiece ts = .ok (q, rest)) :
    Lacks [.star, .concat, .symbol] rest := by
  unfold readPiece at h
  split at h
  · cases h
  · next hi => exact lacks_readItems (lacks_readItem hi) h

theorem lacks_of_nextPiece? (h : nextPiece? ts = none) : Lacks [.union] ts := by
  cases ts with
  | nil => exact lacks_nil _
  | cons t ts =>
      rw [nextPiece?] at h
      split at h <;> simp_all

theorem lacks_readPieces (hts : Lacks [.star, .concat, .symbol] ts)
    (h : readPieces p ts = .ok (q, rest)) : Lacks [.star, .concat, .symbol, .union] rest := by
  fun_induction readPieces p ts with
  | case1 p ts hn =>
      obtain ⟨-, rfl⟩ := Prod.mk.inj (Except.ok.inj h)
      intro t ht
      have := hts t ht
      have := lacks_of_nextPiece? hn t ht
      simp_all
  | case2 => cases h
  | case3 p ts next hn piece rest' hp _ _ ih => exact ih (lacks_readPiece hp) h

/-- An expression is read up to an end of input, if there is one. -/
theorem kind_eq_of_readExpression (h : readExpression ts = .ok (q, rest)) :
    ∀ t ∈ rest.head?, t.kind = .endOfInput := by
  unfold readExpression at h
  split at h
  · cases h
  · next hp =>
      intro t ht
      have := lacks_readPieces (lacks_readPiece hp) h t ht
      cases hkind : t.kind <;> simp_all

/-! ## Where readers fail -/

/-- The tokens keep their places up to `rest`, where an operand has to
stand and none does. -/
def FailsAt (s : Standing) (ts rest : List Token) : Prop :=
  ∃ used, ts = used ++ rest ∧ s.after? used = some .wanting ∧ Lacks [.symbol] rest

theorem FailsAt.prepend {s s' : Standing} {used : List Token} (h : FailsAt s' ts rest)
    (hused : s.after? used = some s') : FailsAt s (used ++ ts) rest := by
  obtain ⟨more, rfl, hmore, hrest⟩ := h
  refine ⟨used ++ more, by simp, ?_, hrest⟩
  rw [Standing.after?_append, hused]
  exact hmore

theorem readItem_eq_error (h : readItem ts = .error rest) : rest = ts ∧ Lacks [.symbol] rest := by
  cases ts with
  | nil =>
      obtain rfl := Except.error.inj h
      exact ⟨rfl, lacks_nil _⟩
  | cons t ts =>
      rw [readItem] at h
      split at h
      · cases h
      · next ht =>
          obtain rfl := Except.error.inj h
          exact ⟨rfl, by simpa using ht⟩

/-- Only behind a concatenation can a next item be missing. -/
theorem failsAt_of_nextItem? {next : List Token} (hn : nextItem? ts = some next)
    (hi : readItem next = .error rest) : FailsAt .complete ts rest := by
  obtain ⟨rfl, hrest⟩ := readItem_eq_error hi
  cases ts with
  | nil => cases hn
  | cons t ts =>
      rw [nextItem?] at hn
      split at hn
      · next ht =>
          obtain rfl := Option.some.inj hn
          exact ⟨[t], rfl, by simp [ht, Standing.next?], hrest⟩
      · next ht =>
          obtain rfl := Option.some.inj hn
          exact absurd ht (by simpa using hrest)
      · cases hn

theorem readItems_eq_error (h : readItems p ts = .error rest) : FailsAt .complete ts rest := by
  fun_induction readItems p ts with
  | case1 => cases h
  | case2 p ts next hn rest' hi =>
      obtain rfl := Except.error.inj h
      exact failsAt_of_nextItem? hn hi
  | case3 p ts next hn item rest' hi _ _ ih =>
      obtain ⟨front, rfl, hfront⟩ := nextItem?_eq hn
      obtain ⟨i, middle, rfl, hmiddle, rfl⟩ := readItem_eq hi
      obtain ⟨s, hs⟩ := hfront.exists_after?
      exact ((ih h).prepend (hmiddle.completes s)).prepend hs

theorem readPiece_eq_error (h : readPiece ts = .error rest) : FailsAt .wanting ts rest := by
  unfold readPiece at h
  split at h
  · next hi =>
      obtain ⟨rfl, hrest⟩ := readItem_eq_error hi
      obtain rfl := Except.error.inj h
      exact ⟨[], rfl, rfl, hrest⟩
  · next hi =>
      obtain ⟨i, front, rfl, hfront, rfl⟩ := readItem_eq hi
      exact (readItems_eq_error h).prepend (hfront.completes .wanting)

theorem readPieces_eq_error (h : readPieces p ts = .error rest) : FailsAt .complete ts rest := by
  fun_induction readPieces p ts with
  | case1 => cases h
  | case2 p ts next hn rest' hp =>
      obtain rfl := Except.error.inj h
      obtain ⟨front, rfl, t, ht, rfl⟩ := nextPiece?_eq hn
      exact (readPiece_eq_error hp).prepend (by simp [ht, Standing.next?])
  | case3 p ts next hn piece rest' hp _ _ ih =>
      obtain ⟨front, rfl, hfront⟩ := nextPiece?_eq hn
      obtain ⟨piece, middle, rfl, hmiddle, rfl⟩ := readPiece_eq hp
      obtain ⟨s, hs⟩ := hfront.exists_after?
      exact ((ih h).prepend (hmiddle.completes s)).prepend hs

theorem readExpression_eq_error (h : readExpression ts = .error rest) :
    FailsAt .wanting ts rest := by
  unfold readExpression at h
  split at h
  · next hp =>
      obtain rfl := Except.error.inj h
      exact readPiece_eq_error hp
  · next hp =>
      obtain ⟨piece, front, rfl, hfront, rfl⟩ := readPiece_eq hp
      exact (readPieces_eq_error h).prepend (hfront.completes .wanting)

/-! ## Reading sentences back -/

theorem readStars_append {stars : List Token} (h : ∀ s ∈ stars, s.kind = .star)
    (hrest : Lacks [.star] rest) (p : Pattern) :
    readStars p (stars ++ rest) = (Pattern.star^[stars.length] p, rest) := by
  induction stars generalizing p with
  | nil =>
      cases rest with
      | nil => rfl
      | cons t rest =>
          have ht : t.kind ≠ .star := by simpa using hrest
          exact if_neg ht
  | cons s stars ih =>
      obtain ⟨hs, hstars⟩ := List.forall_mem_cons.mp h
      rw [List.cons_append, readStars, if_pos hs, ih hstars]
      rfl

theorem Item.Spells.readItem_append {i : Item} (h : i.Spells ts) (hrest : Lacks [.star] rest) :
    readItem (ts ++ rest) = .ok (i.pattern, rest) := by
  obtain ⟨t, stars, rfl, ht, hvalue, hlength, hstars⟩ := h
  rw [List.cons_append, readItem, if_pos ht, readStars_append hstars hrest, hvalue, hlength]
  rfl

theorem Item.Spells.exists_symbol {i : Item} (h : i.Spells ts) :
    ∃ t more, ts = t :: more ∧ t.kind = .symbol := by
  obtain ⟨t, stars, rfl, ht, -⟩ := h
  exact ⟨t, stars, rfl, ht⟩

/-- A joint leads to the item behind it. -/
theorem nextItem?_append {i : Item} {front : List Token} (hfront : Joint front)
    (h : i.Spells ts) (rest : List Token) :
    nextItem? (front ++ (ts ++ rest)) = some (ts ++ rest) := by
  rcases hfront with rfl | ⟨t, ht, rfl⟩
  · obtain ⟨t, more, rfl, ht⟩ := h.exists_symbol
    simp [nextItem?, ht]
  · simp [nextItem?, ht]

/-- No star stands behind an item, be it the last one or not. -/
theorem Led.lacks_star {items : List Item} (h : Led Joint Item.Spells items ts)
    (hrest : Lacks [.star] rest) : Lacks [.star] (ts ++ rest) := by
  cases h with
  | nil => exact hrest
  | cons hfront hmiddle _ =>
      rcases hfront with rfl | ⟨t, ht, rfl⟩
      · obtain ⟨t, more, rfl, ht⟩ := hmiddle.exists_symbol
        simp [ht]
      · simp [ht]

theorem readItems_of_none (hn : nextItem? ts = none) (p : Pattern) :
    readItems p ts = .ok (p, ts) := by
  rw [readItems]
  split
  · rfl
  · next hn' =>
      rw [hn] at hn'
      cases hn'

theorem readItems_of_some {next : List Token} (hn : nextItem? ts = some next)
    (hi : readItem next = .ok (q, rest)) : readItems p ts = readItems (.concat p q) rest := by
  rw [readItems]
  split
  · next hn' =>
      rw [hn] at hn'
      cases hn'
  · next next' hn' =>
      obtain rfl := Option.some.inj (hn.symm.trans hn')
      split
      · next hi' =>
          rw [hi] at hi'
          cases hi'
      · next hi' =>
          obtain ⟨rfl, rfl⟩ := Prod.mk.inj (Except.ok.inj (hi.symm.trans hi'))
          rfl

theorem readItems_of_error {next : List Token} (hn : nextItem? ts = some next)
    (hi : readItem next = .error rest) : readItems p ts = .error rest := by
  rw [readItems]
  split
  · next hn' =>
      rw [hn] at hn'
      cases hn'
  · next next' hn' =>
      obtain rfl := Option.some.inj (hn.symm.trans hn')
      split
      · next hi' => exact hi'.symm.trans hi
      · next hi' =>
          rw [hi] at hi'
          cases hi'

theorem Led.readItems_append {items : List Item} (h : Led Joint Item.Spells items ts)
    (hrest : Lacks [.star, .concat, .symbol] rest) (p : Pattern) :
    readItems p (ts ++ rest) = .ok (items.foldl (fun p i => .concat p i.pattern) p, rest) := by
  have hstar : Lacks [.star] rest := fun t ht hkind => hrest t ht (by simp_all)
  induction h generalizing p with
  | nil =>
      have hn : nextItem? rest = none := by
        cases rest with
        | nil => rfl
        | cons t rest =>
            rw [lacks_cons] at hrest
            rw [nextItem?]
            split <;> simp_all
      exact readItems_of_none hn p
  | @cons i items front middle back hfront hmiddle hback ih =>
      have hi := hmiddle.readItem_append (hback.lacks_star hstar)
      rw [List.append_assoc, List.append_assoc,
        readItems_of_some (nextItem?_append hfront hmiddle (back ++ rest)) hi]
      exact ih _

theorem Sequence.Spells.readPiece_append {piece : Sequence} (h : piece.Spells ts)
    (hrest : Lacks [.star, .concat, .symbol] rest) :
    readPiece (ts ++ rest) = .ok (piece.pattern, rest) := by
  obtain ⟨front, back, rfl, hfirst, hothers⟩ := h
  have hstar : Lacks [.star] rest := fun t ht hkind => hrest t ht (by simp_all)
  rw [List.append_assoc, readPiece, hfirst.readItem_append (hothers.lacks_star hstar)]
  exact hothers.readItems_append hrest _

/-- Behind a piece there is a union, or nothing more of the expression. -/
theorem Led.lacks_items {pieces : List Sequence} (h : Led Bar Sequence.Spells pieces ts)
    (hrest : Lacks [.star, .concat, .symbol] rest) :
    Lacks [.star, .concat, .symbol] (ts ++ rest) := by
  cases h with
  | nil => exact hrest
  | cons hfront _ _ =>
      obtain ⟨t, ht, rfl⟩ := hfront
      simp [ht]

theorem readPieces_of_none (hn : nextPiece? ts = none) (p : Pattern) :
    readPieces p ts = .ok (p, ts) := by
  rw [readPieces]
  split
  · rfl
  · next hn' =>
      rw [hn] at hn'
      cases hn'

theorem readPieces_of_some {next : List Token} (hn : nextPiece? ts = some next)
    (hp : readPiece next = .ok (q, rest)) : readPieces p ts = readPieces (.union p q) rest := by
  rw [readPieces]
  split
  · next hn' =>
      rw [hn] at hn'
      cases hn'
  · next next' hn' =>
      obtain rfl := Option.some.inj (hn.symm.trans hn')
      split
      · next hp' =>
          rw [hp] at hp'
          cases hp'
      · next hp' =>
          obtain ⟨rfl, rfl⟩ := Prod.mk.inj (Except.ok.inj (hp.symm.trans hp'))
          rfl

theorem readPieces_of_error {next : List Token} (hn : nextPiece? ts = some next)
    (hp : readPiece next = .error rest) : readPieces p ts = .error rest := by
  rw [readPieces]
  split
  · next hn' =>
      rw [hn] at hn'
      cases hn'
  · next next' hn' =>
      obtain rfl := Option.some.inj (hn.symm.trans hn')
      split
      · next hp' => exact hp'.symm.trans hp
      · next hp' =>
          rw [hp] at hp'
          cases hp'

theorem Led.readPieces_append {pieces : List Sequence} (h : Led Bar Sequence.Spells pieces ts)
    (hrest : ∀ t ∈ rest.head?, t.kind = .endOfInput) (p : Pattern) :
    readPieces p (ts ++ rest) =
      .ok (pieces.foldl (fun p piece => .union p piece.pattern) p, rest) := by
  have hitems : Lacks [.star, .concat, .symbol] rest := fun t ht => by simp [hrest t ht]
  induction h generalizing p with
  | nil =>
      have hn : nextPiece? rest = none := by
        cases rest with
        | nil => rfl
        | cons t rest => simp [nextPiece?, hrest t rfl]
      exact readPieces_of_none hn p
  | @cons piece pieces front middle back hfront hmiddle hback ih =>
      obtain ⟨t, ht, rfl⟩ := hfront
      have hn : nextPiece? ([t] ++ (middle ++ (back ++ rest))) =
          some (middle ++ (back ++ rest)) := if_pos ht
      have hp := hmiddle.readPiece_append (hback.lacks_items hitems)
      rw [List.append_assoc, List.append_assoc, readPieces_of_some hn hp]
      exact ih _

/-- What spells an expression is read back as it, up to an end of
input. -/
theorem Expression.Spells.readExpression_append {e : Expression} (h : e.Spells ts)
    (hrest : ∀ t ∈ rest.head?, t.kind = .endOfInput) :
    readExpression (ts ++ rest) = .ok (e.pattern, rest) := by
  obtain ⟨front, back, rfl, hfirst, hothers⟩ := h
  have hitems : Lacks [.star, .concat, .symbol] rest := fun t ht => by simp [hrest t ht]
  rw [List.append_assoc, readExpression, hfirst.readPiece_append (hothers.lacks_items hitems)]
  exact hothers.readPieces_append hrest _

/-! ## The outcome of parsing -/

/-- The tokens in front of the first end of input, or all of them. -/
def upToEnd (ts : List Token) : List Token := ts.takeWhile fun t => t.kind ≠ .endOfInput

theorem kind_ne_of_mem_upToEnd {t : Token} (h : t ∈ upToEnd ts) : t.kind ≠ .endOfInput := by
  simpa using List.mem_takeWhile_imp h

theorem exists_upToEnd_append (ts : List Token) :
    ∃ rest, ts = upToEnd ts ++ rest ∧ ∀ t ∈ rest.head?, t.kind = .endOfInput := by
  refine ⟨ts.dropWhile fun t => t.kind ≠ .endOfInput, List.takeWhile_append_dropWhile.symm, ?_⟩
  intro t ht
  have := List.head?_dropWhile_not (fun t : Token => decide (t.kind ≠ .endOfInput)) ts
  rw [Option.mem_def.mp ht] at this
  simpa using this

theorem upToEnd_append {used : List Token} (hused : ∀ t ∈ used, t.kind ≠ .endOfInput)
    (rest : List Token) : upToEnd (used ++ rest) = used ++ upToEnd rest :=
  List.takeWhile_append_of_pos (by simpa using hused)

theorem upToEnd_eq_nil (h : ∀ t ∈ rest.head?, t.kind = .endOfInput) : upToEnd rest = [] := by
  cases rest with
  | nil => rfl
  | cons t rest => simp [upToEnd, h t rfl]

theorem upToEnd_eq_self (h : ∀ t ∈ ts, t.kind ≠ .endOfInput) : upToEnd ts = ts :=
  List.takeWhile_eq_self_iff.mpr (by simpa using h)

/-- What spells an expression is parsed to its fold. -/
theorem parse_of_spells {e : Expression} (h : e.Spells (upToEnd ts)) :
    parse ts = .ok e.pattern := by
  obtain ⟨rest, hts, hrest⟩ := exists_upToEnd_append ts
  have hread : readExpression ts = .ok (e.pattern, rest) := by
    rw [hts]
    exact h.readExpression_append hrest
  cases rest with
  | nil => rw [parse, hread]
  | cons t rest =>
      rw [parse, hread]
      exact if_pos (hrest t rfl)

/-- All that parsing can come to. -/
theorem parse_cases (ts : List Token) :
    (∃ e : Expression, e.Spells (upToEnd ts) ∧ parse ts = .ok e.pattern) ∨
      (∃ used t rest, upToEnd ts = used ++ t :: rest ∧
        Standing.wanting.after? used = some .wanting ∧ t.kind ≠ .symbol ∧
        parse ts = .error (.unexpectedToken t used.length)) ∨
      (Standing.wanting.after? (upToEnd ts) = some .wanting ∧
        parse ts = .error .missingOperand) := by
  cases hread : readExpression ts with
  | ok result =>
      obtain ⟨q, rest⟩ := result
      obtain ⟨e, used, rfl, hused, rfl⟩ := readExpression_eq hread
      have hrest := kind_eq_of_readExpression hread
      have hkinds := Standing.kind_ne_of_after? (hused.completes .wanting)
      have hend : upToEnd (used ++ rest) = used := by
        rw [upToEnd_append hkinds, upToEnd_eq_nil hrest, List.append_nil]
      rw [← hend] at hused
      exact Or.inl ⟨e, hused, parse_of_spells hused⟩
  | error rest =>
      obtain ⟨used, rfl, hused, hrest⟩ := readExpression_eq_error hread
      have hend := upToEnd_append (Standing.kind_ne_of_after? hused) rest
      right
      cases rest with
      | nil =>
          refine Or.inr ⟨?_, by rw [parse, hread]⟩
          rw [hend, upToEnd_eq_nil (by simp), List.append_nil]
          exact hused
      | cons t rest =>
          by_cases ht : t.kind = .endOfInput
          · refine Or.inr ⟨?_, by rw [parse, hread]; exact if_pos ht⟩
            rw [hend, upToEnd_eq_nil (by simpa using ht), List.append_nil]
            exact hused
          · refine Or.inl ⟨used, t, upToEnd rest, ?_, hused, by simpa using hrest, ?_⟩
            · rw [hend]
              exact congrArg _ (List.takeWhile_cons_of_pos (by simpa using ht))
            · have hindex : (used ++ t :: rest).length - (t :: rest).length = used.length := by
                simp
              rw [parse, hread, ← hindex]
              exact if_neg ht

/-- Tokens with one out of place among them have no standing. -/
theorem after?_misplaced {used : List Token} {t : Token}
    (hused : Standing.wanting.after? used = some .wanting) (ht : t.kind ≠ .symbol)
    (rest : List Token) : Standing.wanting.after? (used ++ t :: rest) = none := by
  rw [Standing.after?_append, hused, Option.bind_some, Standing.after?_cons,
    Standing.next?_wanting ht]
  rfl

/-- Tokens that keep their places do not reach the one out of place. -/
theorem eq_nil_of_misplaced {used more : List Token} {t : Token} {s : Standing}
    (hused : Standing.wanting.after? used = some .wanting) (ht : t.kind ≠ .symbol)
    (h : Standing.wanting.after? (used ++ more) = some s) (hmore : more <+: t :: rest) :
    more = [] := by
  rcases List.prefix_cons_iff.mp hmore with rfl | ⟨more, rfl, -⟩
  · rfl
  · rw [after?_misplaced hused ht] at h
    cases h

/-- There is one first token out of place. -/
theorem misplaced_unique {used used' rest' : List Token} {t t' : Token}
    (hused : Standing.wanting.after? used = some .wanting) (ht : t.kind ≠ .symbol)
    (hused' : Standing.wanting.after? used' = some .wanting) (ht' : t'.kind ≠ .symbol)
    (h : used ++ t :: rest = used' ++ t' :: rest') : used = used' ∧ t = t' := by
  rcases List.append_eq_append_iff.mp h with ⟨more, rfl, hmore⟩ | ⟨more, rfl, hmore⟩
  · obtain rfl := eq_nil_of_misplaced hused ht hused' ⟨_, hmore.symm⟩
    exact ⟨by simp, (List.cons.inj hmore).1⟩
  · obtain rfl := eq_nil_of_misplaced hused' ht' hused ⟨_, hmore.symm⟩
    exact ⟨by simp, (List.cons.inj hmore).1.symm⟩

/-- Tokens that are complete are parsed. -/
theorem parse_of_complete (h : Standing.wanting.after? (upToEnd ts) = some .complete) :
    ∃ e : Expression, e.Spells (upToEnd ts) ∧ parse ts = .ok e.pattern := by
  rcases parse_cases ts with he | ⟨used, t, rest, hts, hused, ht, -⟩ | ⟨hwanting, -⟩
  · exact he
  · rw [hts, after?_misplaced hused ht] at h
    cases h
  · rw [hwanting] at h
    cases h

/-- An operand is missing at the end. -/
theorem parse_of_wanting (h : Standing.wanting.after? (upToEnd ts) = some .wanting) :
    parse ts = .error .missingOperand := by
  rcases parse_cases ts with ⟨e, he, -⟩ | ⟨used, t, rest, hts, hused, ht, -⟩ | ⟨-, hparse⟩
  · rw [he.completes] at h
    cases h
  · rw [hts, after?_misplaced hused ht] at h
    cases h
  · exact hparse

/-- The first token out of place is the one that is reported. -/
theorem parse_of_misplaced {used : List Token} {t : Token} (hts : upToEnd ts = used ++ t :: rest)
    (hused : Standing.wanting.after? used = some .wanting) (ht : t.kind ≠ .symbol) :
    parse ts = .error (.unexpectedToken t used.length) := by
  have hnone : Standing.wanting.after? (upToEnd ts) = none := by
    rw [hts]
    exact after?_misplaced hused ht rest
  rcases parse_cases ts with ⟨e, he, -⟩ | ⟨used', t', rest', hts', hused', ht', hparse⟩ | ⟨h, -⟩
  · rw [he.completes] at hnone
    cases hnone
  · obtain ⟨rfl, rfl⟩ := misplaced_unique hused ht hused' ht' (hts.symm.trans hts')
    exact hparse
  · rw [h] at hnone
    cases hnone

/-! ## Prefixes of expressions -/

/-- The tokens can be continued to an expression. -/
def Viable (us : List Token) : Prop :=
  ∃ (more : List Token) (e : Expression), e.Spells (us ++ more)

theorem exists_spells_iff {us : List Token} :
    (∃ e : Expression, e.Spells us) ↔ Standing.wanting.after? us = some .complete := by
  constructor
  · rintro ⟨e, he⟩
    exact he.completes .wanting
  · intro h
    have hend := upToEnd_eq_self (Standing.kind_ne_of_after? h)
    rw [← hend] at h ⊢
    obtain ⟨e, he, -⟩ := parse_of_complete h
    exact ⟨e, he⟩

/-- A symbol completes what wants an operand, so tokens are viable as
long as none of them is out of place. -/
theorem viable_iff {us : List Token} :
    Viable us ↔ ∃ s, Standing.wanting.after? us = some s := by
  constructor
  · rintro ⟨more, e, he⟩
    have h := he.completes .wanting
    rw [Standing.after?_append, Option.bind_eq_some_iff] at h
    obtain ⟨s, hs, -⟩ := h
    exact ⟨s, hs⟩
  · rintro ⟨s, hs⟩
    refine ⟨[.symbol 'a'], exists_spells_iff.mpr ?_⟩
    rw [Standing.after?_append, hs]
    simp [Token.symbol]

theorem Viable.of_append {us back : List Token} (h : Viable (us ++ back)) : Viable us := by
  obtain ⟨more, e, he⟩ := h
  exact ⟨back ++ more, e, by simpa using he⟩

/-- Where viability ends is the first token out of place. -/
theorem misplaced_iff {used : List Token} {t : Token} (ht : t.kind ≠ .endOfInput) :
    Viable used ∧ ¬ Viable (used ++ [t]) ↔
      Standing.wanting.after? used = some .wanting ∧ t.kind ≠ .symbol := by
  simp only [viable_iff]
  constructor
  · rintro ⟨⟨s, hs⟩, hnot⟩
    have hnone : s.next? t.kind = none := by
      rw [Option.eq_none_iff_forall_ne_some]
      intro s' hs'
      exact hnot ⟨s', by rw [Standing.after?_append, hs]; simp [hs']⟩
    obtain ⟨rfl, hkind⟩ := (Standing.next?_eq_none hnone).resolve_left ht
    exact ⟨hs, hkind⟩
  · rintro ⟨hused, hkind⟩
    refine ⟨⟨.wanting, hused⟩, ?_⟩
    rw [after?_misplaced hused hkind]
    simp

/-! ## The decision -/

theorem parse_eq_ok_iff :
    parse ts = .ok p ↔ ∃ e : Expression, e.Spells (upToEnd ts) ∧ p = e.pattern := by
  constructor
  · intro h
    rcases parse_cases ts with ⟨e, he, hparse⟩ | ⟨_, _, _, _, _, _, hparse⟩ | ⟨-, hparse⟩
    · exact ⟨e, he, Except.ok.inj (h.symm.trans hparse)⟩
    · rw [hparse] at h
      cases h
    · rw [hparse] at h
      cases h
  · rintro ⟨e, he, rfl⟩
    exact parse_of_spells he

theorem parse_eq_unexpectedToken_iff {t : Token} {i : Nat} :
    parse ts = .error (.unexpectedToken t i) ↔
      (upToEnd ts)[i]? = some t ∧ Viable ((upToEnd ts).take i) ∧
        ¬ Viable ((upToEnd ts).take (i + 1)) := by
  constructor
  · intro h
    rcases parse_cases ts with
      ⟨e, -, hparse⟩ | ⟨used, t', rest, hts, hused, ht, hparse⟩ | ⟨-, hparse⟩
    · rw [hparse] at h
      cases h
    · obtain ⟨rfl, rfl⟩ :=
        PatternError.unexpectedToken.inj (Except.error.inj (hparse.symm.trans h))
      have hmem : t' ∈ upToEnd ts := by simp [hts]
      have hend := kind_ne_of_mem_upToEnd hmem
      have hsplit := (misplaced_iff hend).mpr ⟨hused, ht⟩
      rw [hts]
      refine ⟨by simp, ?_, ?_⟩
      · rw [List.take_left]
        exact hsplit.1
      · rw [List.append_cons, List.take_left' (by simp)]
        exact hsplit.2
    · rw [hparse] at h
      cases h
  · rintro ⟨hget, hviable, hnot⟩
    have hend := kind_ne_of_mem_upToEnd (List.mem_of_getElem? hget)
    obtain ⟨used, rest, hts, rfl⟩ := exists_append_of_getElem? hget
    rw [hts, List.take_left] at hviable
    rw [hts, List.append_cons, List.take_left' (by simp)] at hnot
    obtain ⟨hused, ht⟩ := (misplaced_iff hend).mp ⟨hviable, hnot⟩
    exact parse_of_misplaced hts hused ht

theorem parse_eq_missingOperand_iff :
    parse ts = .error .missingOperand ↔
      (∀ us, us <+: upToEnd ts → Viable us) ∧ ¬ ∃ e : Expression, e.Spells (upToEnd ts) := by
  constructor
  · intro h
    rcases parse_cases ts with ⟨e, -, hparse⟩ | ⟨_, _, _, _, _, _, hparse⟩ | ⟨hwanting, -⟩
    · rw [hparse] at h
      cases h
    · rw [hparse] at h
      cases h
    · constructor
      · rintro us ⟨back, hback⟩
        rw [← hback] at hwanting
        exact (viable_iff.mpr ⟨_, hwanting⟩).of_append
      · rw [exists_spells_iff, hwanting]
        simp
  · rintro ⟨hviable, hnot⟩
    obtain ⟨s, hs⟩ := viable_iff.mp (hviable _ List.prefix_rfl)
    cases s with
    | wanting => exact parse_of_wanting hs
    | complete => exact absurd (exists_spells_iff.mpr hs) hnot

/-- Tokens are parsed if they are an expression, as far as they are read,
to the fold of that expression. Otherwise the first token with which no
expression begins any more is refused, and if there is none, an operand
is missing. -/
theorem parse_decides (tokens : List Token) :
    (∀ p, parse tokens = .ok p ↔ ∃ e : Expression, e.Spells (upToEnd tokens) ∧ p = e.pattern) ∧
      (∀ t i, parse tokens = .error (.unexpectedToken t i) ↔
        (upToEnd tokens)[i]? = some t ∧ Viable ((upToEnd tokens).take i) ∧
          ¬ Viable ((upToEnd tokens).take (i + 1))) ∧
      (parse tokens = .error .missingOperand ↔
        (∀ us, us <+: upToEnd tokens → Viable us) ∧
          ¬ ∃ e : Expression, e.Spells (upToEnd tokens)) :=
  ⟨fun _ => parse_eq_ok_iff, fun _ _ => parse_eq_unexpectedToken_iff, parse_eq_missingOperand_iff⟩

end Pattern

end Thompson
