import Thompson.Pattern.Positions
import Thompson.Proofs.Recognition

/-!
# Where readers stop

A reader of positions does what the reader of tokens does with the tokens
from its position on (`itemAt_eq`, `pieceAt_eq`, `expressionAt_eq`), so
what the one stops in front of the other does too. An expression is read
up to an end of input, and no token is left over: the refusals of `parseAt`
are those of `atomAt` (`readers_stop`).
-/

namespace Thompson

namespace Pattern

variable {tokens : List Token}

/-! ## Tokens from a position on -/

/-- What stands at a position: nothing, which shows as an end of input, or
a token in front of those behind it. -/
theorem peek_cases (tokens : List Token) (position : Nat) :
    (tokens.drop position = [] ∧ peek tokens position = .endOfInput) ∨
      position < tokens.length ∧
        tokens.drop position = peek tokens position :: tokens.drop (position + 1) := by
  by_cases hlt : position < tokens.length
  · right
    rw [peek, List.getElem?_eq_getElem hlt]
    exact ⟨hlt, List.drop_eq_getElem_cons hlt⟩
  · left
    rw [peek, List.getElem?_eq_none (Nat.le_of_not_lt hlt)]
    exact ⟨List.drop_eq_nil_iff.mpr (Nat.le_of_not_lt hlt), rfl⟩

/-- The position at which the last tokens of a list begin. -/
def place (tokens rest : List Token) : Nat := tokens.length - rest.length

theorem place_le (tokens rest : List Token) : place tokens rest ≤ tokens.length := Nat.sub_le _ _

theorem place_drop {position : Nat} (h : position ≤ tokens.length) :
    place tokens (tokens.drop position) = position := by
  rw [place, List.length_drop]
  omega

theorem drop_place {start : Nat} {used rest : List Token}
    (h : tokens.drop start = used ++ rest) : tokens.drop (place tokens rest) = rest := by
  have hsuffix : rest <:+ tokens := (List.suffix_append used rest).trans (h ▸ List.drop_suffix _ _)
  exact (List.suffix_iff_eq_drop.mp hsuffix).symm

/-- Why tokens are refused that are left where an operand has to stand. -/
def refusal (tokens rest : List Token) : PatternError :=
  match rest with
  | [] => .missingOperand
  | t :: _ =>
    if t.kind = .endOfInput then .missingOperand else .unexpectedToken t (place tokens rest)

/-- The result of a reader of tokens, told by positions. -/
def located (tokens : List Token) : ReadResult → PositionResult
  | .error rest => .error (refusal tokens rest)
  | .ok (p, rest) => .ok (p, place tokens rest)

/-! ## Both ways of reading -/

theorem starsAt_eq (p : Pattern) {position : Nat} (h : position ≤ tokens.length) :
    starsAt tokens p position =
      ((readStars p (tokens.drop position)).1,
        place tokens (readStars p (tokens.drop position)).2) := by
  fun_induction starsAt tokens p position with
  | case1 p position hkind ih =>
      have hlt := lt_length_of_kind_peek hkind (by decide)
      obtain ⟨-, hpeek⟩ | ⟨-, hdrop⟩ := peek_cases tokens position
      · rw [hpeek] at hkind
        cases hkind
      · rw [hdrop, readStars, if_pos hkind]
        exact ih hlt
  | case2 p position hkind =>
      have hstars : readStars p (tokens.drop position) = (p, tokens.drop position) := by
        obtain ⟨hdrop, -⟩ | ⟨-, hdrop⟩ := peek_cases tokens position
        · rw [hdrop, readStars]
        · rw [hdrop, readStars, if_neg hkind]
      rw [hstars, place_drop h]

theorem itemAt_eq (tokens : List Token) (start : Nat) :
    itemAt tokens start = located tokens (readItem (tokens.drop start)) := by
  rw [itemAt, atomAt]
  obtain ⟨hdrop, hpeek⟩ | ⟨hlt, hdrop⟩ := peek_cases tokens start
  · rw [hdrop, hpeek]
    rfl
  · have hplace := place_drop (Nat.le_of_lt hlt)
    rw [hdrop] at hplace ⊢
    rw [readItem]
    cases hkind : (peek tokens start).kind with
    | symbol => simp [located, starsAt_eq _ hlt]
    | _ => simp [located, refusal, hkind, hplace]

theorem exists_of_located_eq_ok {r : ReadResult} {p : Pattern} {stop : Nat}
    (h : located tokens r = .ok (p, stop)) :
    ∃ rest, r = .ok (p, rest) ∧ stop = place tokens rest := by
  match r with
  | .error rest => cases h
  | .ok (q, rest) =>
      obtain ⟨rfl, rfl⟩ := Prod.mk.inj (Except.ok.inj h)
      exact ⟨rest, rfl, rfl⟩

theorem exists_of_located_eq_error {r : ReadResult} {e : PatternError}
    (h : located tokens r = .error e) : ∃ rest, r = .error rest ∧ e = refusal tokens rest := by
  match r with
  | .error rest => exact ⟨rest, rfl, (Except.error.inj h).symm⟩
  | .ok (q, rest) => cases h

theorem nextItem?_drop (tokens : List Token) (position : Nat) :
    nextItem? (tokens.drop position) = (nextItemAt? tokens position).map tokens.drop := by
  rw [nextItemAt?]
  obtain ⟨hdrop, hpeek⟩ | ⟨hlt, hdrop⟩ := peek_cases tokens position
  · rw [hdrop, hpeek]
    rfl
  · rw [hdrop, nextItem?]
    cases (peek tokens position).kind <;> simp [← hdrop]

theorem nextPiece?_drop (tokens : List Token) (position : Nat) :
    nextPiece? (tokens.drop position) =
      if (peek tokens position).kind = .union then some (tokens.drop (position + 1))
      else none := by
  obtain ⟨hdrop, hpeek⟩ | ⟨hlt, hdrop⟩ := peek_cases tokens position
  · rw [hdrop, hpeek]
    rfl
  · rw [hdrop, nextPiece?]

theorem itemsAt_eq (p : Pattern) {position : Nat} (h : position ≤ tokens.length) :
    itemsAt tokens p position = located tokens (readItems p (tokens.drop position)) := by
  fun_induction itemsAt tokens p position with
  | case1 p position hn =>
      have hnone : nextItem? (tokens.drop position) = none := by rw [nextItem?_drop, hn]; rfl
      rw [readItems_of_none hnone, located, place_drop h]
  | case2 p position start hn e hi =>
      have hsome : nextItem? (tokens.drop position) = some (tokens.drop start) := by
        rw [nextItem?_drop, hn]; rfl
      rw [itemAt_eq] at hi
      obtain ⟨rest, hrest, rfl⟩ := exists_of_located_eq_error hi
      rw [readItems_of_error hsome hrest, located]
  | case3 p position start hn item stop hi _ _ ih =>
      have hsome : nextItem? (tokens.drop position) = some (tokens.drop start) := by
        rw [nextItem?_drop, hn]; rfl
      rw [itemAt_eq] at hi
      obtain ⟨rest, hrest, rfl⟩ := exists_of_located_eq_ok hi
      obtain ⟨i, used, hused, -, -⟩ := readItem_eq hrest
      rw [readItems_of_some hsome hrest, ih (place_le _ _), drop_place hused]

theorem pieceAt_eq (tokens : List Token) (start : Nat) :
    pieceAt tokens start = located tokens (readPiece (tokens.drop start)) := by
  rw [pieceAt, readPiece, itemAt_eq]
  cases hread : readItem (tokens.drop start) with
  | error rest => rfl
  | ok result =>
      obtain ⟨item, rest⟩ := result
      obtain ⟨i, used, hused, -, -⟩ := readItem_eq hread
      have hitems := itemsAt_eq item (place_le tokens rest)
      rw [drop_place hused] at hitems
      exact hitems

theorem piecesAt_eq (p : Pattern) {position : Nat} (h : position ≤ tokens.length) :
    piecesAt tokens p position = located tokens (readPieces p (tokens.drop position)) := by
  fun_induction piecesAt tokens p position with
  | case1 p position hkind e hp =>
      have hsome := (nextPiece?_drop tokens position).trans (if_pos hkind)
      rw [pieceAt_eq] at hp
      obtain ⟨rest, hrest, rfl⟩ := exists_of_located_eq_error hp
      rw [readPieces_of_error hsome hrest, located]
  | case2 p position hkind piece stop hp _ _ ih =>
      have hsome := (nextPiece?_drop tokens position).trans (if_pos hkind)
      rw [pieceAt_eq] at hp
      obtain ⟨rest, hrest, rfl⟩ := exists_of_located_eq_ok hp
      obtain ⟨i, used, hused, -, -⟩ := readPiece_eq hrest
      rw [readPieces_of_some hsome hrest, ih (place_le _ _), drop_place hused]
  | case3 p position hkind =>
      have hnone := (nextPiece?_drop tokens position).trans (if_neg hkind)
      rw [readPieces_of_none hnone, located, place_drop h]

theorem expressionAt_eq (tokens : List Token) (start : Nat) :
    expressionAt tokens start = located tokens (readExpression (tokens.drop start)) := by
  rw [expressionAt, readExpression, pieceAt_eq]
  cases hread : readPiece (tokens.drop start) with
  | error rest => rfl
  | ok result =>
      obtain ⟨piece, rest⟩ := result
      obtain ⟨i, used, hused, -, -⟩ := readPiece_eq hread
      have hpieces := piecesAt_eq piece (place_le tokens rest)
      rw [drop_place hused] at hpieces
      exact hpieces

/-! ## Where a reader has been -/

/-- The tokens from one position up to another. -/
def between (tokens : List Token) (start stop : Nat) : List Token :=
  (tokens.drop start).take (stop - start)

/-- The tokens from `start` up to `stop` have been taken: at least one, and
none of them an end of input. -/
structure Takes (tokens : List Token) (start stop : Nat) : Prop where
  lt : start < stop
  le_length : stop ≤ tokens.length
  kind_ne : ∀ i, start ≤ i → i < stop → (peek tokens i).kind ≠ .endOfInput

/-- Having started at `start`, a reader needs an operand at `position`: it
has taken no token, or the last one asks for an operand behind it. -/
structure Wants (tokens : List Token) (start position : Nat) : Prop where
  le : start ≤ position
  kind_ne : ∀ i, start ≤ i → i < position → (peek tokens i).kind ≠ .endOfInput
  behind : position = start ∨ (peek tokens (position - 1)).kind ∈ [.concat, .union]

section Taken

variable {start : Nat} {used rest : List Token}

theorem peek_add (h : tokens.drop start = used ++ rest) {i : Nat} (hi : i < used.length) :
    peek tokens (start + i) = used[i] := by
  rw [peek, ← List.getElem?_drop, h, List.getElem?_append_left hi, List.getElem?_eq_getElem hi]
  rfl

theorem kind_peek_ne (h : tokens.drop start = used ++ rest)
    (hused : ∀ t ∈ used, t.kind ≠ .endOfInput) (i : Nat) (hle : start ≤ i)
    (hlt : i < start + used.length) : (peek tokens i).kind ≠ .endOfInput := by
  obtain ⟨k, rfl⟩ := Nat.exists_eq_add_of_le hle
  have hk : k < used.length := by omega
  rw [peek_add h hk]
  exact hused _ (List.getElem_mem hk)

theorem place_eq_add (h : tokens.drop start = used ++ rest) (hused : used ≠ []) :
    place tokens rest = start + used.length := by
  have hlength := congrArg List.length h
  have hpos := List.length_pos_of_ne_nil hused
  rw [List.length_drop, List.length_append] at hlength
  rw [place]
  omega

theorem takes_of_completes (h : tokens.drop start = used ++ rest) (hused : Completes used) :
    Takes tokens start (place tokens rest) ∧ between tokens start (place tokens rest) = used := by
  -- without tokens an operand would still be wanted
  have hne : used ≠ [] := by
    rintro rfl
    cases hused .wanting
  have hkinds := Standing.kind_ne_of_after? (hused .wanting)
  have hle := place_le tokens rest
  have hpos := List.length_pos_of_ne_nil hne
  rw [place_eq_add h hne] at hle ⊢
  refine ⟨⟨by omega, hle, kind_peek_ne h hkinds⟩, ?_⟩
  rw [between, h, Nat.add_sub_cancel_left, List.take_left]

theorem kind_of_next?_eq_wanting {s : Standing} {kind : TokenKind}
    (h : s.next? kind = some .wanting) : kind ∈ [.concat, .union] := by
  cases s <;> cases kind <;> simp_all [Standing.next?]

theorem wants_of_after? (h : tokens.drop start = used ++ rest)
    (hused : Standing.wanting.after? used = some .wanting) :
    Wants tokens start (start + used.length) where
  le := Nat.le_add_right _ _
  kind_ne := kind_peek_ne h (Standing.kind_ne_of_after? hused)
  behind := by
    rcases List.eq_nil_or_concat' used with rfl | ⟨front, t, rfl⟩
    · exact Or.inl rfl
    · right
      rw [Standing.after?_append, Option.bind_eq_some_iff] at hused
      obtain ⟨s, -, ht⟩ := hused
      rw [Standing.after?_cons, Option.bind_eq_some_iff] at ht
      obtain ⟨s', hs', hend⟩ := ht
      obtain rfl := Option.some.inj hend
      have hlast : front.length < (front ++ [t]).length := by simp
      have hpeek := peek_add h hlast
      rw [List.getElem_concat_length rfl] at hpeek
      rw [List.length_append, List.length_singleton, ← Nat.add_assoc, Nat.add_sub_cancel, hpeek]
      exact kind_of_next?_eq_wanting hs'

end Taken

/-- What shows at a position is an end of input or the next token. -/
theorem kind_peek_of_forall {position : Nat} {P : TokenKind → Prop} (hend : P .endOfInput)
    (h : ∀ t ∈ (tokens.drop position).head?, P t.kind) : P (peek tokens position).kind := by
  obtain ⟨-, hpeek⟩ | ⟨-, hdrop⟩ := peek_cases tokens position
  · rw [hpeek]
    exact hend
  · rw [hdrop] at h
    exact h _ rfl

/-- Where no symbol stands, the tokens from there on are refused. -/
theorem atomAt_of_lacks {position : Nat} (h : Lacks [.symbol] (tokens.drop position)) :
    atomAt tokens position = .error (refusal tokens (tokens.drop position)) := by
  rw [atomAt]
  obtain ⟨hdrop, hpeek⟩ | ⟨hlt, hdrop⟩ := peek_cases tokens position
  · rw [hdrop, hpeek]
    rfl
  · have hplace := place_drop (Nat.le_of_lt hlt)
    rw [hdrop] at h hplace ⊢
    rw [lacks_cons] at h
    cases hkind : (peek tokens position).kind with
    | symbol => exact absurd hkind (by simpa using h)
    | _ => simp [refusal, hkind, hplace]

/-! ## Where readers stop -/

/-- What a reader does from any position on. If it succeeds, it has taken
tokens that spell what it gives, and no token of these kinds comes next.
If it fails, it is for want of an operand: `atomAt` refuses what stands in
its place. -/
structure Stops (read : List Token → Nat → PositionResult)
    (Spells : Pattern → List Token → Prop) (kinds : List TokenKind) (tokens : List Token) :
    Prop where
  takes {start stop : Nat} {p : Pattern} : read tokens start = .ok (p, stop) →
    Takes tokens start stop
  spells {start stop : Nat} {p : Pattern} : read tokens start = .ok (p, stop) →
    Spells p (between tokens start stop)
  kind_not_mem {start stop : Nat} {p : Pattern} : read tokens start = .ok (p, stop) →
    (peek tokens stop).kind ∉ kinds
  fails {start : Nat} {e : PatternError} : read tokens start = .error e →
    ∃ position, Wants tokens start position ∧ atomAt tokens position = .error e

/-- A reader of positions behaves as the reader of tokens does that it
agrees with. -/
theorem stops_of_located {read : List Token → Nat → PositionResult}
    {readTokens : List Token → ReadResult} {Spells : Pattern → List Token → Prop}
    {kinds : List TokenKind} (hend : .endOfInput ∉ kinds)
    (hread : ∀ start, read tokens start = located tokens (readTokens (tokens.drop start)))
    (hok : ∀ {ts rest : List Token} {p : Pattern}, readTokens ts = .ok (p, rest) →
      Lacks kinds rest ∧ ∃ used, ts = used ++ rest ∧ Completes used ∧ Spells p used)
    (herror : ∀ {ts rest : List Token}, readTokens ts = .error rest → FailsAt .wanting ts rest) :
    Stops read Spells kinds tokens where
  takes h := by
    obtain ⟨rest, hrest, rfl⟩ := exists_of_located_eq_ok ((hread _).symm.trans h)
    obtain ⟨-, used, hused, hcompletes, -⟩ := hok hrest
    exact (takes_of_completes hused hcompletes).1
  spells h := by
    obtain ⟨rest, hrest, rfl⟩ := exists_of_located_eq_ok ((hread _).symm.trans h)
    obtain ⟨-, used, hused, hcompletes, hspells⟩ := hok hrest
    rwa [(takes_of_completes hused hcompletes).2]
  kind_not_mem h := by
    obtain ⟨rest, hrest, rfl⟩ := exists_of_located_eq_ok ((hread _).symm.trans h)
    obtain ⟨hlacks, used, hused, -, -⟩ := hok hrest
    refine kind_peek_of_forall (P := (· ∉ kinds)) hend ?_
    rw [drop_place hused]
    exact hlacks
  fails {start e} h := by
    obtain ⟨rest, hrest, rfl⟩ := exists_of_located_eq_error ((hread _).symm.trans h)
    obtain ⟨used, hused, hwanting, hlacks⟩ := herror hrest
    have hdrop : tokens.drop (start + used.length) = rest := by
      rw [← List.drop_drop, hused, List.drop_left]
    refine ⟨_, wants_of_after? hused hwanting, ?_⟩
    rw [← hdrop] at hlacks ⊢
    exact atomAt_of_lacks hlacks

theorem stops_itemAt (tokens : List Token) :
    Stops itemAt (fun p ts => ∃ i : Item, i.Spells ts ∧ p = i.pattern) [.star] tokens := by
  refine stops_of_located (by decide) (itemAt_eq tokens) (fun h => ⟨lacks_readItem h, ?_⟩) ?_
  · obtain ⟨i, used, hused, hspells, rfl⟩ := readItem_eq h
    exact ⟨used, hused, hspells.completes, i, hspells, rfl⟩
  · intro ts rest h
    obtain ⟨rfl, hlacks⟩ := readItem_eq_error h
    exact ⟨[], rfl, rfl, hlacks⟩

theorem stops_pieceAt (tokens : List Token) :
    Stops pieceAt (fun p ts => ∃ piece : Sequence, piece.Spells ts ∧ p = piece.pattern)
      [.star, .concat, .symbol] tokens := by
  refine stops_of_located (by decide) (pieceAt_eq tokens) (fun h => ⟨lacks_readPiece h, ?_⟩)
    readPiece_eq_error
  obtain ⟨piece, used, hused, hspells, rfl⟩ := readPiece_eq h
  exact ⟨used, hused, hspells.completes, piece, hspells, rfl⟩

theorem lacks_readExpression {p : Pattern} {ts rest : List Token}
    (h : readExpression ts = .ok (p, rest)) : Lacks [.star, .concat, .symbol, .union] rest := by
  intro t ht
  rw [kind_eq_of_readExpression h t ht]
  decide

theorem stops_expressionAt (tokens : List Token) :
    Stops expressionAt (fun p ts => ∃ e : Expression, e.Spells ts ∧ p = e.pattern)
      [.star, .concat, .symbol, .union] tokens := by
  refine stops_of_located (by decide) (expressionAt_eq tokens)
    (fun h => ⟨lacks_readExpression h, ?_⟩) readExpression_eq_error
  obtain ⟨e, used, hused, hspells, rfl⟩ := readExpression_eq h
  exact ⟨used, hused, hspells.completes, e, hspells, rfl⟩

/-- Four of the five kinds of token are none that an expression stops at. -/
theorem kind_peek_of_expressionAt {start stop : Nat} {p : Pattern}
    (h : expressionAt tokens start = .ok (p, stop)) :
    (peek tokens stop).kind = .endOfInput := by
  have hkind := (stops_expressionAt tokens).kind_not_mem h
  cases hpeek : (peek tokens stop).kind <;> simp_all

/-! ## Whole token lists -/

/-- No token is left over. -/
theorem parseAt_eq_map (tokens : List Token) :
    parseAt tokens = (expressionAt tokens 0).map Prod.fst := by
  rw [parseAt]
  cases hread : expressionAt tokens 0 with
  | error e => rfl
  | ok result => exact if_pos (kind_peek_of_expressionAt hread)

theorem parse_eq_parseAt (tokens : List Token) : parse tokens = parseAt tokens := by
  rw [parseAt_eq_map, expressionAt_eq, List.drop_zero, parse]
  cases hread : readExpression tokens with
  | error rest =>
      cases rest with
      | nil => rfl
      | cons t rest =>
          simp only [located, refusal, place]
          split <;> rfl
  | ok result =>
      obtain ⟨p, rest⟩ := result
      cases rest with
      | nil => rfl
      | cons t rest => exact if_pos (kind_eq_of_readExpression hread t rfl)

/-- Every reader takes at least one token and no end of input, and stops
where it cannot go on: behind an item there is no star, behind a piece
neither a star nor a concatenation nor a symbol, and behind an expression
an end of input. So no token is left over when a whole list has been read,
and every refusal is that of a token that is no operand. -/
theorem readers_stop (tokens : List Token) :
    Stops itemAt (fun p ts => ∃ i : Item, i.Spells ts ∧ p = i.pattern) [.star] tokens ∧
      Stops pieceAt (fun p ts => ∃ piece : Sequence, piece.Spells ts ∧ p = piece.pattern)
        [.star, .concat, .symbol] tokens ∧
      Stops expressionAt (fun p ts => ∃ e : Expression, e.Spells ts ∧ p = e.pattern)
        [.star, .concat, .symbol, .union] tokens ∧
      (∀ start p stop, expressionAt tokens start = .ok (p, stop) →
        (peek tokens stop).kind = .endOfInput) ∧
      parse tokens = parseAt tokens ∧
      parseAt tokens = (expressionAt tokens 0).map Prod.fst ∧
      ∀ e, parse tokens = .error e →
        ∃ position, Wants tokens 0 position ∧ atomAt tokens position = .error e := by
  refine ⟨stops_itemAt tokens, stops_pieceAt tokens, stops_expressionAt tokens,
    fun _ _ _ => kind_peek_of_expressionAt, parse_eq_parseAt tokens, parseAt_eq_map tokens, ?_⟩
  intro e he
  rw [parse_eq_parseAt, parseAt_eq_map] at he
  cases hread : expressionAt tokens 0 with
  | ok result =>
      rw [hread] at he
      cases he
  | error e' =>
      rw [hread] at he
      obtain rfl := Except.error.inj he
      exact (stops_expressionAt tokens).fails hread

/-- Read from the middle, an expression ends at the end of input, which is
not the last token. Behind it there is a union without a second piece. -/
theorem readers_stop_mid_list :
    let tokens : List Token := [.symbol 'a', .concat, .symbol 'b', .star, .union, .symbol 'c',
      .endOfInput, .symbol 'a', .union, .star]
    expressionAt tokens 2 = .ok (.union (.star (.symbol 'b')) (.symbol 'c'), 6) ∧
      Takes tokens 2 6 ∧ (peek tokens 6).kind = .endOfInput ∧
      expressionAt tokens 7 = .error (.unexpectedToken .star 9) ∧
      ∃ position, Wants tokens 7 position ∧
        atomAt tokens position = .error (.unexpectedToken .star 9) := by
  intro tokens
  have hread : expressionAt tokens 2 = .ok (.union (.star (.symbol 'b')) (.symbol 'c'), 6) := by
    decide +kernel
  have hfails : expressionAt tokens 7 = .error (.unexpectedToken .star 9) := by decide +kernel
  obtain ⟨-, -, hstops, hend, -, -, -⟩ := readers_stop tokens
  exact ⟨hread, hstops.takes hread, hend _ _ _ hread, hfails, hstops.fails hfails⟩

end Pattern

end Thompson
