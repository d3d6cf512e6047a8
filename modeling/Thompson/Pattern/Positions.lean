import Thompson.Pattern.Parser

/-!
# Reading tokens by position

The readers of `Thompson.Pattern.Parser` take tokens off the front of a
list. Here the list stays as it is and a position moves along it: each
reader starts at one position and gives the one where it has stopped. A
position that is past the end shows an end of input, and so does one where
such a token stands; a reader cannot tell the two apart.

Having read an expression, `parseAt` looks once more at what comes behind
it and refuses a token that is left over. That there never is one is
proved in `Thompson.Proofs.Positions`, and that both ways of reading agree.
-/

namespace Thompson

namespace Pattern

/-- The token at a position, past the last one an end of input. -/
def peek (tokens : List Token) (position : Nat) : Token := tokens[position]?.getD .endOfInput

/-- A position that shows anything but an end of input is one of a
token. -/
theorem lt_length_of_kind_peek {tokens : List Token} {position : Nat} {kind : TokenKind}
    (h : (peek tokens position).kind = kind) (hkind : kind ≠ .endOfInput) :
    position < tokens.length := by
  refine Nat.lt_of_not_le fun hle => hkind ?_
  rw [← h, peek, List.getElem?_eq_none hle]
  rfl

/-- What is read from a position on, and the position behind it. -/
abbrev PositionResult := Except PatternError (Pattern × Nat)

/-! ## Items -/

/-- The symbol at a position. All refusals are made here. -/
def atomAt (tokens : List Token) (start : Nat) : PositionResult :=
  match (peek tokens start).kind with
  | .symbol => .ok (.symbol (peek tokens start).value, start + 1)
  | .endOfInput => .error .missingOperand
  | _ => .error (.unexpectedToken (peek tokens start) start)

theorem eq_succ_of_atomAt {tokens : List Token} {start stop : Nat} {p : Pattern}
    (h : atomAt tokens start = .ok (p, stop)) : stop = start + 1 := by
  unfold atomAt at h
  split at h
  · exact (congrArg Prod.snd (Except.ok.inj h)).symm
  · cases h
  · cases h

/-- Wrap `p` in one star for each star token from a position on. -/
def starsAt (tokens : List Token) (p : Pattern) (position : Nat) : Pattern × Nat :=
  if h : (peek tokens position).kind = .star then starsAt tokens (.star p) (position + 1)
  else (p, position)
termination_by tokens.length - position
decreasing_by
  have := lt_length_of_kind_peek h (by decide)
  omega

theorem le_starsAt (tokens : List Token) (p : Pattern) (position : Nat) :
    position ≤ (starsAt tokens p position).2 := by
  fun_induction starsAt tokens p position with
  | case1 p position _ ih => exact Nat.le_of_succ_le ih
  | case2 p position _ => exact Nat.le_refl _

def itemAt (tokens : List Token) (start : Nat) : PositionResult :=
  match atomAt tokens start with
  | .error e => .error e
  | .ok (p, position) => .ok (starsAt tokens p position)

theorem lt_of_itemAt {tokens : List Token} {start stop : Nat} {p : Pattern}
    (h : itemAt tokens start = .ok (p, stop)) : start < stop := by
  unfold itemAt at h
  split at h
  · cases h
  · next q position hatom =>
    obtain rfl := eq_succ_of_atomAt hatom
    have := le_starsAt tokens q (start + 1)
    rwa [Except.ok.inj h] at this

/-! ## Pieces -/

/-- Where the next item of a piece starts, if there is one. -/
def nextItemAt? (tokens : List Token) (position : Nat) : Option Nat :=
  match (peek tokens position).kind with
  | .concat => some (position + 1)
  | .symbol => some position
  | _ => none

theorem lt_length_of_nextItemAt? {tokens : List Token} {position start : Nat}
    (h : nextItemAt? tokens position = some start) :
    position < tokens.length ∧ position ≤ start := by
  unfold nextItemAt? at h
  split at h
  · next hkind =>
    obtain rfl := Option.some.inj h
    exact ⟨lt_length_of_kind_peek hkind (by decide), Nat.le_succ position⟩
  · next hkind =>
    obtain rfl := Option.some.inj h
    exact ⟨lt_length_of_kind_peek hkind (by decide), Nat.le_refl position⟩
  · cases h

/-- Concatenate the items from a position on to `p`. -/
def itemsAt (tokens : List Token) (p : Pattern) (position : Nat) : PositionResult :=
  match hn : nextItemAt? tokens position with
  | none => .ok (p, position)
  | some start =>
    match hi : itemAt tokens start with
    | .error e => .error e
    | .ok (item, stop) =>
      have := lt_length_of_nextItemAt? hn
      have := lt_of_itemAt hi
      itemsAt tokens (.concat p item) stop
termination_by tokens.length - position

theorem le_of_itemsAt {tokens : List Token} {position stop : Nat} {p q : Pattern}
    (h : itemsAt tokens p position = .ok (q, stop)) : position ≤ stop := by
  fun_induction itemsAt tokens p position with
  | case1 p position => exact Nat.le_of_eq (congrArg Prod.snd (Except.ok.inj h))
  | case2 => cases h
  | case3 p position start hn item middle hi _ _ ih =>
    have := ih h
    omega

def pieceAt (tokens : List Token) (start : Nat) : PositionResult :=
  match itemAt tokens start with
  | .error e => .error e
  | .ok (item, position) => itemsAt tokens item position

theorem lt_of_pieceAt {tokens : List Token} {start stop : Nat} {p : Pattern}
    (h : pieceAt tokens start = .ok (p, stop)) : start < stop := by
  unfold pieceAt at h
  split at h
  · cases h
  · next item position hi => exact Nat.lt_of_lt_of_le (lt_of_itemAt hi) (le_of_itemsAt h)

/-! ## Expressions -/

/-- Unite `p` with the pieces that unions lead to from a position on. -/
def piecesAt (tokens : List Token) (p : Pattern) (position : Nat) : PositionResult :=
  if h : (peek tokens position).kind = .union then
    match hp : pieceAt tokens (position + 1) with
    | .error e => .error e
    | .ok (piece, stop) =>
      have := lt_length_of_kind_peek h (by decide)
      have := lt_of_pieceAt hp
      piecesAt tokens (.union p piece) stop
  else .ok (p, position)
termination_by tokens.length - position

def expressionAt (tokens : List Token) (start : Nat) : PositionResult :=
  match pieceAt tokens start with
  | .error e => .error e
  | .ok (piece, position) => piecesAt tokens piece position

/-- The pattern that a whole list of tokens spells, up to the end of
input. -/
def parseAt (tokens : List Token) : Except PatternError Pattern :=
  match expressionAt tokens 0 with
  | .error e => .error e
  | .ok (p, stop) =>
    if (peek tokens stop).kind = .endOfInput then .ok p
    else .error (.unexpectedToken (peek tokens stop) stop)

end Pattern

end Thompson
