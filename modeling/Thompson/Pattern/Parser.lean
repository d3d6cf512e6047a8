import Thompson.Pattern.Basic
import Thompson.Token

/-!
# From tokens to a pattern

The grammar has three levels: an *item* is a symbol with any number of
stars, a *piece* is a sequence of items, neighbours being separated by
a concatenation token or by nothing, and an *expression* is pieces
separated by unions. Items and pieces fold to the left.

Each reader takes tokens off the front and returns what is left. The
only way to fail is that no symbol stands where an operand has to, and
the failure is the list of tokens that are left there; from it `parse`
tells which token was unexpected and at which place. A list that runs
out is treated as one that is closed by an end of input.
-/

namespace Thompson

namespace Pattern

/-- The result of reading a pattern off the front of some tokens: the
pattern and the tokens left, or the tokens left where an operand had to
stand. -/
abbrev ReadResult := Except (List Token) (Pattern × List Token)

/-! ## Items -/

/-- Wrap `p` in one star for each star token in front. -/
def readStars (p : Pattern) : List Token → Pattern × List Token
  | [] => (p, [])
  | t :: ts => if t.kind = .star then readStars (.star p) ts else (p, t :: ts)

theorem length_readStars (p : Pattern) (ts : List Token) :
    (readStars p ts).2.length ≤ ts.length := by
  fun_induction readStars p ts with
  | case1 => simp
  | case2 p t ts _ ih => exact Nat.le_succ_of_le ih
  | case3 => simp

/-- A symbol and the stars behind it. -/
def readItem : List Token → ReadResult
  | [] => .error []
  | t :: ts => if t.kind = .symbol then .ok (readStars (.symbol t.value) ts) else .error (t :: ts)

theorem length_lt_of_readItem {ts rest : List Token} {p : Pattern}
    (h : readItem ts = .ok (p, rest)) : rest.length < ts.length := by
  cases ts with
  | nil => simp [readItem] at h
  | cons t ts =>
    simp only [readItem] at h
    split at h
    · have := length_readStars (.symbol t.value) ts
      simp only [Except.ok.injEq] at h
      rw [h] at this
      simpa using Nat.lt_succ_of_le this
    · simp at h

/-! ## Pieces -/

/-- The tokens of the next item of a piece, if there is one: a
concatenation token leads to it, and a symbol starts it. -/
def nextItem? : List Token → Option (List Token)
  | [] => none
  | t :: ts =>
    match t.kind with
    | .concat => some ts
    | .symbol => some (t :: ts)
    | _ => none

theorem length_nextItem? {ts next : List Token} (h : nextItem? ts = some next) :
    next.length ≤ ts.length := by
  cases ts with
  | nil => simp [nextItem?] at h
  | cons t ts =>
    simp only [nextItem?] at h
    split at h <;> simp at h <;> subst h <;> simp

/-- Concatenate the items in front to `p`. -/
def readItems (p : Pattern) (ts : List Token) : ReadResult :=
  match hn : nextItem? ts with
  | none => .ok (p, ts)
  | some next =>
    match hi : readItem next with
    | .error rest => .error rest
    | .ok (item, rest) =>
      have := length_nextItem? hn
      have := length_lt_of_readItem hi
      readItems (.concat p item) rest
termination_by ts.length

theorem length_le_of_readItems {p q : Pattern} {ts rest : List Token}
    (h : readItems p ts = .ok (q, rest)) : rest.length ≤ ts.length := by
  fun_induction readItems p ts with
  | case1 => simp_all
  | case2 => simp at h
  | case3 p ts next hn item rest' hi _ _ ih =>
    have := ih h
    omega

/-- An item and the items that follow it. -/
def readPiece (ts : List Token) : ReadResult :=
  match readItem ts with
  | .error rest => .error rest
  | .ok (item, rest) => readItems item rest

theorem length_lt_of_readPiece {ts rest : List Token} {p : Pattern}
    (h : readPiece ts = .ok (p, rest)) : rest.length < ts.length := by
  unfold readPiece at h
  split at h
  · simp at h
  · next item rest' hi =>
    have := length_lt_of_readItem hi
    have := length_le_of_readItems h
    omega

/-! ## Expressions -/

/-- The tokens of the next piece of an expression, if a union leads to
it. -/
def nextPiece? : List Token → Option (List Token)
  | [] => none
  | t :: ts => if t.kind = .union then some ts else none

theorem length_nextPiece? {ts next : List Token} (h : nextPiece? ts = some next) :
    next.length ≤ ts.length := by
  cases ts with
  | nil => simp [nextPiece?] at h
  | cons t ts =>
    simp only [nextPiece?] at h
    split at h <;> simp at h
    subst h
    simp

/-- Unite `p` with the pieces that unions lead to. -/
def readPieces (p : Pattern) (ts : List Token) : ReadResult :=
  match hn : nextPiece? ts with
  | none => .ok (p, ts)
  | some next =>
    match hp : readPiece next with
    | .error rest => .error rest
    | .ok (piece, rest) =>
      have := length_nextPiece? hn
      have := length_lt_of_readPiece hp
      readPieces (.union p piece) rest
termination_by ts.length

/-- A piece and the pieces united with it. -/
def readExpression (ts : List Token) : ReadResult :=
  match readPiece ts with
  | .error rest => .error rest
  | .ok (piece, rest) => readPieces piece rest

/-! ## Whole token lists -/

/-- The pattern that a whole list of tokens spells, up to the end of
input. -/
def parse (tokens : List Token) : Except PatternError Pattern :=
  match readExpression tokens with
  | .error [] => .error .missingOperand
  | .error (t :: rest) =>
    if t.kind = .endOfInput then .error .missingOperand
    else .error (.unexpectedToken t (tokens.length - (t :: rest).length))
  | .ok (p, []) => .ok p
  | .ok (p, t :: rest) =>
    if t.kind = .endOfInput then .ok p
    else .error (.unexpectedToken t (tokens.length - (t :: rest).length))

def ofText (pattern : String) : Except PatternError Pattern := do
  parse (← tokenize pattern)

end Pattern

end Thompson
