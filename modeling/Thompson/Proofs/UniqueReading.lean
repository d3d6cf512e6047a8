import Thompson.Proofs.FragmentStates
import Thompson.Proofs.NormalForm

/-!
# Printed patterns are told apart

Every pattern that is no symbol is written with an opening parenthesis in
front, and nothing behind the parenthesis says at once whether it is a
union, a concatenation or a star. It is the character behind the first
operand that tells: a bar, a closing parenthesis, or what a second operand
begins with, which is neither as long as no symbol looks like one of the
signs (`Plain`).

So a printed pattern ends where it has to, whatever follows it
(`text_append_inj`), and two patterns with one text are one pattern
(`print_unambiguous`).
-/

namespace Thompson

namespace Pattern

/-- The characters that a printed pattern is put together with. -/
def signs : List Char := ['(', ')', '|', '*']

/-- No symbol of the pattern looks like a sign. -/
def Plain (p : Pattern) : Prop := ∀ c ∈ p.symbols, c ∉ signs

instance (p : Pattern) : Decidable p.Plain :=
  List.decidableBAll (fun c : Char => c ∉ signs) p.symbols

variable {p q lhs rhs operand : Pattern} {c : Char} {rest rest' : List Char}

theorem plain_symbol_iff : (symbol c).Plain ↔ c ∉ signs := by
  simp [Plain, symbols]

theorem plain_union_iff : (union lhs rhs).Plain ↔ lhs.Plain ∧ rhs.Plain := by
  simp [Plain, symbols, or_imp, forall_and]

theorem plain_concat_iff : (concat lhs rhs).Plain ↔ lhs.Plain ∧ rhs.Plain :=
  plain_union_iff

theorem plain_star_iff : (star operand).Plain ↔ operand.Plain := Iff.rfl

/-! ## The beginning of a text -/

theorem text_union_append :
    (union lhs rhs).text.toList ++ rest =
      '(' :: (lhs.text.toList ++ '|' :: (rhs.text.toList ++ ')' :: rest)) := by
  simp [text]

theorem text_concat_append :
    (concat lhs rhs).text.toList ++ rest =
      '(' :: (lhs.text.toList ++ (rhs.text.toList ++ ')' :: rest)) := by
  simp [text]

theorem text_star_append :
    (star operand).text.toList ++ rest =
      '(' :: (operand.text.toList ++ ')' :: '*' :: rest) := by
  simp [text]

theorem text_symbol_append : (symbol c).text.toList ++ rest = c :: rest := by
  simp [text]

/-- Only a symbol is written without a parenthesis in front. -/
theorem Plain.text_symbol_append_ne (h : (symbol c).Plain) :
    (symbol c).text.toList ++ rest ≠ '(' :: rest' := by
  rw [text_symbol_append]
  intro heq
  obtain rfl := (List.cons.inj heq).1
  exact plain_symbol_iff.mp h (by simp [signs])

/-- No operand begins with what ends another one. -/
theorem Plain.text_append_ne (h : p.Plain) (hc : c = '|' ∨ c = ')') :
    p.text.toList ++ rest ≠ c :: rest' := by
  have hopen : '(' ≠ c := by rcases hc with rfl | rfl <;> decide
  intro heq
  cases p with
  | symbol d =>
      rw [text_symbol_append] at heq
      obtain rfl := (List.cons.inj heq).1
      have hsign : d ∈ signs := by rcases hc with rfl | rfl <;> decide
      exact plain_symbol_iff.mp h hsign
  | union l r =>
      rw [text_union_append] at heq
      exact hopen (List.cons.inj heq).1
  | concat l r =>
      rw [text_concat_append] at heq
      exact hopen (List.cons.inj heq).1
  | star o =>
      rw [text_star_append] at heq
      exact hopen (List.cons.inj heq).1

/-! ## The end of a text -/

/-- Two texts that begin with the text of a pattern begin with that of the
same pattern. The first operands of two patterns agree by induction, and
then the character behind them has to. -/
theorem text_append_inj (hp : p.Plain) (hq : q.Plain)
    (h : p.text.toList ++ rest = q.text.toList ++ rest') : p = q ∧ rest = rest' := by
  induction p generalizing q rest rest' with
  | symbol c =>
      cases q with
      | symbol d =>
          rw [text_symbol_append, text_symbol_append] at h
          obtain ⟨rfl, hrest⟩ := List.cons.inj h
          exact ⟨rfl, hrest⟩
      | union l r =>
          rw [text_union_append] at h
          exact absurd h hp.text_symbol_append_ne
      | concat l r =>
          rw [text_concat_append] at h
          exact absurd h hp.text_symbol_append_ne
      | star o =>
          rw [text_star_append] at h
          exact absurd h hp.text_symbol_append_ne
  | union lhs rhs ihl ihr =>
      obtain ⟨hl, hr⟩ := plain_union_iff.mp hp
      rw [text_union_append] at h
      cases q with
      | symbol d => exact absurd h.symm hq.text_symbol_append_ne
      | union l r =>
          obtain ⟨hql, hqr⟩ := plain_union_iff.mp hq
          rw [text_union_append] at h
          obtain ⟨rfl, hbehind⟩ := ihl hl hql (List.cons.inj h).2
          obtain ⟨rfl, hend⟩ := ihr hr hqr (List.cons.inj hbehind).2
          exact ⟨rfl, (List.cons.inj hend).2⟩
      | concat l r =>
          obtain ⟨hql, hqr⟩ := plain_concat_iff.mp hq
          rw [text_concat_append] at h
          obtain ⟨rfl, hbehind⟩ := ihl hl hql (List.cons.inj h).2
          exact absurd hbehind.symm (hqr.text_append_ne (Or.inl rfl))
      | star o =>
          rw [text_star_append] at h
          obtain ⟨rfl, hbehind⟩ := ihl hl (plain_star_iff.mp hq) (List.cons.inj h).2
          cases hbehind
  | concat lhs rhs ihl ihr =>
      obtain ⟨hl, hr⟩ := plain_concat_iff.mp hp
      rw [text_concat_append] at h
      cases q with
      | symbol d => exact absurd h.symm hq.text_symbol_append_ne
      | union l r =>
          obtain ⟨hql, hqr⟩ := plain_union_iff.mp hq
          rw [text_union_append] at h
          obtain ⟨rfl, hbehind⟩ := ihl hl hql (List.cons.inj h).2
          exact absurd hbehind (hr.text_append_ne (Or.inl rfl))
      | concat l r =>
          obtain ⟨hql, hqr⟩ := plain_concat_iff.mp hq
          rw [text_concat_append] at h
          obtain ⟨rfl, hbehind⟩ := ihl hl hql (List.cons.inj h).2
          obtain ⟨rfl, hend⟩ := ihr hr hqr hbehind
          exact ⟨rfl, (List.cons.inj hend).2⟩
      | star o =>
          rw [text_star_append] at h
          obtain ⟨rfl, hbehind⟩ := ihl hl (plain_star_iff.mp hq) (List.cons.inj h).2
          exact absurd hbehind (hr.text_append_ne (Or.inr rfl))
  | star operand ih =>
      have ho := plain_star_iff.mp hp
      rw [text_star_append] at h
      cases q with
      | symbol d => exact absurd h.symm hq.text_symbol_append_ne
      | union l r =>
          obtain ⟨hql, hqr⟩ := plain_union_iff.mp hq
          rw [text_union_append] at h
          obtain ⟨rfl, hbehind⟩ := ih ho hql (List.cons.inj h).2
          cases hbehind
      | concat l r =>
          obtain ⟨hql, hqr⟩ := plain_concat_iff.mp hq
          rw [text_concat_append] at h
          obtain ⟨rfl, hbehind⟩ := ih ho hql (List.cons.inj h).2
          exact absurd hbehind.symm (hqr.text_append_ne (Or.inr rfl))
      | star o =>
          rw [text_star_append] at h
          obtain ⟨rfl, hbehind⟩ := ih ho (plain_star_iff.mp hq) (List.cons.inj h).2
          exact ⟨rfl, (List.cons.inj (List.cons.inj hbehind).2).2⟩

/-! ## The symbols of a parsed pattern -/

theorem Starred.isLetter_of_mem_symbols (h : Starred p) : ∀ c ∈ p.symbols, isLetter c = true := by
  induction h with
  | symbol hc => simpa [symbols] using hc
  | star _ ih => exact ih

theorem Chained.isLetter_of_mem_symbols (h : Chained p) : ∀ c ∈ p.symbols, isLetter c = true := by
  induction h with
  | single h => exact h.isLetter_of_mem_symbols
  | concat _ hq ih => exact List.forall_mem_append.mpr ⟨ih, hq.isLetter_of_mem_symbols⟩

theorem Normal.isLetter_of_mem_symbols (h : Normal p) : ∀ c ∈ p.symbols, isLetter c = true := by
  induction h with
  | single h => exact h.isLetter_of_mem_symbols
  | union _ hq ih => exact List.forall_mem_append.mpr ⟨ih, hq.isLetter_of_mem_symbols⟩

theorem isLetter_of_ofText {regex : String} (h : ofText regex = .ok p) :
    ∀ c ∈ p.symbols, isLetter c = true := by
  obtain ⟨e, he, -, rfl⟩ := ofText_eq_ok_iff_exists_expression.mp h
  exact he.normal.isLetter_of_mem_symbols

theorem not_mem_signs_of_isLetter (h : isLetter c = true) : c ∉ signs := by
  intro hmem
  have hnone : ∀ d ∈ signs, isLetter d = false := by simp [signs, isLetter]
  rw [hnone c hmem] at h
  cases h

/-! ## Whole texts -/

/-- Patterns whose symbols are no signs are printed alike only if they are
the same pattern; the parser makes no other patterns. -/
theorem print_unambiguous :
    (∀ p q : Pattern, p.Plain → q.Plain → (p.print = q.print ↔ p = q)) ∧
      ∀ (regex : String) (p : Pattern), ofText regex = .ok p → p.Plain := by
  constructor
  · intro p q hp hq
    constructor
    · intro h
      have htext : p.text.toList ++ [] = q.text.toList ++ [] := by
        rw [← print_eq, ← print_eq, h]
      exact (text_append_inj hp hq htext).1
    · rintro rfl
      rfl
  · intro regex p h c hc
    exact not_mem_signs_of_isLetter (isLetter_of_ofText h c hc)

/-- A star over a concatenation and a star inside of one. -/
theorem print_unambiguous_star :
    let p := star (concat (symbol 'a') (symbol 'ε'))
    let q := concat (symbol 'a') (star (symbol 'ε'))
    p.Plain ∧ q.Plain ∧ p.print ≠ q.print := by
  intro p q
  have hp : p.Plain := by decide
  have hq : q.Plain := by decide
  have hne : p ≠ q := by decide
  exact ⟨hp, hq, fun h => hne ((print_unambiguous.1 p q hp hq).mp h)⟩

end Pattern

end Thompson
