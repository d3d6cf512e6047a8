import Mathlib.Data.List.Induction
import Mathlib.Data.Nat.Find
import Thompson.Proofs.PatternText
import Thompson.Proofs.Recognition

/-!
# Which texts are patterns

Whether a text is a pattern can be told from its characters alone: a
character that no pattern contains is refused first, wherever it stands;
then a bar or a star that stands where an operand has to (`Misplaced`);
then an operand that is missing at the end. Everything else compiles
(`compile_verdict`).

The tokens of a text have concatenations that the text does not show.
They make no difference to what may follow (`after?_spell`), so the
standing of the tokens is that of the text; but they are counted in the
place of a token, one for each pair of neighbouring letters
(`length_spell`).
-/

namespace Thompson

/-! ## Conditions on a text -/

/-- No other characters than those of patterns. -/
def WellSpelled (text : List Char) : Prop := ∀ c ∈ text, isPatternChar c = true

/-- The first character that is none of a pattern, and its place. -/
def FirstForeign (text : List Char) (c : Char) (o : Nat) : Prop :=
  text[o]? = some c ∧ isPatternChar c = false ∧ WellSpelled (text.take o)

/-- A bar or a star where an operand has to stand. -/
def Misplaced (text : List Char) (j : Nat) : Prop :=
  (text[j]? = some '|' ∨ text[j]? = some '*') ∧ (j = 0 ∨ text[j - 1]? = some '|')

def FirstMisplaced (text : List Char) (j : Nat) : Prop :=
  Misplaced text j ∧ ∀ i < j, ¬ Misplaced text i

/-- How many letters have a letter behind them. -/
def letterPairs (text : List Char) : Nat :=
  (text.zip text.tail).countP fun (c, d) => isLetter c && isLetter d

variable {text front back : List Char} {c : Char} {o j : Nat}

theorem isPatternChar_iff : isPatternChar c = true ↔ isLetter c = true ∨ c = '|' ∨ c = '*' := by
  simp [isPatternChar, or_assoc]

theorem exists_firstForeign (h : ¬ WellSpelled text) : ∃ c o, FirstForeign text c o := by
  classical
  have hforeign : ∃ o : Nat, ∃ c, text[o]? = some c ∧ isPatternChar c = false := by
    simp only [WellSpelled, not_forall, Bool.not_eq_true] at h
    obtain ⟨c, hmem, hc⟩ := h
    obtain ⟨o, hget⟩ := List.mem_iff_getElem?.mp hmem
    exact ⟨o, c, hget, hc⟩
  obtain ⟨c, hget, hc⟩ := Nat.find_spec hforeign
  refine ⟨c, Nat.find hforeign, hget, hc, fun d hd => ?_⟩
  obtain ⟨o, ho, rfl⟩ := List.mem_take_iff_getElem.mp hd
  have hfirst := Nat.find_min hforeign (Nat.lt_of_lt_of_le ho (Nat.min_le_left _ _))
  by_contra hd
  exact hfirst ⟨_, List.getElem?_eq_getElem _, Bool.eq_false_iff.mpr hd⟩

theorem Misplaced.lt_length (h : Misplaced text j) : j < text.length := by
  rcases h.1 with hget | hget
  · exact (List.getElem?_eq_some_iff.mp hget).1
  · exact (List.getElem?_eq_some_iff.mp hget).1

theorem exists_firstMisplaced (h : Misplaced text j) : ∃ i, FirstMisplaced text i := by
  classical
  exact ⟨Nat.find ⟨j, h⟩, Nat.find_spec ⟨j, h⟩, fun i hi => Nat.find_min ⟨j, h⟩ hi⟩

theorem letterPairs_cons_cons (c d : Char) (text : List Char) :
    letterPairs (c :: d :: text) =
      letterPairs (d :: text) + if isLetter c && isLetter d then 1 else 0 := by
  rw [letterPairs, List.tail_cons, List.zip_cons_cons, List.countP_cons]
  rfl

/-! ## Texts and standings -/

namespace Pattern

/-- The standing that a text is in if nothing in it is misplaced. -/
def standingOf (text : List Char) : Standing :=
  if text = [] ∨ text.getLast? = some '|' then .wanting else .complete

theorem standingOf_eq_wanting_iff :
    standingOf text = .wanting ↔ text = [] ∨ text.getLast? = some '|' := by
  unfold standingOf
  split
  · next h => simp [h]
  · next h => simp [h]

theorem standingOf_concat (front : List Char) (c : Char) :
    standingOf (front ++ [c]) = if c = '|' then .wanting else .complete := by
  simp [standingOf]

theorem kind_tokenOf_of_isLetter (h : isLetter c = true) : (tokenOf c).kind = .symbol := by
  rw [tokenOf, if_pos h]
  rfl

/-- A concatenation between two letters changes nothing: the left one
completes an operand, and the right one completes the next. -/
theorem after?_spell {before : Option Char} {s : Standing}
    (h : before.any isLetter = true → s = .complete) (text : List Char) :
    s.after? (spell before text) = s.after? (text.map tokenOf) := by
  induction text generalizing before s with
  | nil => rfl
  | cons c text ih =>
      rw [spell_cons, List.map_cons]
      by_cases hpair : (before.any isLetter && isLetter c) = true
      · obtain ⟨hbefore, hc⟩ := Bool.and_eq_true_iff.mp hpair
        obtain rfl := h hbefore
        have hnext : Standing.complete.next? Token.concat.kind = some .wanting := rfl
        rw [tokensAt, if_pos hpair, List.cons_append, List.singleton_append, Standing.after?_cons,
          hnext, Option.bind_some, Standing.after?_cons, Standing.after?_cons,
          kind_tokenOf_of_isLetter hc, Standing.next?_symbol, Standing.next?_symbol]
        exact ih fun _ => rfl
      · rw [tokensAt, if_neg hpair, List.singleton_append, Standing.after?_cons,
          Standing.after?_cons]
        refine Option.bind_congr fun s' hs' => ih fun hletter => ?_
        rw [kind_tokenOf_of_isLetter hletter, Standing.next?_symbol] at hs'
        exact (Option.some.inj hs').symm

theorem misplaced_append_iff (h : j < front.length) :
    Misplaced (front ++ back) j ↔ Misplaced front j := by
  have hprevious : j - 1 < front.length := by omega
  rw [Misplaced, Misplaced, List.getElem?_append_left h, List.getElem?_append_left hprevious]

theorem misplaced_length_iff :
    Misplaced (front ++ c :: back) front.length ↔
      (c = '|' ∨ c = '*') ∧ standingOf front = .wanting := by
  have hget : (front ++ c :: back)[front.length]? = some c := by simp
  have hbefore : (front.length = 0 ∨ (front ++ c :: back)[front.length - 1]? = some '|') ↔
      front = [] ∨ front.getLast? = some '|' := by
    rw [List.length_eq_zero_iff, List.getLast?_eq_getElem?]
    refine or_congr_right' fun hne => ?_
    have hlt : front.length - 1 < front.length :=
      Nat.sub_lt (List.length_pos_iff.mpr hne) Nat.one_pos
    rw [List.getElem?_append_left hlt]
  rw [Misplaced, hget, hbefore, standingOf_eq_wanting_iff, Option.some.injEq, Option.some.injEq]

/-- Without anything misplaced, the last character decides. -/
theorem after?_map_tokenOf (htext : WellSpelled text) (h : ∀ j, ¬ Misplaced text j) :
    Standing.wanting.after? (text.map tokenOf) = some (standingOf text) := by
  induction text using List.reverseRecOn with
  | nil => rfl
  | append_singleton front c ih =>
      have hfront : Standing.wanting.after? (front.map tokenOf) = some (standingOf front) := by
        refine ih (fun d hd => htext d (List.mem_append_left _ hd)) fun j hj => ?_
        exact h j ((misplaced_append_iff hj.lt_length).mpr hj)
      have hplace := mt misplaced_length_iff.mpr (h front.length)
      rw [List.map_append, Standing.after?_append, hfront, Option.bind_some, List.map_singleton,
        Standing.after?_cons, standingOf_concat]
      have hmem : c ∈ front ++ [c] := List.mem_append_right _ (List.mem_singleton_self c)
      have hc := isPatternChar_iff.mp (htext c hmem)
      rcases hc with hletter | hsign
      · have hbar : c ≠ '|' := by
          rintro rfl
          cases hletter
        rw [kind_tokenOf_of_isLetter hletter, Standing.next?_symbol, if_neg hbar]
        rfl
      · have hcomplete : standingOf front = .complete := by
          cases hstanding : standingOf front with
          | wanting => exact absurd ⟨hsign, hstanding⟩ hplace
          | complete => rfl
        rw [hcomplete]
        rcases hsign with rfl | rfl <;> rfl

/-! ## The tokens of a text -/

/-- The tokens of a text depend on its last character before only. -/
theorem spell_append (before : Option Char) (front back : List Char) :
    spell before (front ++ back) = spell before front ++ spell (front.getLast?.or before) back := by
  induction front generalizing before with
  | nil => rfl
  | cons c front ih =>
      have hlast : (c :: front).getLast?.or before = front.getLast?.or (some c) := by
        cases h : front.getLast? <;> simp [List.getLast?_cons, h]
      rw [List.cons_append, spell_cons, ih, spell_cons, hlast, List.append_assoc]

/-- A character that is joined to none before it is one token. -/
theorem spell_cons_of_not_joined {before : Option Char}
    (h : before.any isLetter = false ∨ isLetter c = false) (back : List Char) :
    spell before (c :: back) = tokenOf c :: spell (some c) back := by
  have htokens : tokensAt before c = [tokenOf c] := by
    rcases h with h | h
    · simp [tokensAt, h]
    · simp [tokensAt, h]
  rw [spell_cons, htokens, List.singleton_append]

/-- A text has one token for each character, and one more for each pair
of neighbouring letters. -/
theorem length_spell (before : Option Char) (text : List Char) :
    (spell before text).length = text.length + letterPairs (before.toList ++ text) := by
  induction text generalizing before with
  | nil => cases before <;> rfl
  | cons c text ih =>
      rw [spell_cons, List.length_append, ih, List.length_cons]
      cases before with
      | none =>
          have htokens : (tokensAt none c).length = 1 := rfl
          rw [htokens, Option.toList_some, Option.toList_none, List.nil_append,
            List.singleton_append]
          omega
      | some b =>
          have htokens : (tokensAt (some b) c).length =
              1 + if isLetter b && isLetter c then 1 else 0 := by
            unfold tokensAt
            rw [Option.any_some]
            split <;> rfl
          rw [htokens, Option.toList_some, Option.toList_some, List.singleton_append,
            List.singleton_append, letterPairs_cons_cons]
          omega

theorem upToEnd_spell (text : List Char) :
    upToEnd (spell none text ++ [.endOfInput]) = spell none text := by
  rw [upToEnd_append fun t ht => (kind_of_mem_spell ht).1]
  exact List.append_nil _

/-! ## What becomes of a text -/

variable {pattern : String}

theorem tokenize_of_wellSpelled (h : WellSpelled pattern.toList) :
    tokenize pattern = .ok (spell none pattern.toList ++ [.endOfInput]) := by
  have hfind : pattern.toList.zipIdx.find? (fun x => !isPatternChar x.1) = none := by
    rw [List.find?_eq_none]
    rintro ⟨c, o⟩ hmem
    have hc := h c (List.fst_mem_of_mem_zipIdx hmem)
    simp [hc]
  simp only [tokenize, hfind]

theorem tokenize_of_foreign (h : FirstForeign pattern.toList c o) :
    tokenize pattern = .error (.invalidCharacter c o) := by
  obtain ⟨hget, hc, hbefore⟩ := h
  have hfind : pattern.toList.zipIdx.find? (fun x => !isPatternChar x.1) = some (c, o) := by
    rw [List.find?_eq_some_iff_getElem]
    obtain ⟨ho, rfl⟩ := List.getElem?_eq_some_iff.mp hget
    refine ⟨by simpa using hc, o, by simpa using ho, by simp, fun j hj => ?_⟩
    have hmem : pattern.toList[j] ∈ pattern.toList.take o :=
      List.mem_take_iff_getElem.mpr ⟨j, by omega, rfl⟩
    simp [hbefore _ hmem]
  simp only [tokenize, hfind]

theorem ofText_of_wellSpelled (h : WellSpelled pattern.toList) :
    ofText pattern = parse (spell none pattern.toList ++ [.endOfInput]) := by
  rw [ofText, tokenize_of_wellSpelled h]
  rfl

/-- A sign that is misplaced is refused as the token that it is. -/
theorem ofText_of_firstMisplaced (hspelled : WellSpelled pattern.toList)
    (h : FirstMisplaced pattern.toList j) (hget : pattern.toList[j]? = some c) :
    ofText pattern =
      .error (.unexpectedToken (tokenOf c) (j + letterPairs (pattern.toList.take j))) := by
  obtain ⟨hplace, hbefore⟩ := h
  rw [ofText_of_wellSpelled hspelled]
  generalize pattern.toList = text at *
  -- the text in front of the sign, and its tokens
  obtain ⟨front, back, rfl, rfl⟩ := exists_append_of_getElem? hget
  obtain ⟨hc, hstanding⟩ := misplaced_length_iff.mp hplace
  have hkind : (tokenOf c).kind ≠ .symbol := by rcases hc with rfl | rfl <;> decide
  have hletter : isLetter c = false := by rcases hc with rfl | rfl <;> rfl
  have hnone : ∀ i, ¬ Misplaced front i := by
    intro i hi
    exact hbefore i hi.lt_length ((misplaced_append_iff hi.lt_length).mpr hi)
  have hused : Standing.wanting.after? (spell none front) = some .wanting := by
    rw [after?_spell (by simp), after?_map_tokenOf _ hnone, hstanding]
    exact fun d hd => hspelled d (List.mem_append_left _ hd)
  have htokens : upToEnd (spell none (front ++ c :: back) ++ [.endOfInput]) =
      spell none front ++ tokenOf c :: spell (some c) back := by
    rw [upToEnd_spell, spell_append, spell_cons_of_not_joined (Or.inr hletter)]
  rw [parse_of_misplaced htokens hused hkind, length_spell, List.take_left]
  rfl

theorem ofText_of_foreign (h : FirstForeign pattern.toList c o) :
    ofText pattern = .error (.invalidCharacter c o) := by
  rw [ofText, tokenize_of_foreign h]
  rfl

/-- Without anything misplaced, the tokens stand as the text does. -/
theorem after?_upToEnd_spell (hspelled : WellSpelled text) (h : ∀ j, ¬ Misplaced text j) :
    Standing.wanting.after? (upToEnd (spell none text ++ [.endOfInput])) =
      some (standingOf text) := by
  rw [upToEnd_spell, after?_spell (by simp), after?_map_tokenOf hspelled h]

/-! ## Verdicts -/

/-- The reason for which a text is refused, or `none` if it is a
pattern. -/
inductive Verdict (text : List Char) : Option PatternError → Prop where
  | foreign {c : Char} {o : Nat} :
      FirstForeign text c o → Verdict text (some (.invalidCharacter c o))
  | misplaced {j : Nat} {c : Char} :
      WellSpelled text → FirstMisplaced text j → text[j]? = some c →
      Verdict text (some (.unexpectedToken (tokenOf c) (j + letterPairs (text.take j))))
  | missing :
      WellSpelled text → (∀ j, ¬ Misplaced text j) → standingOf text = .wanting →
      Verdict text (some .missingOperand)
  | sound :
      WellSpelled text → (∀ j, ¬ Misplaced text j) → standingOf text = .complete →
      Verdict text none

theorem verdict_invalidCharacter_iff :
    Verdict text (some (.invalidCharacter c o)) ↔ FirstForeign text c o := by
  constructor
  · rintro ⟨hforeign⟩
    exact hforeign
  · exact .foreign

theorem verdict_unexpectedToken_iff {t : Token} {i : Nat} :
    Verdict text (some (.unexpectedToken t i)) ↔
      WellSpelled text ∧ ∃ j, FirstMisplaced text j ∧
        (text[j]? = some '|' ∧ t = .union ∨ text[j]? = some '*' ∧ t = .star) ∧
        i = j + letterPairs (text.take j) := by
  constructor
  · intro h
    cases h with
    | @misplaced j c hspelled hfirst hget =>
        refine ⟨hspelled, j, hfirst, ?_, rfl⟩
        rcases hfirst.1.1 with hsign | hsign
        · obtain rfl := Option.some.inj (hget.symm.trans hsign)
          exact Or.inl ⟨hsign, rfl⟩
        · obtain rfl := Option.some.inj (hget.symm.trans hsign)
          exact Or.inr ⟨hsign, rfl⟩
  · rintro ⟨hspelled, j, hfirst, ⟨hget, rfl⟩ | ⟨hget, rfl⟩, rfl⟩
    · exact .misplaced hspelled hfirst hget
    · exact .misplaced hspelled hfirst hget

theorem verdict_missingOperand_iff :
    Verdict text (some .missingOperand) ↔
      WellSpelled text ∧ (∀ j, ¬ Misplaced text j) ∧ (text = [] ∨ text.getLast? = some '|') := by
  rw [← standingOf_eq_wanting_iff]
  constructor
  · intro h
    cases h with
    | missing hspelled hnone hstanding => exact ⟨hspelled, hnone, hstanding⟩
  · rintro ⟨hspelled, hnone, hstanding⟩
    exact .missing hspelled hnone hstanding

theorem verdict_none_iff :
    Verdict text none ↔
      WellSpelled text ∧ (∀ j, ¬ Misplaced text j) ∧ text ≠ [] ∧ text.getLast? ≠ some '|' := by
  rw [Ne, Ne, ← not_or, ← standingOf_eq_wanting_iff]
  constructor
  · intro h
    cases h with
    | sound hspelled hnone hstanding => exact ⟨hspelled, hnone, by simp [hstanding]⟩
  · rintro ⟨hspelled, hnone, hstanding⟩
    cases h : standingOf text with
    | wanting => exact absurd h hstanding
    | complete => exact .sound hspelled hnone h

theorem exists_verdict (text : List Char) : ∃ v, Verdict text v := by
  by_cases hspelled : WellSpelled text
  · by_cases hmisplaced : ∃ j, Misplaced text j
    · obtain ⟨j, hj⟩ := hmisplaced
      obtain ⟨j, hj⟩ := exists_firstMisplaced hj
      exact ⟨_, .misplaced hspelled hj (List.getElem?_eq_getElem hj.1.lt_length)⟩
    · have hnone := not_exists.mp hmisplaced
      cases hstanding : standingOf text with
      | wanting => exact ⟨_, .missing hspelled hnone hstanding⟩
      | complete => exact ⟨_, .sound hspelled hnone hstanding⟩
  · obtain ⟨c, o, hforeign⟩ := exists_firstForeign hspelled
    exact ⟨_, .foreign hforeign⟩

/-- Why the text of a pattern is refused, if it is. -/
def refusal? (pattern : String) : Option PatternError :=
  match ofText pattern with
  | .ok _ => none
  | .error e => some e

theorem Verdict.refusal?_eq {v : Option PatternError} (h : Verdict pattern.toList v) :
    refusal? pattern = v := by
  unfold refusal?
  cases h with
  | foreign hforeign => rw [ofText_of_foreign hforeign]
  | misplaced hspelled hfirst hget => rw [ofText_of_firstMisplaced hspelled hfirst hget]
  | missing hspelled hnone hstanding =>
      have hafter := after?_upToEnd_spell hspelled hnone
      rw [hstanding] at hafter
      rw [ofText_of_wellSpelled hspelled, parse_of_wanting hafter]
  | sound hspelled hnone hstanding =>
      have hafter := after?_upToEnd_spell hspelled hnone
      rw [hstanding] at hafter
      obtain ⟨e, -, he⟩ := parse_of_complete hafter
      rw [ofText_of_wellSpelled hspelled, he]

/-- Every text has a verdict, and it is the one that is given. -/
theorem refusal?_eq_iff {v : Option PatternError} :
    refusal? pattern = v ↔ Verdict pattern.toList v := by
  constructor
  · rintro rfl
    obtain ⟨v, hv⟩ := exists_verdict pattern.toList
    rw [hv.refusal?_eq]
    exact hv
  · exact Verdict.refusal?_eq

end Pattern

/-! ## What compiles -/

namespace Automaton

open Pattern

theorem compile_eq_error_iff {e : PatternError} :
    compile pattern = .error e ↔ Verdict pattern.toList (some e) := by
  rw [← refusal?_eq_iff, compile, refusal?]
  cases ofText pattern with
  | error e' =>
      constructor
      · intro h
        rw [Except.error.inj h]
      · intro h
        rw [Option.some.inj h]
        rfl
  | ok p =>
      constructor
      · intro h
        cases h
      · intro h
        cases h

theorem exists_compile_eq_ok_iff :
    (∃ a log, compile pattern = .ok (a, log)) ↔ Verdict pattern.toList none := by
  rw [← refusal?_eq_iff, compile, refusal?]
  cases ofText pattern with
  | error e =>
      constructor
      · rintro ⟨a, log, h⟩
        cases h
      · intro h
        cases h
  | ok p => exact ⟨fun _ => rfl, fun _ => ⟨_, _, rfl⟩⟩

/-- What compiling a text comes to, told from its characters. -/
theorem compile_verdict (pattern : String) :
    (∀ c o, compile pattern = .error (.invalidCharacter c o) ↔
        FirstForeign pattern.toList c o) ∧
      (∀ t i, compile pattern = .error (.unexpectedToken t i) ↔
        WellSpelled pattern.toList ∧ ∃ j, FirstMisplaced pattern.toList j ∧
          (pattern.toList[j]? = some '|' ∧ t = .union ∨
            pattern.toList[j]? = some '*' ∧ t = .star) ∧
          i = j + letterPairs (pattern.toList.take j)) ∧
      (compile pattern = .error .missingOperand ↔
        WellSpelled pattern.toList ∧ (∀ j, ¬ Misplaced pattern.toList j) ∧
          (pattern.toList = [] ∨ pattern.toList.getLast? = some '|')) ∧
      ((∃ a log, compile pattern = .ok (a, log)) ↔
        WellSpelled pattern.toList ∧ (∀ j, ¬ Misplaced pattern.toList j) ∧
          pattern.toList ≠ [] ∧ pattern.toList.getLast? ≠ some '|') :=
  ⟨fun _ _ => compile_eq_error_iff.trans verdict_invalidCharacter_iff,
    fun _ _ => compile_eq_error_iff.trans verdict_unexpectedToken_iff,
    compile_eq_error_iff.trans verdict_missingOperand_iff,
    exists_compile_eq_ok_iff.trans verdict_none_iff⟩

example : compile "ab|*" = .error (.unexpectedToken .star 4) := by cbv

end Automaton

end Thompson
