import Mathlib.Data.List.Chain
import Thompson.Proofs.Refusal

/-!
# Texts and well-marked tokens

The tokens of a text mark every concatenation of two letters, and nothing
else is marked (`WellMarked`). Such tokens and the texts of pattern
characters are in bijection: the values of the tokens spell the text
again, and tokens that are well marked are those of the text they spell
(`tokenize_bijective`).

Whether two tokens may stand side by side depends on their kinds only
(`Token.MayMeet`), so that tokens are well marked is a chain of conditions
on neighbours, which goes along a text in one direction and along the
tokens in the other. What connects the two is that the latest token is a
symbol just if the latest character is a letter; from this it follows as
well that looking back at the tokens marks the same concatenations
(`Token.emitAll_eq_tokenize`).
-/

namespace Thompson

variable {before : Option Char} {c d : Char} {text front back : List Char}

/-! ## Tokens of a character -/

theorem kind_tokenOf_eq_symbol_iff : (tokenOf c).kind = .symbol ↔ isLetter c = true := by
  unfold tokenOf
  split
  · next h => simp [Token.symbol, h]
  · next h => split <;> simp [Token.union, Token.star, h]

theorem kind_tokenOf_ne_concat : (tokenOf c).kind ≠ .concat := by
  unfold tokenOf
  split
  · simp [Token.symbol]
  · split <;> simp [Token.union, Token.star]

theorem tokenOf_of_isLetter (h : isLetter c = true) : tokenOf c = .symbol c := by
  rw [tokenOf, if_pos h]

/-- A letter behind a letter is marked, and then read as if it were the
first one. -/
theorem spell_cons_of_joined (hbefore : before.any isLetter = true) (hc : isLetter c = true) :
    spell before (c :: text) = .concat :: spell none (c :: text) := by
  have htokens : tokensAt before c = [.concat, tokenOf c] := by simp [tokensAt, hbefore, hc]
  have hfirst : tokensAt none c = [tokenOf c] := rfl
  rw [spell_cons, spell_cons, htokens, hfirst]
  rfl

/-! ## Looking back -/

namespace Token

variable {emitted : List Token} {offset o : Nat}

/-- One step adds the tokens of a character, and keeps the latest token
and the latest character in line. -/
theorem emit?_eq (hbefore : endsInSymbol emitted = before.any isLetter)
    (hc : isPatternChar c = true) :
    emit? emitted c = some (emitted ++ tokensAt before c) ∧
      endsInSymbol (emitted ++ tokensAt before c) = (some c).any isLetter := by
  have hlast : endsInSymbol (emitted ++ tokensAt before c) = isLetter c := by
    have hsymbol : decide ((tokenOf c).kind = .symbol) = isLetter c := by
      rw [Bool.eq_iff_iff, decide_eq_true_iff]
      exact kind_tokenOf_eq_symbol_iff
    unfold tokensAt
    split
    · rw [List.append_cons, endsInSymbol, List.getLast?_concat, Option.any_some, hsymbol]
    · rw [endsInSymbol, List.getLast?_concat, Option.any_some, hsymbol]
  refine ⟨?_, hlast⟩
  rcases isPatternChar_iff.mp hc with hletter | rfl | rfl
  · rw [emit?, if_pos hletter, hbefore, tokensAt, tokenOf_of_isLetter hletter, hletter,
      Bool.and_true]
    split <;> simp
  · simp [emit?, tokensAt, tokenOf, isLetter]
  · simp [emit?, tokensAt, tokenOf, isLetter]

theorem emit?_eq_none (hc : isPatternChar c = false) : emit? emitted c = none := by
  have hnone := mt isPatternChar_iff.mpr (Bool.eq_false_iff.mp hc)
  simp only [not_or] at hnone
  rw [emit?, if_neg hnone.1, if_neg hnone.2.1, if_neg hnone.2.2]

theorem emitAll_of_wellSpelled (hbefore : endsInSymbol emitted = before.any isLetter)
    (h : WellSpelled text) :
    emitAll emitted offset text = .ok (emitted ++ spell before text ++ [.endOfInput]) := by
  induction text generalizing emitted before offset with
  | nil => rw [emitAll, spell_nil, List.append_nil]
  | cons c text ih =>
      obtain ⟨hc, htext⟩ := List.forall_mem_cons.mp h
      obtain ⟨hemit, hlast⟩ := emit?_eq hbefore hc
      simp only [emitAll, hemit, spell_cons, ih hlast htext, List.append_assoc]

theorem emitAll_of_foreign (hbefore : endsInSymbol emitted = before.any isLetter)
    (h : FirstForeign text c o) :
    emitAll emitted offset text = .error (.invalidCharacter c (offset + o)) := by
  obtain ⟨hget, hc, hfront⟩ := h
  induction text generalizing emitted before offset o with
  | nil => cases hget
  | cons d text ih =>
      cases o with
      | zero =>
          obtain rfl : d = c := Option.some.inj hget
          simp only [emitAll, emit?_eq_none hc]
          rfl
      | succ o =>
          obtain ⟨hd, hfront⟩ := List.forall_mem_cons.mp hfront
          obtain ⟨hemit, hlast⟩ := emit?_eq hbefore hd
          simp only [emitAll, hemit, ih hlast hget hfront]
          rw [Nat.add_right_comm, Nat.add_assoc]

theorem emitAll_eq_tokenize (pattern : String) :
    emitAll [] 0 pattern.toList = tokenize pattern := by
  have hstart : endsInSymbol [] = (none : Option Char).any isLetter := rfl
  by_cases h : WellSpelled pattern.toList
  · rw [Pattern.tokenize_of_wellSpelled h]
    exact emitAll_of_wellSpelled hstart h
  · obtain ⟨c, o, hforeign⟩ := exists_firstForeign h
    rw [Pattern.tokenize_of_foreign hforeign, emitAll_of_foreign hstart hforeign, Nat.zero_add]

end Token

/-! ## Well-marked tokens -/

namespace Token

/-- What a token of a text can be: a letter, or one of the tokens that
carry no choice. -/
inductive Default : Token → Prop where
  | symbol {c : Char} : isLetter c = true → Default (.symbol c)
  | union : Default .union
  | concat : Default .concat
  | star : Default .star
  | endOfInput : Default .endOfInput

theorem default_tokenOf (c : Char) : (tokenOf c).Default := by
  unfold tokenOf
  split
  · next h => exact .symbol h
  · split
    · exact .union
    · exact .star

theorem Default.eq_concat {t : Token} (h : t.Default) (hkind : t.kind = .concat) :
    t = .concat := by
  cases h with
  | concat => rfl
  | symbol | union | star | endOfInput => cases hkind

theorem Default.eq_symbol {t : Token} (h : t.Default) (hkind : t.kind = .symbol) :
    ∃ c, t = .symbol c := by
  cases h with
  | @symbol c => exact ⟨c, rfl⟩
  | union | concat | star | endOfInput => cases hkind

/-- Whether a token may stand directly in front of another one. -/
def MayMeet (t u : Token) : Prop :=
  (t.kind = .symbol → u.kind ≠ .symbol) ∧ (t.kind = .concat → u.kind = .symbol) ∧
    (u.kind = .concat → t.kind = .symbol)

instance (t u : Token) : Decidable (MayMeet t u) := inferInstanceAs (Decidable (_ ∧ _))

theorem mayMeet_concat_iff {t : Token} : MayMeet t .concat ↔ t.kind = .symbol := by
  constructor
  · intro h
    exact h.2.2 rfl
  · intro h
    exact ⟨fun _ => nofun, fun hconcat => absurd (h.symm.trans hconcat) nofun, fun _ => h⟩

theorem concat_mayMeet_iff {u : Token} : MayMeet .concat u ↔ u.kind = .symbol := by
  constructor
  · intro h
    exact h.2.1 rfl
  · intro h
    exact ⟨nofun, fun _ => h, fun hconcat => absurd (h.symm.trans hconcat) nofun⟩

theorem mayMeet_iff_of_ne_concat {t u : Token} (ht : t.kind ≠ .concat) (hu : u.kind ≠ .concat) :
    MayMeet t u ↔ (t.kind = .symbol → u.kind ≠ .symbol) := by
  simp [MayMeet, ht, hu]

end Token

/-- Tokens that mark concatenations, and end, as those of a text do. -/
structure WellMarked (ts : List Token) : Prop where
  default : ∀ t ∈ ts, t.Default
  /-- A concatenation stands directly between two symbols. -/
  between : ∀ front back, ts = front ++ .concat :: back →
    (∃ front' c, front = front' ++ [.symbol c]) ∧ ∃ d back', back = .symbol d :: back'
  /-- No two symbols stand side by side. -/
  apart : ∀ front back c d, ts ≠ front ++ .symbol c :: .symbol d :: back
  /-- There is one end of input, and it stands at the end. -/
  closed : ∃ body, ts = body ++ [.endOfInput] ∧ .endOfInput ∉ body

/-- The values of all tokens but concatenations and ends of input. -/
def values (ts : List Token) : List Char :=
  (ts.filter fun t => t.kind ≠ .concat ∧ t.kind ≠ .endOfInput).map Token.value

section WellMarked

open Token

variable {t : Token} {ts body : List Token}

theorem values_append (ts us : List Token) : values (ts ++ us) = values ts ++ values us := by
  rw [values, List.filter_append, List.map_append]
  rfl

theorem values_concat_cons (ts : List Token) : values (.concat :: ts) = values ts := rfl

/-- The values of the tokens of a text are what the tokens spell. -/
theorem values_eq_literal (h : ∀ t ∈ ts, t.Default) : values ts = literal ts := by
  induction ts with
  | nil => rfl
  | cons t ts ih =>
      obtain ⟨ht, hts⟩ := List.forall_mem_cons.mp h
      have hfirst : values [t] = literal [t] := by cases ht <;> rfl
      rw [← List.singleton_append, values_append, literal_append, hfirst, ih hts]

/-! ### A chain of neighbours -/

/-- A chain that begins with no concatenation and ends with the end of
input marks nothing but pairs of symbols. -/
theorem wellMarked_of_isChain (hdefault : ∀ t ∈ body, t.Default)
    (hend : .endOfInput ∉ body) (hhead : body.head? ≠ some .concat)
    (hchain : (body ++ [endOfInput]).IsChain MayMeet) : WellMarked (body ++ [.endOfInput]) where
  default := List.forall_mem_append.mpr ⟨hdefault, by simpa using Default.endOfInput⟩
  between front back hsplit := by
    have hmeet := List.isChain_iff_forall_rel_of_append_cons_cons.mp hchain
    have hmem : ∀ t ∈ front ++ .concat :: back, t.Default := by
      rw [← hsplit]
      exact List.forall_mem_append.mpr ⟨hdefault, by simpa using Default.endOfInput⟩
    constructor
    · rcases List.eq_nil_or_concat' front with rfl | ⟨front, t, rfl⟩
      · cases body with
        | nil => cases hsplit
        | cons u body =>
            rw [(List.cons.inj hsplit).1] at hhead
            exact absurd rfl hhead
      · have hsplit' : body ++ [endOfInput] = front ++ t :: .concat :: back := by
          rw [hsplit, List.append_assoc, List.singleton_append]
        have hkind := mayMeet_concat_iff.mp (hmeet hsplit')
        obtain ⟨c, rfl⟩ := (hmem t (by simp)).eq_symbol hkind
        exact ⟨front, c, rfl⟩
    · cases back with
      | nil =>
          have hlast := congrArg List.getLast? hsplit
          simp [Token.endOfInput, Token.concat] at hlast
      | cons u back =>
          have hkind := concat_mayMeet_iff.mp (hmeet hsplit)
          obtain ⟨d, rfl⟩ := (hmem u (by simp)).eq_symbol hkind
          exact ⟨d, back, rfl⟩
  apart front back c d hsplit := by
    have hmeet := List.isChain_iff_forall_rel_of_append_cons_cons.mp hchain hsplit
    exact hmeet.1 rfl rfl
  closed := ⟨body, rfl, hend⟩

theorem WellMarked.head?_ne (h : WellMarked ts) : ts.head? ≠ some .concat := by
  intro hhead
  cases ts with
  | nil => cases hhead
  | cons t ts =>
      obtain rfl := Option.some.inj hhead
      obtain ⟨⟨front, c, hfront⟩, -⟩ := h.between [] ts rfl
      simp at hfront

theorem WellMarked.isChain (h : WellMarked ts) : ts.IsChain MayMeet := by
  rw [List.isChain_iff_forall_rel_of_append_cons_cons]
  intro t u front back hsplit
  have ht : t.Default := h.default t (by simp [hsplit])
  have hu : u.Default := h.default u (by simp [hsplit])
  refine ⟨fun hsymbol hsymbol' => ?_, fun hconcat => ?_, fun hconcat => ?_⟩
  · obtain ⟨c, rfl⟩ := ht.eq_symbol hsymbol
    obtain ⟨d, rfl⟩ := hu.eq_symbol hsymbol'
    exact h.apart front back c d hsplit
  · obtain rfl := ht.eq_concat hconcat
    obtain ⟨-, d, back', hback⟩ := h.between front (u :: back) hsplit
    rw [(List.cons.inj hback).1]
    rfl
  · obtain rfl := hu.eq_concat hconcat
    obtain ⟨⟨front', c, hfront⟩, -⟩ := h.between (front ++ [t]) back (by simp [hsplit])
    rw [List.singleton_inj.mp (List.append_inj' hfront rfl).2]
    rfl

/-! ### From texts to tokens -/

theorem default_of_mem_spell (ht : t ∈ spell before text) : t.Default := by
  induction text generalizing before with
  | nil => cases ht
  | cons c text ih =>
      rw [spell_cons, List.mem_append] at ht
      rcases ht with ht | ht
      · unfold tokensAt at ht
        split at ht
        · rcases List.mem_cons.mp ht with rfl | ht
          · exact .concat
          · rw [List.mem_singleton.mp ht]
            exact default_tokenOf c
        · rw [List.mem_singleton.mp ht]
          exact default_tokenOf c
      · exact ih ht

theorem isChain_spell (c : Char) (text : List Char) :
    (tokenOf c :: (spell (some c) text ++ [endOfInput])).IsChain MayMeet := by
  induction text generalizing c with
  | nil =>
      have hmeet := mayMeet_iff_of_ne_concat (kind_tokenOf_ne_concat (c := c))
        (show endOfInput.kind ≠ .concat by decide)
      exact List.isChain_pair.mpr (hmeet.mpr fun _ => by decide)
  | cons d text ih =>
      rw [spell_cons, tokensAt]
      split
      · next hpair =>
          obtain ⟨hc, hd⟩ := Bool.and_eq_true_iff.mp hpair
          have hfirst := mayMeet_concat_iff.mpr (kind_tokenOf_eq_symbol_iff.mpr hc)
          have hsecond := concat_mayMeet_iff.mpr (kind_tokenOf_eq_symbol_iff.mpr hd)
          exact List.isChain_cons_cons.mpr ⟨hfirst, List.isChain_cons_cons.mpr ⟨hsecond, ih d⟩⟩
      · next hpair =>
          refine List.isChain_cons_cons.mpr ⟨?_, ih d⟩
          rw [mayMeet_iff_of_ne_concat kind_tokenOf_ne_concat kind_tokenOf_ne_concat]
          intro hc hd
          exact hpair (Bool.and_eq_true_iff.mpr
            ⟨kind_tokenOf_eq_symbol_iff.mp hc, kind_tokenOf_eq_symbol_iff.mp hd⟩)

theorem wellMarked_spell (text : List Char) : WellMarked (spell none text ++ [.endOfInput]) := by
  refine wellMarked_of_isChain (fun t ht => default_of_mem_spell ht) ?_ ?_ ?_
  · exact fun hend => (kind_of_mem_spell hend).1 rfl
  · cases text with
    | nil => simp
    | cons c text =>
        intro hhead
        have hkind : (tokenOf c).kind = .concat := congrArg Token.kind (Option.some.inj hhead)
        exact kind_tokenOf_ne_concat hkind
  · cases text with
    | nil => exact List.isChain_singleton _
    | cons c text => exact isChain_spell c text

theorem values_spell (h : WellSpelled text) (before : Option Char) :
    values (spell before text) = text := by
  rw [values_eq_literal fun t ht => default_of_mem_spell ht, literal_spell text h]

/-- The tokens of two neighbouring letters, and where the concatenation
between them stands. -/
theorem exists_split_spell (hc : isLetter c = true) (hd : isLetter d = true) (before : Option Char)
    (h : WellSpelled (front ++ c :: d :: back)) :
    ∃ fore aft, spell before (front ++ c :: d :: back) =
      fore ++ .symbol c :: .concat :: .symbol d :: aft ∧ values fore = front ∧
        values aft = back := by
  obtain ⟨hfront, hback⟩ := List.forall_mem_append.mp h
  have hback : WellSpelled back := (List.forall_mem_cons.mp (List.forall_mem_cons.mp hback).2).2
  obtain ⟨lead, hlead, hvalues⟩ : ∃ lead,
      tokensAt (front.getLast?.or before) c = lead ++ [tokenOf c] ∧ values lead = [] := by
    unfold tokensAt
    split
    · exact ⟨[.concat], rfl, rfl⟩
    · exact ⟨[], rfl, rfl⟩
  refine ⟨spell before front ++ lead, spell (some d) back, ?_, ?_, values_spell hback _⟩
  · have hpair : tokensAt (some c) d = [.concat, tokenOf d] := by simp [tokensAt, hc, hd]
    rw [Pattern.spell_append, spell_cons, spell_cons, hlead, hpair, tokenOf_of_isLetter hc,
      tokenOf_of_isLetter hd]
    simp
  · rw [values_append, values_spell hfront, hvalues, List.append_nil]

/-! ### From tokens to texts -/

theorem Token.Default.cases_tokenOf (h : t.Default) (hend : t ≠ .endOfInput) :
    t = .concat ∨ ∃ c, t = tokenOf c ∧ ∀ ts, values (t :: ts) = c :: values ts := by
  cases h with
  | @symbol c hc => exact Or.inr ⟨c, (tokenOf_of_isLetter hc).symm, fun _ => rfl⟩
  | union => exact Or.inr ⟨'|', rfl, fun _ => rfl⟩
  | star => exact Or.inr ⟨'*', rfl, fun _ => rfl⟩
  | concat => exact Or.inl rfl
  | endOfInput => exact absurd rfl hend

/-- Well-marked tokens are those of the text they spell. What stands in
front of them has to be a letter if the first one is a concatenation, and
none if it is a symbol. -/
theorem spell_values (hdefault : ∀ t ∈ ts, t.Default) (hend : endOfInput ∉ ts)
    (hchain : (ts ++ [endOfInput]).IsChain MayMeet)
    (hbefore : ∀ t ∈ ts.head?, (t.kind = .symbol → before.any isLetter = false) ∧
      (t.kind = .concat → before.any isLetter = true)) :
    spell before (values ts) = ts := by
  induction ts generalizing before with
  | nil => rfl
  | cons t ts ih =>
      obtain ⟨ht, hts⟩ := List.forall_mem_cons.mp hdefault
      obtain ⟨hne, hrest⟩ := not_or.mp (mt List.mem_cons.mpr hend)
      rw [List.cons_append] at hchain
      obtain ⟨hmeet, hmeets⟩ := List.isChain_cons.mp hchain
      obtain ⟨hsymbol, hconcat⟩ := hbefore t rfl
      rcases ht.cases_tokenOf (Ne.symm hne) with rfl | ⟨c, rfl, hvalues⟩
      · -- the next token is a symbol, and is read as the first one of a text
        cases ts with
        | nil => cases concat_mayMeet_iff.mp (hmeet endOfInput rfl)
        | cons u ts =>
            have hkind := concat_mayMeet_iff.mp (hmeet u rfl)
            obtain ⟨d, rfl⟩ := (hts u List.mem_cons_self).eq_symbol hkind
            have hletter : isLetter d = true := by
              cases hts (.symbol d) List.mem_cons_self with
              | symbol hd => exact hd
            have hspell : spell none (values (.symbol d :: ts)) = .symbol d :: ts := by
              refine ih hts hrest hmeets fun v hv => ?_
              obtain rfl := Option.some.inj hv
              exact ⟨fun _ => rfl, fun hkind => by cases hkind⟩
            rw [values_concat_cons]
            exact (spell_cons_of_joined (hconcat rfl) hletter).trans (congrArg _ hspell)
      · have hspell : spell (some c) (values ts) = ts := by
          refine ih hts hrest hmeets fun u hu => ?_
          have hmeet : MayMeet (tokenOf c) u := by
            refine hmeet u ?_
            rw [List.head?_append, hu]
            rfl
          constructor
          · intro hkind
            rw [Option.any_some, Bool.eq_false_iff]
            exact fun hc => hmeet.1 (kind_tokenOf_eq_symbol_iff.mpr hc) hkind
          · exact fun hkind => kind_tokenOf_eq_symbol_iff.mp (hmeet.2.2 hkind)
        have halone : before.any isLetter = false ∨ isLetter c = false := by
          cases hc : isLetter c with
          | true => exact Or.inl (hsymbol (kind_tokenOf_eq_symbol_iff.mpr hc))
          | false => exact Or.inr rfl
        rw [hvalues, Pattern.spell_cons_of_not_joined halone, hspell]

theorem WellMarked.spell_values (h : WellMarked ts) :
    spell none (values ts) ++ [.endOfInput] = ts := by
  obtain ⟨body, rfl, hend⟩ := h.closed
  have hdefault : ∀ t ∈ body, t.Default := fun t ht => h.default t (List.mem_append_left _ ht)
  have hvalues : values (body ++ [.endOfInput]) = values body := by
    rw [values_append]
    exact List.append_nil _
  rw [hvalues, Thompson.spell_values hdefault hend h.isChain fun t ht => ?_]
  refine ⟨fun _ => rfl, fun hkind => ?_⟩
  obtain rfl := (hdefault t (List.mem_of_mem_head? ht)).eq_concat hkind
  have hhead := h.head?_ne
  rw [List.head?_append, Option.mem_def.mp ht] at hhead
  exact absurd rfl hhead

theorem wellSpelled_values (hdefault : ∀ t ∈ ts, t.Default) :
    WellSpelled (values ts) := by
  intro c hc
  obtain ⟨t, ht, rfl⟩ := List.mem_map.mp hc
  obtain ⟨ht, hkind⟩ := List.mem_filter.mp ht
  cases hdefault t ht with
  | symbol hletter => exact isPatternChar_iff.mpr (Or.inl hletter)
  | union | star => rfl
  | concat | endOfInput => cases hkind

/-! ### Both directions -/

/-- The texts of pattern characters and the well-marked tokens are the
same thing in two forms. Every such text has tokens, whose values spell it
and which mark it well: a concatenation stands between the tokens of any
two neighbouring letters. And well-marked tokens are the tokens of the
text they spell. Looking back at what has been emitted gives the same
tokens, and the same refusals. -/
theorem tokenize_bijective :
    (∀ pattern : String, WellSpelled pattern.toList →
      ∃ ts, tokenize pattern = .ok ts ∧ values ts = pattern.toList ∧ WellMarked ts ∧
        ∀ front back c d,
          (isLetter c = true ∧ isLetter d = true ∧ pattern.toList = front ++ c :: d :: back) ↔
            ∃ fore aft, ts = fore ++ .symbol c :: .concat :: .symbol d :: aft ∧
              values fore = front ∧ values aft = back) ∧
      (∀ ts, WellMarked ts → tokenize (String.ofList (values ts)) = .ok ts) ∧
      ∀ pattern : String, Token.emitAll [] 0 pattern.toList = tokenize pattern := by
  refine ⟨fun pattern h => ?_, fun ts h => ?_, Token.emitAll_eq_tokenize⟩
  · have hmarked := wellMarked_spell pattern.toList
    have hvalues : values (spell none pattern.toList ++ [.endOfInput]) = pattern.toList := by
      rw [values_append, values_spell h]
      exact List.append_nil _
    refine ⟨_, Pattern.tokenize_of_wellSpelled h, hvalues, hmarked, fun front back c d => ?_⟩
    constructor
    · rintro ⟨hc, hd, htext⟩
      rw [htext] at h ⊢
      obtain ⟨fore, aft, hsplit, hfore, haft⟩ := exists_split_spell hc hd none h
      refine ⟨fore, aft ++ [.endOfInput], ?_, hfore, ?_⟩
      · rw [hsplit]
        simp
      · rw [values_append, haft]
        exact List.append_nil _
    · rintro ⟨fore, aft, hsplit, rfl, rfl⟩
      have hletter : ∀ c, .symbol c ∈ spell none pattern.toList ++ [endOfInput] →
          isLetter c = true := by
        intro c hc
        cases hmarked.default _ hc with
        | symbol hletter => exact hletter
      refine ⟨hletter c (by simp [hsplit]), hletter d (by simp [hsplit]), ?_⟩
      rw [← hvalues, hsplit, values_append]
      rfl
  · have hspelled := wellSpelled_values h.default
    rw [Pattern.tokenize_of_wellSpelled (by rwa [String.toList_ofList]), String.toList_ofList,
      h.spell_values]

/-- A letter behind a star and one behind a bar are joined to nothing. -/
theorem tokenize_bijective_star :
    let ts : List Token := [.symbol 'a', .concat, .symbol 'b', .star, .symbol 'c', .union,
      .symbol 'd', .endOfInput]
    WellMarked ts ∧ WellSpelled "ab*c|d".toList ∧
      tokenize (String.ofList (values ts)) = .ok ts ∧
      ∃ ts', tokenize "ab*c|d" = .ok ts' ∧ values ts' = "ab*c|d".toList ∧ WellMarked ts' := by
  intro ts
  have hmarked : WellMarked ts := wellMarked_spell "ab*c|d".toList
  have hspelled : WellSpelled "ab*c|d".toList := by
    simp [WellSpelled, isPatternChar, isLetter]
  obtain ⟨ts', htokens, hvalues, hmarked', -⟩ := tokenize_bijective.1 "ab*c|d" hspelled
  exact ⟨hmarked, hspelled, tokenize_bijective.2.1 ts hmarked, ts', htokens, hvalues, hmarked'⟩

end WellMarked

end Thompson
