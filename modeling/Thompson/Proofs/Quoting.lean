import Mathlib.Data.List.Basic
import Thompson.Text.Quoted

/-!
# Quoted texts tell what they quote

However a character is written between quotes, it can be told from the
front of what is written (`read?_escape`), and nothing that is written
for a character begins with the closing quote. So a quoted text ends
where it says, and what stands behind it cannot change what was quoted
(`text_append_inj`). No line ends inside of it (`newline_not_mem_text`).
-/

namespace Thompson

namespace Quoted

/-! ## Digits in base sixteen -/

/-- The number that digits stand for, the highest first. -/
def ofHex (digits : List Char) : Nat :=
  digits.foldl (fun n c => 16 * n + "0123456789abcdef".toList.idxOf c) 0

theorem idxOf_digitChar : ∀ d < 16, "0123456789abcdef".toList.idxOf d.digitChar = d := by
  decide

theorem hex_of_le {n : Nat} (h : 16 ≤ n) : hex n = hex (n / 16) ++ [(n % 16).digitChar] :=
  Nat.toDigits_of_base_le (by decide) h

theorem ofHex_hex (n : Nat) : ofHex (hex n) = n := by
  induction n using Nat.strongRecOn with
  | ind n ih =>
      by_cases hn : n < 16
      · have hone : hex n = [n.digitChar] := Nat.toDigits_of_lt_base hn
        rw [hone]
        show 16 * 0 + _ = n
        rw [idxOf_digitChar n hn]
        omega
      · have hle := Nat.not_lt.mp hn
        have hfront := ih (n / 16) (by omega)
        rw [ofHex] at hfront
        rw [ofHex, hex_of_le hle, List.foldl_concat, hfront,
          idxOf_digitChar _ (Nat.mod_lt n (by decide))]
        exact Nat.div_add_mod n 16

theorem exists_digitChar_of_mem_hex {n : Nat} {c : Char} (h : c ∈ hex n) :
    ∃ d < 16, c = d.digitChar := by
  induction n using Nat.strongRecOn with
  | ind n ih =>
      by_cases hn : n < 16
      · have hone : hex n = [n.digitChar] := Nat.toDigits_of_lt_base hn
        rw [hone] at h
        exact ⟨n, hn, List.mem_singleton.mp h⟩
      · have hle := Nat.not_lt.mp hn
        rw [hex_of_le hle] at h
        rcases List.mem_append.mp h with hfront | hlast
        · exact ih (n / 16) (by omega) hfront
        · exact ⟨n % 16, Nat.mod_lt n (by decide), List.mem_singleton.mp hlast⟩

theorem not_mem_hex {c : Char} (h : ∀ d < 16, c ≠ d.digitChar) (n : Nat) : c ∉ hex n := by
  intro hmem
  obtain ⟨d, hd, hc⟩ := exists_digitChar_of_mem_hex hmem
  exact h d hd hc

/-! ## One character -/

/-- What a letter behind a backslash stands for. -/
def ofLetter (c : Char) : Char :=
  if c = '0' then '\x00'
  else if c = 't' then '\t'
  else if c = 'r' then '\r'
  else if c = 'n' then '\n'
  else c

/-- Read the character that is written at the front of a text. -/
def read? : List Char → Option (Char × List Char)
  | [] => none
  | '\\' :: 'u' :: '{' :: rest =>
    some (.ofNat (ofHex (rest.takeWhile (· ≠ '}'))), (rest.dropWhile (· ≠ '}')).tail)
  | '\\' :: c :: rest => some (ofLetter c, rest)
  | c :: rest => some (c, rest)

/-- Digits end at the closing brace. -/
theorem read?_hex (c : Char) (rest : List Char) :
    read? ('\\' :: 'u' :: '{' :: (hex c.toNat ++ '}' :: rest)) = some (c, rest) := by
  have hdigits : ∀ d ∈ hex c.toNat, decide (d ≠ '}') = true := by
    rintro d hd
    refine decide_eq_true ?_
    rintro rfl
    exact not_mem_hex (by decide) _ hd
  rw [read?, List.takeWhile_append_of_pos hdigits, List.dropWhile_append_of_pos hdigits,
    List.takeWhile_cons_of_neg (by decide), List.dropWhile_cons_of_neg (by decide),
    List.append_nil, ofHex_hex, Char.ofNat_toNat, List.tail_cons]

/-- A character is written as a letter behind a backslash, by its code
point, or as itself. -/
theorem escape_cases (c : Char) :
    (∃ l, escape '"' c = ['\\', l] ∧ l ≠ 'u' ∧ l ≠ '\n' ∧ ofLetter l = c) ∨
      escape '"' c = '\\' :: 'u' :: '{' :: (hex c.toNat ++ ['}']) ∨
      escape '"' c = [c] ∧ c ≠ '\\' ∧ c ≠ '"' ∧ c ≠ '\n' := by
  unfold escape
  split
  · next h => exact Or.inl ⟨'0', rfl, by decide, by decide, h.symm⟩
  · split
    · next h => exact Or.inl ⟨'t', rfl, by decide, by decide, h.symm⟩
    · split
      · next h => exact Or.inl ⟨'r', rfl, by decide, by decide, h.symm⟩
      · split
        · next h => exact Or.inl ⟨'n', rfl, by decide, by decide, h.symm⟩
        · next hnewline =>
          split
          · next h =>
            rcases h with rfl | rfl
            · exact Or.inl ⟨'\\', rfl, by decide, by decide, rfl⟩
            · exact Or.inl ⟨'"', rfl, by decide, by decide, rfl⟩
          · next h =>
            obtain ⟨hbackslash, hquote⟩ := not_or.mp h
            split
            · exact Or.inr (Or.inl rfl)
            · exact Or.inr (Or.inr ⟨rfl, hbackslash, hquote, hnewline⟩)

/-- What is written for a character is read as that character, whatever
stands behind it. -/
theorem read?_escape (c : Char) (rest : List Char) :
    read? (escape '"' c ++ rest) = some (c, rest) := by
  rcases escape_cases c with ⟨l, hl, hu, -, rfl⟩ | hhex | ⟨hself, hbackslash, -, -⟩
  · rw [hl, List.cons_append, List.singleton_append, read?]
    intro _ hletter
    exact absurd hletter hu
  · rw [hhex, List.cons_append, List.cons_append, List.cons_append, List.append_assoc]
    exact read?_hex c rest
  · rw [hself, List.singleton_append, read?]
    · intro _ hc
      exact absurd hc hbackslash
    · intro _ _ hc
      exact absurd hc hbackslash

/-- What is written for a character does not begin with a quote. -/
theorem exists_escape_eq_cons (c : Char) : ∃ d rest, escape '"' c = d :: rest ∧ d ≠ '"' := by
  rcases escape_cases c with ⟨l, hl, -, -, -⟩ | hhex | ⟨hself, -, hquote, -⟩
  · exact ⟨_, _, hl, by decide⟩
  · exact ⟨_, _, hhex, by decide⟩
  · exact ⟨_, _, hself, hquote⟩

theorem newline_not_mem_escape (c : Char) : '\n' ∉ escape '"' c := by
  rcases escape_cases c with ⟨l, hl, -, hnewline, -⟩ | hhex | ⟨hself, -, -, hnewline⟩
  · rw [hl]
    simpa using hnewline.symm
  · rw [hhex]
    simpa using not_mem_hex (by decide) c.toNat
  · rw [hself]
    simpa using hnewline.symm

/-! ## Whole texts -/

/-- A closing quote can be told from every character that is quoted, so
the first one ends the text. -/
theorem escapes_append_inj {cs cs' rest rest' : List Char}
    (h : cs.flatMap (escape '"') ++ '"' :: rest = cs'.flatMap (escape '"') ++ '"' :: rest') :
    cs = cs' ∧ rest = rest' := by
  induction cs generalizing cs' with
  | nil =>
      cases cs' with
      | nil => exact ⟨rfl, (List.cons.inj h).2⟩
      | cons c' cs' =>
          obtain ⟨d, tail, hd, hquote⟩ := exists_escape_eq_cons c'
          rw [List.flatMap_cons, hd] at h
          exact absurd (List.cons.inj h).1.symm hquote
  | cons c cs ih =>
      cases cs' with
      | nil =>
          obtain ⟨d, tail, hd, hquote⟩ := exists_escape_eq_cons c
          rw [List.flatMap_cons, hd] at h
          exact absurd (List.cons.inj h).1 hquote
      | cons c' cs' =>
          rw [List.flatMap_cons, List.flatMap_cons, List.append_assoc, List.append_assoc] at h
          have hread := congrArg read? h
          rw [read?_escape, read?_escape, Option.some.injEq, Prod.mk.injEq] at hread
          obtain ⟨rfl, hrest⟩ := hread
          obtain ⟨rfl, rfl⟩ := ih hrest
          exact ⟨rfl, rfl⟩

theorem toList_text (s : String) :
    (text s).toList = '"' :: (s.toList.flatMap (escape '"') ++ ['"']) := by
  rw [text, String.toList_ofList]
  rfl

/-- A quoted text at the front of a text is no other quoted text, and
ends at one place only. -/
theorem text_append_inj {s s' : String} {rest rest' : List Char}
    (h : (text s).toList ++ rest = (text s').toList ++ rest') : s = s' ∧ rest = rest' := by
  rw [toList_text, toList_text, List.cons_append, List.cons_append, List.append_assoc,
    List.append_assoc] at h
  obtain ⟨hs, hrest⟩ := escapes_append_inj (List.cons.inj h).2
  exact ⟨String.toList_inj.mp hs, hrest⟩

theorem newline_not_mem_text (s : String) : '\n' ∉ (text s).toList := by
  rw [toList_text]
  simp [newline_not_mem_escape]

end Quoted

end Thompson
