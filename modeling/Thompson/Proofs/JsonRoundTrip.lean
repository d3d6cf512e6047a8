import Mathlib.Data.List.Basic
import Mathlib.Data.List.TakeWhile
import Thompson.Json.Printer
import Thompson.Json.Reader
import Thompson.Proofs.Basic

/-!
# What is printed is read back

A value made of numbers, texts, arrays and records (`Json.Plain`) is
printed to a text that is read as that value again, up to the spelling
of control characters (`read_print`): those without a letter of their
own come back as code units, which stand for the same text
(`Glyph.text?_written`).

The proof follows the two machines of the reader. The scanner turns the
text into the stream of tokens of the value, where a number is known to
have ended only once something else follows (`Scans`); and the reader
turns that stream into one value on top of whatever frames are open
(`Reads`).
-/

namespace Thompson

namespace Json

/-- The values that documents are written with. -/
inductive Plain : Json → Prop where
  | number (n : Nat) : Plain (.ofNat n)
  | text (text : String) : Plain (.ofText text)
  | array {items : List Json} : (∀ item ∈ items, Plain item) → Plain (.array items)
  | record {fields : List (String × Json)} : (∀ f ∈ fields, Plain f.2) → Plain (.record fields)

/-! ## Numbers -/

theorem head?_toDigits {n : Nat} (h : 0 < n) : (Nat.toDigits 10 n).head? ≠ some '0' := by
  induction n using Nat.strongRecOn with
  | ind n ih =>
      by_cases hn : n < 10
      · have hdigit : ∀ m < 10, 0 < m → [m.digitChar].head? ≠ some '0' := by decide
        rw [Nat.toDigits_of_lt_base hn]
        exact hdigit n hn h
      · have hne : Nat.toDigits 10 (n / 10) ≠ [] := Nat.toDigits_ne_nil
        rw [Nat.toDigits_of_base_le (by decide) (Nat.not_lt.mp hn),
          List.head?_append_of_ne_nil _ hne]
        exact ih (n / 10) (by omega) (by omega)

theorem isDigit_of_mem_toDigits {n : Nat} {c : Char} (h : c ∈ Nat.toDigits 10 n) :
    c.isDigit = true :=
  Nat.isDigit_of_mem_toDigits (by decide) (by decide) h

theorem isWhole_toDigits (n : Nat) : isWhole (Nat.toDigits 10 n) = true := by
  rcases Nat.eq_zero_or_pos n with rfl | hn
  · rfl
  · have hhead := head?_toDigits hn
    cases hds : Nat.toDigits 10 n with
    | nil => exact absurd hds Nat.toDigits_ne_nil
    | cons d ds =>
        rw [hds] at hhead
        unfold isWhole
        split
        · next h => cases h
        · rfl
        · next h =>
          obtain ⟨rfl, rfl⟩ := List.cons.inj h
          simpa using hhead

theorem isNumber_toDigits (n : Nat) : isNumber (Nat.toDigits 10 n) = true := by
  have hdigits : ∀ c ∈ Nat.toDigits 10 n, c.isDigit = true := fun c => isDigit_of_mem_toDigits
  have htake : (Nat.toDigits 10 n).takeWhile Char.isDigit = Nat.toDigits 10 n :=
    List.takeWhile_eq_self_iff.mpr hdigits
  have hdrop : (Nat.toDigits 10 n).dropWhile Char.isDigit = [] :=
    List.dropWhile_eq_nil_iff.mpr hdigits
  unfold isNumber
  split
  · next rest heq =>
    have hminus : Char.isDigit '-' = true := hdigits '-' (heq ▸ List.mem_cons_self ..)
    cases hminus
  · simp only [htake, hdrop, isWhole_toDigits]
    rfl

theorem ofBare_toDigits (n : Nat) : ofBare (Nat.toDigits 10 n) = .leaf (.ofNat n) := by
  have hword : ∀ word : List Char, (∃ c ∈ word, c.isDigit = false) → Nat.toDigits 10 n ≠ word := by
    rintro word ⟨c, hc, hdigit⟩ heq
    rw [isDigit_of_mem_toDigits (heq ▸ hc)] at hdigit
    cases hdigit
  unfold ofBare
  rw [if_neg (hword _ ⟨'n', by simp, rfl⟩), if_neg (hword _ ⟨'t', by simp, rfl⟩),
    if_neg (hword _ ⟨'f', by simp, rfl⟩), if_pos (isNumber_toDigits n)]
  rfl

/-! ## Glyphs -/

end Json

/-- The glyph that is read where one was printed. -/
def Glyph.written : Glyph → Glyph
  | .char c =>
    if c.toNat < 0x20 ∧ c ∉ ['\x08', '\t', '\n', '\x0c', '\r'] then .unit c.toNat else .char c
  | g => g

namespace Json

open Scanner

/-- Read some characters. -/
def feedAll (s : Scanner) (text : List Char) : Scanner := text.foldl (fun s c => s.feed (some c)) s

theorem feedAll_append (s : Scanner) (front back : List Char) :
    feedAll s (front ++ back) = feedAll (feedAll s front) back := List.foldl_append ..

theorem hexValue?_digitChar : ∀ d < 16, hexValue? (Nat.digitChar d) = some d := by decide

theorem feed_digitChar {d : Nat} (hd : d < 16) (ts : List Token) (glyphs : List Glyph)
    (missing value : Nat) :
    feed ⟨ts, .string glyphs (.digits missing value)⟩ (some d.digitChar) =
      if missing ≤ 1 then ⟨ts, .string (.unit (value * 16 + d) :: glyphs) .plain⟩
      else ⟨ts, .string glyphs (.digits (missing - 1) (value * 16 + d))⟩ := by
  simp only [feed, feedString, hexValue?_digitChar d hd]

theorem feedAll_hex4 {n : Nat} (hn : n < 0x10000) (ts : List Token) (glyphs : List Glyph) :
    feedAll ⟨ts, .string glyphs (.digits 4 0)⟩ (hex4 n) =
      ⟨ts, .string (.unit n :: glyphs) .plain⟩ := by
  have hmod : ∀ m, m % 16 < 16 := fun m => Nat.mod_lt m (by decide)
  have hvalue : (((0 * 16 + n / 0x1000 % 16) * 16 + n / 0x100 % 16) * 16 + n / 0x10 % 16) * 16 +
      n % 16 = n := by omega
  show feed (feed (feed (feed _ _) _) _) _ = _
  rw [feed_digitChar (hmod _), if_neg (by decide), feed_digitChar (hmod _), if_neg (by decide),
    feed_digitChar (hmod _), if_neg (by decide), feed_digitChar (hmod _), if_pos (by decide),
    hvalue]

theorem feedAll_escape (c : Char) (ts : List Token) (glyphs : List Glyph) :
    feedAll ⟨ts, .string glyphs .plain⟩ (escape c) =
      ⟨ts, .string ((Glyph.char c).written :: glyphs) .plain⟩ := by
  by_cases hspecial : c ∈ ['"', '\\', '\x08', '\t', '\n', '\x0c', '\r']
  · simp only [List.mem_cons, List.not_mem_nil, or_false] at hspecial
    rcases hspecial with rfl | rfl | rfl | rfl | rfl | rfl | rfl <;> rfl
  · simp only [List.mem_cons, not_or, List.not_mem_nil, not_false_eq_true, and_true] at hspecial
    obtain ⟨h1, h2, h3, h4, h5, h6, h7⟩ := hspecial
    unfold escape
    rw [if_neg h1, if_neg h2, if_neg h3, if_neg h4, if_neg h5, if_neg h6, if_neg h7]
    by_cases hc : c.toNat < 0x20
    · rw [if_pos hc]
      have hw : (Glyph.char c).written = .unit c.toNat := by
        simp [Glyph.written, hc, h3, h4, h5, h6, h7]
      rw [hw]
      exact feedAll_hex4 (by omega) ts glyphs
    · rw [if_neg hc]
      have hw : (Glyph.char c).written = .char c := by simp [Glyph.written, hc]
      rw [hw]
      simp [feedAll, Scanner.feed, feedString, h1, h2, hc]

theorem feedAll_escapes (text : List Char) (ts : List Token) (glyphs : List Glyph) :
    feedAll ⟨ts, .string glyphs .plain⟩ ((text.map .char).flatMap escapeGlyph) =
      ⟨ts, .string (((text.map .char).map Glyph.written).reverse ++ glyphs) .plain⟩ := by
  induction text generalizing glyphs with
  | nil => rfl
  | cons c text ih =>
      rw [List.map_cons, List.flatMap_cons, feedAll_append, escapeGlyph, feedAll_escape, ih]
      simp

/-- The quote in front opens the string, the one behind completes it. -/
theorem feedAll_quote (text : String) (ts : List Token) (rest : List Char) :
    feedAll ⟨ts, .outside⟩ (quote (Glyph.ofText text) ++ rest) =
      feedAll ⟨.leaf (.string ((Glyph.ofText text).map Glyph.written)) :: ts, .outside⟩ rest := by
  have hopen : feedAll ⟨ts, .outside⟩ ['"'] = ⟨ts, .string [] .plain⟩ := rfl
  have hclose : ∀ glyphs, feedAll ⟨ts, .string glyphs .plain⟩ ['"'] =
      ⟨.leaf (.string glyphs.reverse) :: ts, .outside⟩ := fun _ => rfl
  rw [quote, Glyph.ofText, feedAll_append, feedAll_append, feedAll_append, hopen,
    feedAll_escapes, hclose, List.append_nil, List.reverse_reverse]

/-! ## Streams of tokens -/

/-- The value that is read where one was printed. -/
def written : Json → Json
  | .string glyphs => .string (glyphs.map Glyph.written)
  | .array items => .array (items.map fun item => item.written)
  | .object members => .object (members.map fun m => (m.1.map Glyph.written, m.2.written))
  | j => j
termination_by j => j
decreasing_by
  · exact sizeOf_item_lt ‹_›
  · exact sizeOf_member_lt ‹_›

/-- The tokens that a value is printed as. -/
def stream : Json → List Token
  | .string glyphs => [.leaf (.string (glyphs.map Glyph.written))]
  | .array items =>
    [.openArray] ++ List.intercalate [.comma] (items.map fun item => item.stream) ++ [.closeArray]
  | .object members =>
    [.openObject] ++
      List.intercalate [.comma] (members.map fun m =>
        [.leaf (.string (m.1.map Glyph.written)), .colon] ++ m.2.stream) ++
      [.closeObject]
  | j => [.leaf j]
termination_by j => j
decreasing_by
  · exact sizeOf_item_lt ‹_›
  · exact sizeOf_member_lt ‹_›

/-! ## Scanning what is printed -/

/-- A bare token does not run on into this text. -/
def Ends (rest : List Char) : Prop := ∃ c back, rest = c :: back ∧ isBare c = false

/-- The scanner finds tokens `us` in `content`, whatever follows it. -/
def Scans (content : List Char) (us : List Token) : Prop :=
  ∀ (ts : List Token) (rest : List Char), Ends rest →
    feedAll ⟨ts, .outside⟩ (content ++ rest) = feedAll ⟨us.reverse ++ ts, .outside⟩ rest

theorem feedAll_bare {ds rest : List Char} (hds : ∀ d ∈ ds, isBare d = true) (hrest : Ends rest)
    (ts : List Token) (spelling : List Char) :
    feedAll ⟨ts, .bare spelling⟩ (ds ++ rest) =
      feedAll ⟨ofBare (spelling.reverse ++ ds) :: ts, .outside⟩ rest := by
  induction ds generalizing spelling with
  | nil =>
      -- only the next character ends the token
      obtain ⟨c, back, rfl, hc⟩ := hrest
      simp only [List.nil_append, List.append_nil, feedAll, List.foldl_cons, Scanner.feed, hc]
      rfl
  | cons d ds ih =>
      obtain ⟨hd, hds⟩ := List.forall_mem_cons.mp hds
      have hstep : feedAll ⟨ts, .bare spelling⟩ [d] = ⟨ts, .bare (d :: spelling)⟩ := by
        simp only [feedAll, List.foldl_cons, List.foldl_nil, Scanner.feed, hd, if_true]
      rw [← List.singleton_append, List.append_assoc, feedAll_append, hstep, ih hds]
      simp

theorem isBare_of_isDigit {c : Char} (h : c.isDigit = true) :
    isBare c = true ∧ isBlank c = false := by
  unfold isBare isBlank Char.isAlphanum
  refine ⟨by simp [h], ?_⟩
  simp only [Bool.or_eq_false_iff, beq_eq_false_iff_ne]
  refine ⟨⟨⟨?_, ?_⟩, ?_⟩, ?_⟩ <;> (rintro rfl; cases h)

theorem scans_ofNat (n : Nat) : Scans (Nat.toDigits 10 n) [.leaf (.ofNat n)] := by
  intro ts rest hrest
  have hdigits : ∀ c ∈ Nat.toDigits 10 n, c.isDigit = true := fun c => isDigit_of_mem_toDigits
  have hbare := ofBare_toDigits n
  cases hds : Nat.toDigits 10 n with
  | nil => exact absurd hds Nat.toDigits_ne_nil
  | cons d ds =>
      rw [hds] at hdigits hbare
      obtain ⟨hd, hds⟩ := List.forall_mem_cons.mp hdigits
      have hstep : feedAll ⟨ts, .outside⟩ [d] = ⟨ts, .bare [d]⟩ := by
        obtain ⟨hbare, hblank⟩ := isBare_of_isDigit hd
        simp [feedAll, Scanner.feed, feedOutside, hbare, hblank]
      rw [← List.singleton_append, List.append_assoc, feedAll_append, hstep,
        feedAll_bare (fun c hc => (isBare_of_isDigit (hds c hc)).1) hrest]
      exact congrArg (fun t => feedAll ⟨t :: ts, .outside⟩ rest) hbare

theorem scans_quote (text : String) :
    Scans (quote (Glyph.ofText text)) [.leaf (.string ((Glyph.ofText text).map Glyph.written))] :=
  fun ts rest _ => feedAll_quote text ts rest

theorem feedAll_indent (depth : Nat) (ts : List Token) (rest : List Char) :
    feedAll ⟨ts, .outside⟩ (indent depth ++ rest) = feedAll ⟨ts, .outside⟩ rest := by
  unfold indent
  generalize 2 * depth = n
  induction n with
  | zero => rfl
  | succ n ih =>
      rw [List.replicate_succ]
      exact ih

theorem Scans.line {content : List Char} {us : List Token} (h : Scans content us) (depth : Nat) :
    Scans (indent depth ++ content) us := by
  intro ts rest hrest
  rw [List.append_assoc, feedAll_indent]
  exact h ts rest hrest

/-- Lines are scanned one by one, and the commas between them. -/
theorem scans_lines {α : Type} {content : α → List Char} {us : α → List Token} (depth : Nat) :
    ∀ {items : List α}, (∀ item ∈ items, Scans (content item) (us item)) →
      Scans (lines depth (items.map content)) (List.intercalate [.comma] (items.map us))
  | [], _ => fun _ _ _ => rfl
  | [item], h => by
      simpa [lines] using (h item (List.mem_singleton_self _)).line depth
  | item :: next :: others, h => by
      obtain ⟨hitem, hothers⟩ := List.forall_mem_cons.mp h
      have ih := scans_lines depth hothers
      intro ts rest hrest
      simp only [lines, List.map_cons, List.intercalate_cons_cons] at ih ⊢
      rw [List.append_assoc, List.append_assoc,
        hitem.line depth ts ([',', '\n'] ++ _) ⟨',', _, rfl, by decide⟩]
      have hcomma : ∀ ts rest, feedAll ⟨ts, .outside⟩ ([',', '\n'] ++ rest) =
          feedAll ⟨.comma :: ts, .outside⟩ rest := fun _ _ => rfl
      rw [hcomma, ih _ rest hrest]
      simp

/-- The brackets of a container stand on lines of their own. -/
theorem scans_container (first last : Char) (opening closing : Token) {content : List Char}
    {us : List Token} (h : Scans content us)
    (hopen : ∀ ts, feedAll ⟨ts, .outside⟩ [first] = ⟨opening :: ts, .outside⟩)
    (hclose : ∀ ts, feedAll ⟨ts, .outside⟩ [last] = ⟨closing :: ts, .outside⟩) (depth : Nat) :
    Scans ([first, '\n'] ++ content ++ ['\n'] ++ indent depth ++ [last])
      ([opening] ++ us ++ [closing]) := by
  intro ts rest _
  have hblank : ∀ ts, feedAll ⟨ts, .outside⟩ ['\n'] = ⟨ts, .outside⟩ := fun _ => rfl
  have hbody := h (opening :: ts) (['\n'] ++ (indent depth ++ ([last] ++ rest)))
    ⟨'\n', _, rfl, by decide⟩
  calc feedAll ⟨ts, .outside⟩ ([first, '\n'] ++ content ++ ['\n'] ++ indent depth ++ [last] ++ rest)
      = feedAll ⟨ts, .outside⟩
          ([first] ++ (['\n'] ++ (content ++ (['\n'] ++ (indent depth ++ ([last] ++ rest)))))) := by
        simp
    _ = feedAll ⟨opening :: ts, .outside⟩
          (content ++ (['\n'] ++ (indent depth ++ ([last] ++ rest)))) := by
        rw [feedAll_append, hopen, feedAll_append, hblank]
    _ = feedAll ⟨closing :: (us.reverse ++ opening :: ts), .outside⟩ rest := by
        rw [hbody, feedAll_append, hblank, feedAll_indent, feedAll_append, hclose]
    _ = feedAll ⟨([opening] ++ us ++ [closing]).reverse ++ ts, .outside⟩ rest := by simp

/-- A key is followed by its value on the same line. -/
theorem scans_member (name : String) {content : List Char} {us : List Token}
    (h : Scans content us) :
    Scans (quote (Glyph.ofText name) ++ [':', ' '] ++ content)
      ([.leaf (.string ((Glyph.ofText name).map Glyph.written)), .colon] ++ us) := by
  intro ts rest hrest
  have hcolon : ∀ ts, feedAll ⟨ts, .outside⟩ [':', ' '] = ⟨.colon :: ts, .outside⟩ := fun _ => rfl
  rw [List.append_assoc, List.append_assoc, feedAll_quote, feedAll_append, hcolon, h _ rest hrest]
  simp

theorem scans_pretty {j : Json} (h : j.Plain) (depth : Nat) :
    Scans (j.pretty depth) j.stream := by
  induction h generalizing depth with
  | number n =>
      rw [ofNat, pretty, stream]
      · exact scans_ofNat n
      all_goals simp
  | text text =>
      rw [ofText, pretty, stream]
      exact scans_quote text
  | @array items _ ih =>
      cases items with
      | nil =>
          rw [pretty, stream]
          exact fun _ _ _ => rfl
      | cons item others =>
          rw [pretty, stream]
          · exact scans_container '[' ']' .openArray .closeArray
              (scans_lines _ fun i hi => ih i hi _) (fun _ => rfl) (fun _ => rfl) depth
          · simp
  | @record fields _ ih =>
      cases fields with
      | nil =>
          rw [record, List.map_nil, pretty, stream]
          exact fun _ _ _ => rfl
      | cons field others =>
          have hlines := scans_lines (depth + 1) fun f hf => scans_member f.1 (ih f hf (depth + 1))
          rw [record, pretty, stream, List.map_map, List.map_map]
          · exact scans_container '{' '}' .openObject .closeObject hlines (fun _ => rfl)
              (fun _ => rfl) depth
          · simp

theorem tokens_print {j : Json} (h : j.Plain) :
    tokens ((j.print ++ "\n").toList.map some) = j.stream := by
  have hscan := scans_pretty h 0 [] ['\n'] ⟨'\n', [], rfl, by decide⟩
  have hend : ∀ ts, feedAll ⟨ts, .outside⟩ ['\n'] = ⟨ts, .outside⟩ := fun _ => rfl
  rw [hend, List.append_nil] at hscan
  have htext : (j.print ++ "\n").toList = j.pretty 0 ++ ['\n'] := by
    rw [print, String.toList_append, String.toList_ofList]
    rfl
  rw [tokens, htext, List.foldl_map]
  refine (congrArg Scanner.finish hscan).trans ?_
  simp [Scanner.finish]

/-! ## Reading a stream -/

/-- The reader takes tokens `us` for the value `j`, whatever frames are
open. -/
def Reads (us : List Token) (j : Json) : Prop :=
  ∀ frames, us.foldl Reader.feed ⟨frames, .value⟩ = Reader.complete j frames

/-- A first item is read like any other: no stream begins with the
bracket that could stand in its place. -/
theorem Reads.first {j : Json} {i : Json} (h : Reads j.stream i) (frames : List Frame) :
    j.stream.foldl Reader.feed ⟨.array [] :: frames, .first⟩ =
      Reader.complete i (.array [] :: frames) := by
  rw [← h]
  cases j with
  | null | bool | number | broken => rw [stream]; rfl; all_goals simp
  | string glyphs =>
      rw [stream]
      rfl
  | array items =>
      rw [stream]
      rfl
  | object members =>
      rw [stream]
      rfl

theorem foldl_items {items : List Json} (h : ∀ i ∈ items, Reads i.stream i.written)
    (before : List Json) (frames : List Frame) :
    (items.flatMap fun i => [.comma] ++ i.stream).foldl Reader.feed
        ⟨.array before :: frames, .next⟩ =
      ⟨.array ((items.map written).reverse ++ before) :: frames, .next⟩ := by
  induction items generalizing before with
  | nil => rfl
  | cons i items ih =>
      obtain ⟨hi, hitems⟩ := List.forall_mem_cons.mp h
      have hcomma : [Token.comma].foldl Reader.feed ⟨.array before :: frames, .next⟩ =
          ⟨.array before :: frames, .value⟩ := rfl
      rw [List.flatMap_cons, List.foldl_append, List.foldl_append, hcomma, hi, Reader.complete,
        ih hitems]
      simp

/-- A first member is read like any other. -/
theorem foldl_member {m : List Glyph × Json} (h : Reads m.2.stream m.2.written)
    {expected : Expected} (hexpected : expected = .first ∨ expected = .key)
    (before : List (List Glyph × Json)) (frames : List Frame) :
    ([Token.leaf (.string (m.1.map Glyph.written)), .colon] ++ m.2.stream).foldl Reader.feed
        ⟨.object before :: frames, expected⟩ =
      ⟨.object ((m.1.map Glyph.written, m.2.written) :: before) :: frames, .next⟩ := by
  have hkey : ∀ key, [Token.leaf (.string key), .colon].foldl Reader.feed
      ⟨.object before :: frames, expected⟩ = ⟨.member before key :: frames, .value⟩ := by
    rcases hexpected with rfl | rfl
    · cases before <;> exact fun _ => rfl
    · exact fun _ => rfl
  rw [List.foldl_append, hkey, h]
  rfl

theorem foldl_members {members : List (List Glyph × Json)}
    (h : ∀ m ∈ members, Reads m.2.stream m.2.written)
    (before : List (List Glyph × Json)) (frames : List Frame) :
    (members.flatMap fun m => [.comma] ++
        ([Token.leaf (.string (m.1.map Glyph.written)), .colon] ++ m.2.stream)).foldl Reader.feed
        ⟨.object before :: frames, .next⟩ =
      ⟨.object ((members.map fun m => (m.1.map Glyph.written, m.2.written)).reverse ++ before) ::
        frames, .next⟩ := by
  induction members generalizing before with
  | nil => rfl
  | cons m members ih =>
      obtain ⟨hm, hmembers⟩ := List.forall_mem_cons.mp h
      have hcomma : [Token.comma].foldl Reader.feed ⟨.object before :: frames, .next⟩ =
          ⟨.object before :: frames, .key⟩ := rfl
      rw [List.flatMap_cons, List.foldl_append, List.foldl_append, hcomma,
        foldl_member hm (Or.inr rfl), ih hmembers]
      simp

theorem reads_array {items : List Json} (h : ∀ i ∈ items, Reads i.stream i.written) :
    Reads (Json.array items).stream (Json.array items).written := by
  intro frames
  rw [stream, written]
  cases items with
  | nil => rfl
  | cons i items =>
      obtain ⟨hi, hitems⟩ := List.forall_mem_cons.mp h
      have hopen : [Token.openArray].foldl Reader.feed ⟨frames, .value⟩ =
          ⟨.array [] :: frames, .first⟩ := rfl
      have hclose : ∀ before, [Token.closeArray].foldl Reader.feed
          ⟨.array before :: frames, .next⟩ = Reader.complete (.array before.reverse) frames :=
        fun _ => rfl
      rw [List.map_cons, intercalate_cons, List.flatMap_map, List.foldl_append, List.foldl_append,
        List.foldl_append, hopen, hi.first, Reader.complete, foldl_items hitems, hclose]
      simp

theorem reads_object {members : List (List Glyph × Json)}
    (h : ∀ m ∈ members, Reads m.2.stream m.2.written) :
    Reads (Json.object members).stream (Json.object members).written := by
  intro frames
  rw [stream, written]
  cases members with
  | nil => rfl
  | cons m members =>
      obtain ⟨hm, hmembers⟩ := List.forall_mem_cons.mp h
      have hopen : [Token.openObject].foldl Reader.feed ⟨frames, .value⟩ =
          ⟨.object [] :: frames, .first⟩ := rfl
      have hclose : ∀ before, [Token.closeObject].foldl Reader.feed
          ⟨.object before :: frames, .next⟩ = Reader.complete (.object before.reverse) frames :=
        fun _ => rfl
      rw [List.map_cons, intercalate_cons, List.flatMap_map, List.foldl_append, List.foldl_append,
        List.foldl_append, hopen, foldl_member hm (Or.inl rfl), foldl_members hmembers, hclose]
      simp

theorem reads_stream {j : Json} (h : j.Plain) : Reads j.stream j.written := by
  induction h with
  | number n =>
      rw [ofNat, stream, written]
      · exact fun _ => rfl
      all_goals simp
  | text text =>
      rw [ofText, stream, written]
      exact fun _ => rfl
  | array _ ih => exact reads_array ih
  | record _ ih =>
      refine reads_object ?_
      intro m hm
      obtain ⟨f, hf, rfl⟩ := List.mem_map.mp hm
      exact ih f hf

/-- A printed text is read as one value, the printed one up to the
spelling of control characters. -/
theorem read_print {j : Json} (h : j.Plain) :
    read ((j.print ++ "\n").toList.map some) = [j.written] := by
  rw [read, tokens_print h, ofTokens, reads_stream h]
  rfl

/-! ## Reading values back -/

theorem natural?_written (n : Nat) : (ofNat n).written.natural? = some n := by
  have hdigits : (Nat.toDigits 10 n).all Char.isDigit = true :=
    List.all_eq_true.mpr fun c => isDigit_of_mem_toDigits
  rw [ofNat, written, natural?, if_pos hdigits, Nat.ofDigitChars_ten_toDigits]
  all_goals simp

end Json

/-- A control character is no surrogate, so its code unit stands for
itself. -/
theorem Glyph.textOnto_unit {n : Nat} (h : n < 0x20) (glyphs : List Glyph) (read : List Char) :
    textOnto (.unit n :: glyphs) read = textOnto glyphs (Char.ofNat n :: read) := by
  have hhigh : isHighSurrogate n = false := by
    simp only [isHighSurrogate, Bool.and_eq_false_iff, decide_eq_false_iff_not]
    omega
  have hlow : isLowSurrogate n = false := by
    simp only [isLowSurrogate, Bool.and_eq_false_iff, decide_eq_false_iff_not]
    omega
  cases glyphs with
  | nil => simp [textOnto, hhigh, hlow]
  | cons g glyphs => cases g <;> simp [textOnto, hhigh, hlow]

theorem Glyph.textOnto_char (c : Char) (glyphs : List Glyph) (read : List Char) :
    textOnto ((Glyph.char c).written :: glyphs) read = textOnto glyphs (c :: read) := by
  rw [written]
  split
  · next hc => rw [textOnto_unit hc.1, Char.ofNat_toNat]
  · rfl

theorem Glyph.textOnto_written (text read : List Char) :
    textOnto ((text.map .char).map written) read = some (text.reverse ++ read) := by
  induction text generalizing read with
  | nil => rfl
  | cons c text ih =>
      rw [List.map_cons, List.map_cons, textOnto_char, ih]
      simp

theorem Glyph.text?_written (text : String) :
    Glyph.text? ((Glyph.ofText text).map Glyph.written) = some text := by
  rw [text?, ofText, textOnto_written]
  simp

theorem Json.text?_written (text : String) : (Json.ofText text).written.text? = some text := by
  rw [Json.ofText, Json.written, Json.text?, Glyph.text?_written]

end Thompson
