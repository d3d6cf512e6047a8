import Thompson.Proofs.DocumentRoundTrip
import Thompson.Proofs.Spelling

/-!
# Every draft has a text

Whatever a draft lists, sound or not, there is a text that spells it
(`Document.Draft.spellsText_text`), as long as its numbers are machine
words and bytes. So what is proved about texts that spell a draft is
about every such draft.
-/

namespace Thompson

namespace Document

/-! ## The JSON of a draft -/

def entryJson (entry : Label × Array Nat) : Json :=
  .array [labelJson entry.1, .array (entry.2.toList.map .ofNat)]

def DraftState.json (s : DraftState) : Json :=
  .record [("id", .ofNat s.id), ("transitions", .array (s.entries.map entryJson))]

def SavedFlags.json (f : SavedFlags) : Json :=
  .record [
    ("order", .ofText bitOrder),
    ("head", .record [("width", .ofNat 8), ("index", .ofNat f.offset)]),
    ("bits", .ofNat f.count),
    ("data", .array (f.bytes.map .ofNat))]

def Draft.json (d : Draft) : Json :=
  .record [
    ("states", .array (d.states.map DraftState.json)),
    ("start_state", .ofNat d.start),
    ("accept_states", d.flags.json),
    ("alphabet", lettersJson d.alphabet),
    ("regex", .ofText d.regex)]

def Draft.text (d : Draft) : List (Option Char) := (d.json.print ++ "\n").toList.map some

/-- The numbers of a draft can be read. -/
structure Draft.Fits (d : Draft) : Prop where
  states : ∀ s ∈ d.states,
    s.id ≤ largestWord ∧ ∀ e ∈ s.entries, ∀ target ∈ e.2.toList, target ≤ largestWord
  start : d.start ≤ largestWord
  count : d.flags.count ≤ largestWord
  bytes : ∀ byte ∈ d.flags.bytes, byte ≤ 255

/-! ## Values -/

theorem spellsNatural_written {limit n : Nat} (h : n ≤ limit) :
    SpellsNatural limit (Json.ofNat n).written n :=
  ⟨Json.natural?_written n, h⟩

theorem spellsList_written {α : Type} {R : Json → α → Prop} {json : α → Json} {as : List α}
    (h : ∀ a ∈ as, R (json a).written a) : SpellsList R (Json.array (as.map json)).written as := by
  rw [Json.written]
  refine ⟨_, rfl, ?_⟩
  rw [List.map_map, List.forall₂_map_left_iff, List.forall₂_same]
  exact h

/-- A record with its fields in order is listed as the array of them. -/
theorem hasFields_written (names : List String) (values : List Json) {extensible : Bool}
    (hnodup : names.Nodup) (h : values.length = names.length) :
    HasFields names extensible (Json.record (names.zip values)).written
      (values.map Json.written) := by
  have hlength : (values.map Json.written).length = names.length := by rw [List.length_map, h]
  have harray : HasFields names extensible (.array (values.map Json.written))
      (values.map Json.written) := .array hlength
  obtain ⟨fs, hfs, hallowed, hvalues⟩ := (hasFields_iff hnodup).mp harray
  refine (hasFields_iff hnodup).mpr ⟨fs, ?_, hallowed, hvalues⟩
  rw [listing, if_pos (Nat.le_of_eq hlength)] at hfs
  rw [← hfs, Json.record, Json.written, listing, List.zip_map_right]
  simp [Function.comp_def, Glyph.text?_written]

theorem spellsLabel_written (l : Label) : SpellsLabel (labelJson l).written l := by
  cases l with
  | epsilon => exact .word (Json.text?_written _)
  | char c =>
      rw [labelJson, Json.record, Json.written]
      exact .char (Glyph.text?_written _) (Json.text?_written _)

theorem spellsEntry_written {e : Label × Array Nat}
    (h : ∀ target ∈ e.2.toList, target ≤ largestWord) : SpellsEntry (entryJson e).written e := by
  rw [entryJson, Json.written]
  exact ⟨_, _, rfl, spellsLabel_written e.1,
    spellsList_written fun target htarget => spellsNatural_written (h target htarget)⟩

theorem spellsState_written {s : DraftState} (hid : s.id ≤ largestWord)
    (h : ∀ e ∈ s.entries, ∀ target ∈ e.2.toList, target ≤ largestWord) :
    SpellsState s.json.written s :=
  ⟨_, _, hasFields_written ["id", "transitions"]
      [.ofNat s.id, .array (s.entries.map entryJson)] (by decide) rfl,
    spellsNatural_written hid, spellsList_written fun e he => spellsEntry_written (h e he)⟩

theorem spellsHead_written (offset : Fin 8) :
    SpellsHead (Json.record [("width", .ofNat 8), ("index", .ofNat offset)]).written offset :=
  ⟨_, _, hasFields_written ["width", "index"] [.ofNat 8, .ofNat offset]
      (by decide) rfl,
    spellsNatural_written (by decide), spellsNatural_written (by omega)⟩

theorem spellsFlags_written {f : SavedFlags} (hcount : f.count ≤ largestWord)
    (hbytes : ∀ byte ∈ f.bytes, byte ≤ 255) : SpellsFlags f.json.written f :=
  ⟨_, _, _, _, hasFields_written ["order", "head", "bits", "data"]
      [.ofText bitOrder, .record [("width", .ofNat 8), ("index", .ofNat f.offset)],
        .ofNat f.count, .array (f.bytes.map .ofNat)] (by decide) rfl,
    Json.text?_written _, spellsHead_written f.offset, spellsNatural_written hcount,
    spellsList_written fun byte hbyte => spellsNatural_written (hbytes byte hbyte)⟩

namespace Draft

variable {d : Draft}

theorem spells_written (h : d.Fits) : Spells d.json.written d := by
  have hstates : SpellsList SpellsState (Json.array (d.states.map DraftState.json)).written
      d.states :=
    spellsList_written fun s hs => spellsState_written (h.states s hs).1 (h.states s hs).2
  have hletters : SpellsList SpellsChar (lettersJson d.alphabet).written d.alphabet :=
    spellsList_written fun c _ => Json.text?_written _
  exact ⟨_, _, _, _, _, hasFields_written
      ["states", "start_state", "accept_states", "alphabet", "regex"]
      [.array (d.states.map DraftState.json), .ofNat d.start, d.flags.json,
        lettersJson d.alphabet, .ofText d.regex] (by decide) rfl,
    hstates, spellsNatural_written h.start, spellsFlags_written h.count h.bytes, hletters,
    Json.text?_written _⟩

theorem plain_json (d : Draft) : d.json.Plain := by
  have hentry : ∀ e, (entryJson e).Plain := fun e =>
    .array (by simpa using ⟨plain_labelJson e.1, plain_numbers e.2.toList⟩)
  have hstates : (Json.array (d.states.map DraftState.json)).Plain := by
    refine .array (List.forall_mem_map.mpr fun s _ => .record ?_)
    simpa using ⟨Json.Plain.number _, .array (List.forall_mem_map.mpr fun e _ => hentry e)⟩
  have hhead : (Json.record [("width", .ofNat 8), ("index", .ofNat d.flags.offset)]).Plain :=
    .record (by simpa using ⟨Json.Plain.number _, Json.Plain.number _⟩)
  have hflags : d.flags.json.Plain :=
    .record (by simpa using ⟨.text _, hhead, .number _, plain_numbers _⟩)
  have hletters : (lettersJson d.alphabet).Plain :=
    .array (List.forall_mem_map.mpr fun c _ => .text _)
  exact .record (by simpa using ⟨hstates, .number _, hflags, hletters, .text _⟩)

/-- The text of a draft spells it. -/
theorem spellsText_text (h : d.Fits) : SpellsText d.text d :=
  ⟨_, Json.read_print d.plain_json, spells_written h⟩

end Draft

end Document

end Thompson
