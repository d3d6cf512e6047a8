import Thompson.Proofs.RecordFields

/-!
# What a text spells

The parts of an automaton as a file spells them are a `Draft`: the
entries of each state in the order of the file, the flags in the bits of
bytes, and the alphabet as it is listed. Which JSON values spell a draft
is said without the readers (`Spells`), and the readers do two things
with one: they collect the entries of each state, and they put the parts
together (`Draft.build`). So a text that spells a draft is read as that
draft builds (`ofText_eq_build`), and only such a text is read
(`exists_spelled_of_ofText`).
-/

namespace Thompson

namespace Document

/-! ## Drafts -/

/-- A state as a file lists it. -/
structure DraftState where
  id : Nat
  entries : List (Label × Array Nat)

/-- Flags in the bits of bytes, the lowest bit first; the bytes may hold
more bits in front of the flags and behind them. -/
structure SavedFlags where
  offset : Fin 8
  count : Nat
  bytes : List Nat
  held : offset + count ≤ 8 * bytes.length

/-- The flags in order. -/
def SavedFlags.sequence (f : SavedFlags) : List Bool :=
  (List.range f.count).map fun i =>
    (f.bytes.getD ((f.offset + i) / 8) 0).testBit ((f.offset + i) % 8)

/-- An automaton as a file lists it. -/
structure Draft where
  states : List DraftState
  start : Nat
  flags : SavedFlags
  alphabet : List Char
  regex : String

def DraftState.build (s : DraftState) : Parsed State :=
  (collect s.entries).map (State.mk s.id)

def Draft.build (d : Draft) : Parsed Document := do
  let states ← d.states.mapM DraftState.build
  return ⟨⟨states.toArray, d.start, ⟨d.flags.sequence.toArray⟩, .ofList d.alphabet, d.regex⟩,
    d.flags.offset⟩

/-! ## Spellings -/

def SpellsNatural (limit : Nat) (j : Json) (n : Nat) : Prop := j.natural? = some n ∧ n ≤ limit

def SpellsChar (j : Json) (c : Char) : Prop := j.text? = some c.toString

def SpellsList {α : Type} (item : Json → α → Prop) (j : Json) (as : List α) : Prop :=
  ∃ items, j = .array items ∧ List.Forall₂ item items as

/-- Epsilon is spelled in two ways. -/
inductive SpellsLabel : Json → Label → Prop where
  | word {j : Json} : j.text? = some "Epsilon" → SpellsLabel j .epsilon
  | epsilon {key : List Glyph} :
      Glyph.text? key = some "Epsilon" → SpellsLabel (.object [(key, .null)]) .epsilon
  | char {key : List Glyph} {value : Json} {c : Char} :
      Glyph.text? key = some "Char" → SpellsChar value c →
      SpellsLabel (.object [(key, value)]) (.char c)

def SpellsEntry (j : Json) (entry : Label × Array Nat) : Prop :=
  ∃ label targets, j = .array [label, targets] ∧ SpellsLabel label entry.1 ∧
    SpellsList (SpellsNatural largestWord) targets entry.2.toList

def SpellsState (j : Json) (s : DraftState) : Prop :=
  ∃ id entries, HasFields ["id", "transitions"] true j [id, entries] ∧
    SpellsNatural largestWord id s.id ∧ SpellsList SpellsEntry entries s.entries

def SpellsHead (j : Json) (offset : Fin 8) : Prop :=
  ∃ width index, HasFields ["width", "index"] false j [width, index] ∧
    SpellsNatural 255 width 8 ∧ SpellsNatural 255 index offset

def SpellsFlags (j : Json) (f : SavedFlags) : Prop :=
  ∃ order head bits data,
    HasFields ["order", "head", "bits", "data"] false j [order, head, bits, data] ∧
      order.text? = some bitOrder ∧ SpellsHead head f.offset ∧
      SpellsNatural largestWord bits f.count ∧ SpellsList (SpellsNatural 255) data f.bytes

/-- A JSON value has the shape of an automaton, and these are the parts
of it. -/
def Spells (j : Json) (d : Draft) : Prop :=
  ∃ states start flags alphabet regex,
    HasFields ["states", "start_state", "accept_states", "alphabet", "regex"] true j
        [states, start, flags, alphabet, regex] ∧
      SpellsList SpellsState states d.states ∧ SpellsNatural largestWord start d.start ∧
      SpellsFlags flags d.flags ∧ SpellsList SpellsChar alphabet d.alphabet ∧
      regex.text? = some d.regex

/-- A text is one JSON value of the shape of an automaton. -/
def SpellsText (text : List (Option Char)) (d : Draft) : Prop :=
  ∃ j, Json.read text = [j] ∧ Spells j d

/-! ## Plain values -/

theorem natural_eq_ok_iff {limit : Nat} {j : Json} {n : Nat} :
    natural limit j = .ok n ↔ SpellsNatural limit j n := by
  unfold natural SpellsNatural
  cases j.natural? with
  | none => simp
  | some m =>
      by_cases hm : m ≤ limit
      · simp only [if_pos hm, Except.ok.injEq, Option.some.injEq]
        constructor
        · rintro rfl
          exact ⟨rfl, hm⟩
        · exact fun h => h.1
      · simp only [if_neg hm, Option.some.injEq]
        constructor
        · intro h
          cases h
        · rintro ⟨rfl, h⟩
          exact absurd h hm

theorem string_eq_ok_iff {j : Json} {text : String} :
    string j = .ok text ↔ j.text? = some text := by
  unfold string
  cases j.text? <;> simp

theorem letter_eq_ok_iff {j : Json} {c : Char} : letter j = .ok c ↔ SpellsChar j c := by
  have htext : ∀ text : String, text = c.toString ↔ text.toList = [c] := by
    intro text
    rw [← String.toList_inj, Char.toString, String.toList_singleton]
  unfold letter SpellsChar
  cases j.text? with
  | none => simp
  | some text =>
      rw [Option.some.injEq, htext, Option.map_some]
      constructor
      · intro h
        split at h
        · next c' hc =>
          rw [Option.some.inj hc, Except.ok.inj h]
        · cases h
      · intro h
        rw [h]

theorem listOf_eq_ok_iff {α : Type} {item : Json → Parsed α} {R : Json → α → Prop}
    (hitem : ∀ {j a}, item j = .ok a ↔ R j a) {j : Json} {as : List α} :
    listOf item j = .ok as ↔ SpellsList R j as := by
  constructor
  · intro h
    cases j with
    | array items => exact ⟨items, rfl, (mapM_eq_ok_iff.mp h).imp fun _ _ => hitem.mp⟩
    | _ => cases h
  · rintro ⟨items, rfl, h⟩
    exact mapM_eq_ok_iff.mpr (h.imp fun _ _ => hitem.mpr)

/-! ## States -/

theorem label_eq_ok_iff {j : Json} {l : Label} : label j = .ok l ↔ SpellsLabel j l := by
  constructor
  · intro h
    unfold label at h
    split at h
    · next key value =>
      split at h
      · next hkey =>
        obtain rfl := Except.ok.inj h
        exact .epsilon hkey
      · next hkey =>
        obtain ⟨c, hvalue, rfl⟩ := map_eq_ok h
        exact .char hkey (letter_eq_ok_iff.mp hvalue)
      · cases h
    · split at h
      · next hword =>
        obtain rfl := Except.ok.inj h
        exact .word hword
      · cases h
  · intro h
    cases h with
    | word hword =>
        cases j with
        | string glyphs => exact if_pos hword
        | _ => cases hword
    | epsilon hkey => simp [label, hkey]
    | char hkey hvalue =>
        simp only [label, hkey, letter_eq_ok_iff.mpr hvalue]
        rfl

theorem transition_eq_ok_iff {j : Json} {entry : Label × Array Nat} :
    transition j = .ok entry ↔ SpellsEntry j entry := by
  constructor
  · intro h
    unfold transition at h
    split at h
    · next l targets =>
      obtain ⟨l', hl, h⟩ := bind_eq_ok h
      obtain ⟨targets', htargets, h⟩ := bind_eq_ok h
      obtain rfl := Except.ok.inj h
      refine ⟨l, targets, rfl, label_eq_ok_iff.mp hl, ?_⟩
      exact (listOf_eq_ok_iff natural_eq_ok_iff).mp htargets
    · cases h
  · rintro ⟨l, targets, rfl, hl, htargets⟩
    have htargets : listOf word targets = .ok entry.2.toList :=
      (listOf_eq_ok_iff natural_eq_ok_iff).mpr htargets
    rw [transition, label_eq_ok_iff.mpr hl, htargets]
    rfl

theorem transitions_of_spells {j : Json} {entries : List (Label × Array Nat)}
    (h : SpellsList SpellsEntry j entries) : transitions j = collect entries := by
  rw [transitions, (listOf_eq_ok_iff transition_eq_ok_iff).mpr h]
  rfl

theorem of_transitions_eq_ok {j : Json} {t : Transitions} (h : transitions j = .ok t) :
    ∃ entries, SpellsList SpellsEntry j entries ∧ collect entries = .ok t := by
  obtain ⟨entries, hentries, h⟩ := bind_eq_ok h
  exact ⟨entries, (listOf_eq_ok_iff transition_eq_ok_iff).mp hentries, h⟩

def StateFields.slots : List (Slot StateFields) :=
  [⟨"id", StateFields.id, word⟩, ⟨"transitions", StateFields.transitions, Document.transitions⟩]

theorem StateFields.fillsSlots : FillsSlots StateFields.read slots true where
  nodup := by decide
  known := by
    simp only [slots, List.forall_mem_cons]
    refine ⟨?_, ?_, by simp⟩
    · intro s
      exact ⟨fun o => { s with id := o }, by simp, by simp, fun value => rfl⟩
    · intro s
      exact ⟨fun o => { s with transitions := o }, by simp, by simp, fun value => rfl⟩
  unknown := by
    intro name hname s value
    obtain ⟨h1, h2⟩ : name ≠ "id" ∧ name ≠ "transitions" := by simpa [slots] using hname
    simp [StateFields.read, h1, h2, ignore]

theorem StateFields.names_slots : slots.map Slot.name = ["id", "transitions"] := rfl

theorem StateFields.empty_slots : ∀ slot ∈ slots, slot.get ⟨none, none⟩ = none := by simp [slots]

theorem state_of_spells {j : Json} {s : DraftState} (h : SpellsState j s) : state j = s.build := by
  obtain ⟨id, entries, hfields, hid, hentries⟩ := h
  have hid : word id = .ok s.id := natural_eq_ok_iff.mpr hid
  have hentries := transitions_of_spells hentries
  cases hcollect : collect s.entries with
  | ok t =>
      rw [hcollect] at hentries
      obtain ⟨f, hread, hslots⟩ := StateFields.fillsSlots.foldFields_of_reads
        StateFields.names_slots StateFields.empty_slots hfields
        (.cons ⟨_, hid⟩ (.cons ⟨_, hentries⟩ .nil))
      obtain ⟨hid, htransitions⟩ : f.id = some s.id ∧ f.transitions = some t := by
        simpa [StateFields.slots, hid, hentries] using hslots
      obtain rfl : f = ⟨some s.id, some t⟩ := by rw [← hid, ← htransitions]
      rw [state, hread, DraftState.build, hcollect]
      rfl
  | error e =>
      -- the number is read, in front of the entries or behind them
      rw [hcollect] at hentries
      have hread := StateFields.fillsSlots.foldFields_of_failure
        StateFields.names_slots StateFields.empty_slots hfields
        (.cons (.inl ⟨_, hid⟩) (.cons (.inr hentries) .nil))
        ⟨_, _, .tail _ (.head _), hentries⟩
      rw [state, hread, DraftState.build, hcollect]
      rfl

theorem of_state_eq_ok {j : Json} {state' : State} (h : state j = .ok state') :
    ∃ s, SpellsState j s ∧ s.build = .ok state' := by
  obtain ⟨f, hread, h⟩ := bind_eq_ok h
  split at h
  · next id t =>
    obtain ⟨values, hfields, hslots⟩ := StateFields.fillsSlots.of_foldFields_eq_ok
      StateFields.names_slots hread (by simp [StateFields.slots])
    obtain _ | ⟨⟨_, hid, ⟨⟩⟩, _ | ⟨⟨_, htransitions, ⟨⟩⟩, ⟨⟩⟩⟩ := hslots
    obtain ⟨entries, hentries, hcollect⟩ := of_transitions_eq_ok htransitions
    refine ⟨⟨id, entries⟩, ⟨_, _, hfields, natural_eq_ok_iff.mp hid, hentries⟩, ?_⟩
    rw [DraftState.build, hcollect, ← h]
    rfl
  · cases h

/-! ## Accept flags -/

def HeadFields.slots : List (Slot HeadFields) :=
  [⟨"width", HeadFields.width, byte⟩, ⟨"index", HeadFields.index, byte⟩]

theorem HeadFields.fillsSlots : FillsSlots HeadFields.read slots false where
  nodup := by decide
  known := by
    simp only [slots, List.forall_mem_cons]
    refine ⟨?_, ?_, by simp⟩
    · intro h
      exact ⟨fun o => { h with width := o }, by simp, by simp, fun value => rfl⟩
    · intro h
      exact ⟨fun o => { h with index := o }, by simp, by simp, fun value => rfl⟩
  unknown := by
    intro name hname h value
    obtain ⟨h1, h2⟩ : name ≠ "width" ∧ name ≠ "index" := by simpa [slots] using hname
    simp [HeadFields.read, h1, h2]

theorem HeadFields.names_slots : slots.map Slot.name = ["width", "index"] := rfl

theorem HeadFields.empty_slots : ∀ slot ∈ slots, slot.get ⟨none, none⟩ = none := by simp [slots]

theorem head_eq_ok_iff {j : Json} {offset : Fin 8} :
    head j = .ok offset ↔ SpellsHead j offset := by
  constructor
  · intro h
    obtain ⟨f, hread, h⟩ := bind_eq_ok h
    split at h
    · next index =>
      split at h
      · next hindex =>
        obtain rfl := Except.ok.inj h
        obtain ⟨values, hfields, hslots⟩ := HeadFields.fillsSlots.of_foldFields_eq_ok
          HeadFields.names_slots hread (by simp [HeadFields.slots])
        obtain _ | ⟨⟨_, hwidth, ⟨⟩⟩, _ | ⟨⟨_, hindex, ⟨⟩⟩, ⟨⟩⟩⟩ := hslots
        exact ⟨_, _, hfields, natural_eq_ok_iff.mp hwidth, natural_eq_ok_iff.mp hindex⟩
      · cases h
    · cases h
  · rintro ⟨width, index, hfields, hwidth, hindex⟩
    have hwidth : byte width = .ok 8 := natural_eq_ok_iff.mpr hwidth
    have hindex : byte index = .ok offset.val := natural_eq_ok_iff.mpr hindex
    obtain ⟨f, hread, hslots⟩ := HeadFields.fillsSlots.foldFields_of_reads
      HeadFields.names_slots HeadFields.empty_slots hfields
      (.cons ⟨_, hwidth⟩ (.cons ⟨_, hindex⟩ .nil))
    obtain ⟨hwidth, hindex⟩ : f.width = some 8 ∧ f.index = some offset.val := by
      simpa [HeadFields.slots, hwidth, hindex] using hslots
    obtain rfl : f = ⟨some 8, some offset.val⟩ := by rw [← hwidth, ← hindex]
    rw [head, hread]
    exact dif_pos offset.isLt

def FlagFields.slots : List (Slot FlagFields) :=
  [⟨"order", FlagFields.order, string⟩, ⟨"head", FlagFields.head, Document.head⟩,
    ⟨"bits", FlagFields.bits, word⟩, ⟨"data", FlagFields.data, listOf byte⟩]

theorem FlagFields.fillsSlots : FillsSlots FlagFields.read slots false where
  nodup := by decide
  known := by
    simp only [slots, List.forall_mem_cons]
    refine ⟨?_, ?_, ?_, ?_, by simp⟩
    · intro f
      exact ⟨fun o => { f with order := o }, by simp, by simp, fun value => rfl⟩
    · intro f
      exact ⟨fun o => { f with head := o }, by simp, by simp, fun value => rfl⟩
    · intro f
      exact ⟨fun o => { f with bits := o }, by simp, by simp, fun value => rfl⟩
    · intro f
      exact ⟨fun o => { f with data := o }, by simp, by simp, fun value => rfl⟩
  unknown := by
    intro name hname f value
    obtain ⟨h1, h2, h3, h4⟩ : name ≠ "order" ∧ name ≠ "head" ∧ name ≠ "bits" ∧ name ≠ "data" := by
      simpa [slots] using hname
    simp [FlagFields.read, h1, h2, h3, h4]

theorem FlagFields.names_slots : slots.map Slot.name = ["order", "head", "bits", "data"] := rfl

theorem FlagFields.empty_slots : ∀ slot ∈ slots, slot.get ⟨none, none, none, none⟩ = none := by
  simp [slots]

theorem unpack_eq (offset : Nat) (count : Nat) (bytes : List Nat) :
    unpack offset count bytes.toArray = ⟨((List.range count).map fun i =>
      (bytes.getD ((offset + i) / 8) 0).testBit ((offset + i) % 8)).toArray⟩ := by
  refine congrArg StateSet.mk (Array.ext (by simp) ?_)
  intro i h1 h2
  simp

theorem flags_of_spells {j : Json} {f : SavedFlags} (h : SpellsFlags j f) :
    flags j = .ok (⟨f.sequence.toArray⟩, f.offset) := by
  obtain ⟨order, head, bits, data, hfields, horder, hhead, hbits, hdata⟩ := h
  have horder := string_eq_ok_iff.mpr horder
  have hhead := head_eq_ok_iff.mpr hhead
  have hbits : word bits = .ok f.count := natural_eq_ok_iff.mpr hbits
  have hdata : listOf byte data = .ok f.bytes := (listOf_eq_ok_iff natural_eq_ok_iff).mpr hdata
  obtain ⟨r, hread, hslots⟩ := FlagFields.fillsSlots.foldFields_of_reads
    FlagFields.names_slots FlagFields.empty_slots hfields
    (.cons ⟨_, horder⟩ (.cons ⟨_, hhead⟩ (.cons ⟨_, hbits⟩ (.cons ⟨_, hdata⟩ .nil))))
  obtain ⟨h1, h2, h3, h4⟩ : r.order = some bitOrder ∧ r.head = some f.offset ∧
      r.bits = some f.count ∧ r.data = some f.bytes := by
    simpa [FlagFields.slots, horder, hhead, hbits, hdata] using hslots
  obtain rfl : r = ⟨some bitOrder, some f.offset, some f.count, some f.bytes⟩ := by
    rw [← h1, ← h2, ← h3, ← h4]
  rw [flags, hread]
  refine (if_pos ⟨rfl, f.held⟩).trans ?_
  rw [unpack_eq]
  rfl

theorem of_flags_eq_ok {j : Json} {found : StateSet × Fin 8} (h : flags j = .ok found) :
    ∃ f, SpellsFlags j f ∧ found = (⟨f.sequence.toArray⟩, f.offset) := by
  obtain ⟨r, hread, h⟩ := bind_eq_ok h
  split at h
  · next order offset bits data =>
    split at h
    · next hheld =>
      obtain ⟨rfl, hheld⟩ := hheld
      obtain rfl := Except.ok.inj h
      obtain ⟨values, hfields, hslots⟩ := FlagFields.fillsSlots.of_foldFields_eq_ok
        FlagFields.names_slots hread (by simp [FlagFields.slots])
      obtain _ | ⟨⟨_, horder, ⟨⟩⟩, _ | ⟨⟨_, hhead, ⟨⟩⟩, _ | ⟨⟨_, hbits, ⟨⟩⟩, _ | ⟨⟨_, hdata, ⟨⟩⟩,
        ⟨⟩⟩⟩⟩⟩ := hslots
      refine ⟨⟨offset, bits, data, hheld⟩, ⟨_, _, _, _, hfields, string_eq_ok_iff.mp horder,
        head_eq_ok_iff.mp hhead, natural_eq_ok_iff.mp hbits, ?_⟩, ?_⟩
      · exact (listOf_eq_ok_iff natural_eq_ok_iff).mp hdata
      · rw [unpack_eq]
        rfl
    · cases h
  · cases h

/-! ## Documents -/

def Fields.slots : List (Slot Fields) :=
  [⟨"states", Fields.states, listOf state⟩, ⟨"start_state", Fields.start, word⟩,
    ⟨"accept_states", Fields.accepting, flags⟩, ⟨"alphabet", Fields.alphabet, listOf letter⟩,
    ⟨"regex", Fields.regex, string⟩]

theorem Fields.fillsSlots : FillsSlots Fields.read slots true where
  nodup := by decide
  known := by
    simp only [slots, List.forall_mem_cons]
    refine ⟨?_, ?_, ?_, ?_, ?_, by simp⟩
    · intro f
      exact ⟨fun o => { f with states := o }, by simp, by simp, fun value => rfl⟩
    · intro f
      exact ⟨fun o => { f with start := o }, by simp, by simp, fun value => rfl⟩
    · intro f
      exact ⟨fun o => { f with accepting := o }, by simp, by simp, fun value => rfl⟩
    · intro f
      exact ⟨fun o => { f with alphabet := o }, by simp, by simp, fun value => rfl⟩
    · intro f
      exact ⟨fun o => { f with regex := o }, by simp, by simp, fun value => rfl⟩
  unknown := by
    intro name hname f value
    obtain ⟨h1, h2, h3, h4, h5⟩ : name ≠ "states" ∧ name ≠ "start_state" ∧
        name ≠ "accept_states" ∧ name ≠ "alphabet" ∧ name ≠ "regex" := by
      simpa [slots] using hname
    simp [Fields.read, h1, h2, h3, h4, h5, ignore]

theorem Fields.names_slots : slots.map Slot.name =
    ["states", "start_state", "accept_states", "alphabet", "regex"] := rfl

theorem Fields.empty_slots :
    ∀ slot ∈ slots, slot.get ⟨none, none, none, none, none⟩ = none := by
  simp [slots]

/-- Values that spell states are read as the states build, up to the
first that does not. -/
theorem listOf_state_of_spells {j : Json} {states : List DraftState}
    (h : SpellsList SpellsState j states) : listOf state j = states.mapM DraftState.build := by
  obtain ⟨items, rfl, hitems⟩ := h
  show items.mapM state = _
  induction hitems with
  | nil => rfl
  | cons hstate _ ih => rw [List.mapM_cons, List.mapM_cons, state_of_spells hstate, ih]

theorem of_listOf_state_eq_ok {j : Json} {states' : List State} (h : listOf state j = .ok states') :
    ∃ states, SpellsList SpellsState j states ∧ states.mapM DraftState.build = .ok states' := by
  obtain ⟨items, rfl, hitems⟩ := (listOf_eq_ok_iff Iff.rfl).mp h
  suffices hstates : ∃ states, List.Forall₂ SpellsState items states ∧
      List.Forall₂ (fun s s' => DraftState.build s = .ok s') states states' by
    obtain ⟨states, hspells, hbuild⟩ := hstates
    exact ⟨states, ⟨items, rfl, hspells⟩, mapM_eq_ok_iff.mpr hbuild⟩
  clear h
  induction hitems with
  | nil => exact ⟨[], .nil, .nil⟩
  | cons hstate _ ih =>
      obtain ⟨s, hspells, hbuild⟩ := of_state_eq_ok hstate
      obtain ⟨states, hrest, hbuilds⟩ := ih
      exact ⟨s :: states, .cons hspells hrest, .cons hbuild hbuilds⟩

theorem ofJson_of_spells {j : Json} {d : Draft} (h : Spells j d) : ofJson j = d.build := by
  obtain ⟨states, start, accepting, alphabet, regex, hfields, hstates, hstart, hflags, halphabet,
    hregex⟩ := h
  have hstates := listOf_state_of_spells hstates
  have hstart : word start = .ok d.start := natural_eq_ok_iff.mpr hstart
  have hflags := flags_of_spells hflags
  have halphabet := (listOf_eq_ok_iff letter_eq_ok_iff).mpr halphabet
  have hregex := string_eq_ok_iff.mpr hregex
  cases hbuild : d.states.mapM DraftState.build with
  | ok built =>
      rw [hbuild] at hstates
      obtain ⟨f, hread, hslots⟩ := Fields.fillsSlots.foldFields_of_reads
        Fields.names_slots Fields.empty_slots hfields
        (.cons ⟨_, hstates⟩ (.cons ⟨_, hstart⟩ (.cons ⟨_, hflags⟩ (.cons ⟨_, halphabet⟩
          (.cons ⟨_, hregex⟩ .nil)))))
      obtain ⟨h1, h2, h3, h4, h5⟩ : f.states = some built ∧ f.start = some d.start ∧
          f.accepting = some (⟨d.flags.sequence.toArray⟩, d.flags.offset) ∧
          f.alphabet = some d.alphabet ∧ f.regex = some d.regex := by
        simpa [Fields.slots, hstates, hstart, hflags, halphabet, hregex] using hslots
      obtain rfl : f = ⟨some built, some d.start,
          some (⟨d.flags.sequence.toArray⟩, d.flags.offset), some d.alphabet, some d.regex⟩ := by
        rw [← h1, ← h2, ← h3, ← h4, ← h5]
      rw [ofJson, hread, Draft.build, hbuild]
      rfl
  | error e =>
      -- wherever the states stand, no other field fails
      rw [hbuild] at hstates
      have hread := Fields.fillsSlots.foldFields_of_failure
        Fields.names_slots Fields.empty_slots hfields
        (.cons (.inr hstates) (.cons (.inl ⟨_, hstart⟩) (.cons (.inl ⟨_, hflags⟩)
          (.cons (.inl ⟨_, halphabet⟩) (.cons (.inl ⟨_, hregex⟩) .nil)))))
        ⟨_, _, .head _, hstates⟩
      rw [ofJson, hread, Draft.build, hbuild]
      rfl

theorem of_ofJson_eq_ok {j : Json} {doc : Document} (h : ofJson j = .ok doc) :
    ∃ d, Spells j d ∧ d.build = .ok doc := by
  obtain ⟨f, hread, h⟩ := bind_eq_ok h
  split at h
  · next states start accepting offset alphabet regex =>
    obtain ⟨values, hfields, hslots⟩ := Fields.fillsSlots.of_foldFields_eq_ok
      Fields.names_slots hread (by simp [Fields.slots])
    obtain _ | ⟨⟨_, hstates, ⟨⟩⟩, _ | ⟨⟨_, hstart, ⟨⟩⟩, _ | ⟨⟨_, hflags, ⟨⟩⟩,
      _ | ⟨⟨_, halphabet, ⟨⟩⟩, _ | ⟨⟨_, hregex, ⟨⟩⟩, ⟨⟩⟩⟩⟩⟩⟩ := hslots
    obtain ⟨drafts, hdrafts, hbuild⟩ := of_listOf_state_eq_ok hstates
    obtain ⟨saved, hsaved, hsequence⟩ := of_flags_eq_ok hflags
    obtain ⟨rfl, rfl⟩ := Prod.mk.inj hsequence
    refine ⟨⟨drafts, start, saved, alphabet, regex⟩, ⟨_, _, _, _, _, hfields, hdrafts,
      natural_eq_ok_iff.mp hstart, hsaved, (listOf_eq_ok_iff letter_eq_ok_iff).mp halphabet,
      string_eq_ok_iff.mp hregex⟩, ?_⟩
    rw [Draft.build, hbuild, ← h]
    rfl
  · cases h

/-! ## Texts -/

variable {text : List (Option Char)}

/-- What a text spells, builds what the text is read as, or fails as
reading does. -/
theorem ofText_eq_build {d : Draft} (h : SpellsText text d) : ofText text = d.build := by
  obtain ⟨j, hj, hspells⟩ := h
  rw [ofText, hj]
  exact ofJson_of_spells hspells

/-- Every text that is read spells a draft. -/
theorem exists_spelled_of_ofText {doc : Document} (h : ofText text = .ok doc) :
    ∃ d, SpellsText text d ∧ d.build = .ok doc := by
  rw [ofText] at h
  split at h
  · cases h
  · next j hj =>
    obtain ⟨d, hspells, hbuild⟩ := of_ofJson_eq_ok h
    exact ⟨d, ⟨j, hj, hspells⟩, hbuild⟩
  · obtain ⟨_, -, h⟩ := bind_eq_ok h
    cases h

end Document

end Thompson
