import Mathlib.Algebra.Group.Nat.Defs
import Thompson.Proofs.Files
import Thompson.Proofs.JsonRoundTrip
import Thompson.Proofs.Provided

/-!
# Saved documents are loaded again

Whatever document the library makes, and in whatever order its alphabet
is listed: the text that is written is loaded as the document itself,
the offset of its flags included, and nothing is reported. Field by
field the readers undo the writers (`ofJson_jsonListing`); what is left
to the automaton is that it has no defect and that its alphabet is the
one that its transitions use, both of which every provided automaton
brings along.
-/

namespace Thompson

namespace Document

/-! ## Flags in bytes -/

theorem testBit_ofBits : ∀ (bits : List Bool) (i : Nat),
    (ofBits bits).testBit i = bits.getD i false
  | [], i => by simp [ofBits]
  | bit :: bits, 0 => by
      cases bit <;> simp [ofBits]
  | bit :: bits, i + 1 => by
      have ih := testBit_ofBits bits i
      have hhalf : (bit.toNat + 2 * ofBits bits) / 2 = ofBits bits := by
        have := bit.toNat_le
        omega
      rw [Nat.testBit_succ, List.getD_cons_succ, ← ih]
      exact congrArg (Nat.testBit · i) hhalf

theorem ofBits_lt : ∀ bits : List Bool, ofBits bits < 2 ^ bits.length
  | [] => by simp [ofBits]
  | bit :: bits => by
      have ih := ofBits_lt bits
      have := bit.toNat_le
      show bit.toNat + 2 * ofBits bits < 2 ^ (bits.length + 1)
      omega

theorem length_pack (offset : Nat) (s : StateSet) :
    (pack offset s).length = (offset + s.size + 7) / 8 := by
  simp [pack]

theorem le_of_mem_pack {offset byte : Nat} {s : StateSet} (h : byte ∈ pack offset s) :
    byte ≤ 255 := by
  obtain ⟨place, -, rfl⟩ := List.mem_map.mp h
  have hlt := ofBits_lt ((List.range 8).map fun bit =>
    decide (offset ≤ 8 * place + bit) && s.contains (8 * place + bit - offset))
  simp only [List.length_map, List.length_range] at hlt
  omega

/-- The flag of a state stands where `unpack` looks for it. -/
theorem testBit_pack (offset : Nat) {i : Nat} {s : StateSet} (h : i < s.size) :
    ((pack offset s).toArray.getD ((offset + i) / 8) 0).testBit ((offset + i) % 8) =
      s.contains i := by
  have hbyte : (offset + i) / 8 < (offset + s.size + 7) / 8 := by omega
  have hbit : (offset + i) % 8 < 8 := Nat.mod_lt _ (by decide)
  have hplace : 8 * ((offset + i) / 8) + (offset + i) % 8 = offset + i := Nat.div_add_mod ..
  simp [pack, testBit_ofBits, hbyte, hbit, hplace, List.getD_eq_getElem?_getD]

theorem unpack_pack (offset : Nat) (s : StateSet) :
    unpack offset s.size (pack offset s).toArray = s := by
  have hsize : (unpack offset s.size (pack offset s).toArray).size = s.size := by
    simp [unpack, StateSet.size]
  refine StateSet.ext hsize ?_
  intro i
  by_cases hi : i < s.size
  · have hget : (unpack offset s.size (pack offset s).toArray).contains i = s.contains i := by
      rw [← testBit_pack offset hi]
      simp [unpack, StateSet.contains, hi]
    rw [hget]
  · constructor
    · intro h
      exact absurd (hsize ▸ StateSet.lt_size_of_contains h) hi
    · intro h
      exact absurd (StateSet.lt_size_of_contains h) hi

/-! ## Plain values -/

theorem natural_written {limit n : Nat} (h : n ≤ limit) :
    natural limit (Json.ofNat n).written = .ok n := by
  rw [natural, Json.natural?_written]
  exact if_pos h

theorem string_written (text : String) : string (Json.ofText text).written = .ok text := by
  rw [string, Json.text?_written]

theorem letter_written (c : Char) : letter (Json.ofText c.toString).written = .ok c := by
  rw [letter, Json.text?_written, Option.map_some, Char.toString, String.toList_singleton]

/-- A list is read back if every item of it is. -/
theorem listOf_written {α : Type} {item : Json → Parsed α} {json : α → Json} {as : List α}
    (h : ∀ a ∈ as, item (json a).written = .ok a) :
    listOf item (Json.array (as.map json)).written = .ok as := by
  have hitems : (as.map fun a => (json a).written).mapM item = .ok as := by
    induction as with
    | nil => rfl
    | cons a as ih =>
        obtain ⟨ha, has⟩ := List.forall_mem_cons.mp h
        rw [List.map_cons, List.mapM_cons, ha, ih has]
        rfl
  rw [Json.written, listOf, List.map_map]
  exact hitems

/-- The fields of a record are read in the order in which they are
written. -/
theorem foldFields_record {σ : Type} (names : List String) (field : σ → String → Json → Parsed σ)
    (start : σ) (fields : List (String × Json)) :
    foldFields names field start (Json.record fields).written =
      fields.foldlM (fun s f => field s f.1 f.2.written) start := by
  rw [Json.record, Json.written, foldFields, List.map_map, List.foldlM_map]
  simp only [Function.comp, Glyph.text?_written]

/-! ## States -/

theorem label_written (l : Label) : label (labelJson l).written = .ok l := by
  cases l with
  | epsilon =>
      have htext := Json.text?_written "Epsilon"
      rw [labelJson, Json.ofText, Json.written] at *
      rw [label, if_pos htext]
      simp
  | char c =>
      have hletter := letter_written c
      simp only [labelJson, Json.record, List.map_cons, List.map_nil, Json.written, label,
        Glyph.text?_written, hletter]
      rfl

/-- The targets of all labels are machine words. -/
def Fits (t : Transitions) : Prop := ∀ e ∈ t.entries, ∀ target ∈ e.2, target ≤ largestWord

theorem transition_written {e : Label × Array Nat} (h : ∀ target ∈ e.2, target ≤ largestWord) :
    transition (Json.array [labelJson e.1, .array (e.2.toList.map .ofNat)]).written = .ok e := by
  have htargets : listOf word (Json.array (e.2.toList.map .ofNat)).written = .ok e.2.toList :=
    listOf_written fun target htarget => natural_written (h target (by simpa using htarget))
  rw [Json.written, List.map_cons, List.map_cons, List.map_nil, transition, label_written, htargets]
  rfl

theorem listEntry_eq_ok {t : Transitions} {entry : Label × Array Nat}
    (h : ∀ e ∈ t.entries, e.1 < entry.1) :
    ∃ t', listEntry t entry = .ok t' ∧ t'.entries = t.entries ++ [entry] := by
  have hnew : entry.1 ∉ t.labels := by
    intro hmem
    obtain ⟨e, he, heq⟩ := List.mem_map.mp hmem
    exact Nat.lt_irrefl _ (heq ▸ Label.lt_iff.mp (h e he))
  unfold listEntry Transitions.insertNew?
  rw [if_neg hnew]
  exact ⟨_, rfl, Transitions.alter_eq_append h⟩

/-- Entries in ascending order are listed one behind the other. -/
theorem collect_entries (t : Transitions) : collect t.entries = .ok t := by
  obtain ⟨entries, hascending⟩ := t
  suffices h : ∀ (rest : List (Label × Array Nat)) (t : Transitions),
      entries = t.entries ++ rest → rest.foldlM listEntry t = .ok ⟨entries, hascending⟩ from
    h entries .empty rfl
  -- the entries still to come, each above all labels that are listed
  intro rest
  induction rest with
  | nil =>
      rintro ⟨before, _⟩ hsplit
      simp only [List.append_nil] at hsplit
      subst hsplit
      rfl
  | cons e rest ih =>
      intro t hsplit
      have hlt : ∀ e' ∈ t.entries, e'.1 < e.1 := fun e' he' =>
        (List.pairwise_append.mp (hsplit ▸ hascending)).2.2 e' he' e (List.mem_cons_self ..)
      obtain ⟨t', ht', hentries⟩ := listEntry_eq_ok hlt
      rw [List.foldlM_cons, ht']
      exact ih t' (by rw [hentries, hsplit, List.append_assoc]; rfl)

theorem transitions_written {t : Transitions} (h : Fits t) :
    transitions (transitionsJson t).written = .ok t := by
  have hentries : listOf transition (transitionsJson t).written = .ok t.entries :=
    listOf_written fun e he => transition_written (h e he)
  rw [transitions, hentries]
  exact collect_entries t

theorem state_written {s : State} (hid : s.id ≤ largestWord) (h : Fits s.transitions) :
    state (stateJson s).written = .ok s := by
  have hid : word (Json.ofNat s.id).written = .ok s.id := natural_written hid
  have htransitions := transitions_written h
  have hfields : [("id", .ofNat s.id), ("transitions", transitionsJson s.transitions)].foldlM
      (fun f (m : String × Json) => StateFields.read f m.1 m.2.written) ⟨none, none⟩ =
      .ok ⟨some s.id, some s.transitions⟩ := by
    simp [StateFields.read, once, hid, htransitions]
    rfl
  rw [state, stateJson, foldFields_record, hfields]
  rfl

/-! ## Accept flags -/

theorem head_written (offset : Fin 8) :
    head (Json.record [("width", .ofNat 8), ("index", .ofNat offset)]).written = .ok offset := by
  have hwidth : byte (Json.ofNat 8).written = .ok 8 := natural_written (by decide)
  have hindex : byte (Json.ofNat offset).written = .ok offset.val :=
    natural_written (by omega)
  have hfields : [("width", .ofNat 8), ("index", .ofNat offset)].foldlM
      (fun f (m : String × Json) => HeadFields.read f m.1 m.2.written) ⟨none, none⟩ =
      .ok ⟨some 8, some offset.val⟩ := by
    simp [HeadFields.read, once, hwidth, hindex]
    rfl
  rw [head, foldFields_record, hfields]
  exact dif_pos offset.isLt

theorem flags_written (offset : Fin 8) {s : StateSet} (h : s.size ≤ largestWord) :
    flags (flagsJson offset s).written = .ok (s, offset) := by
  have horder := string_written bitOrder
  have hhead := head_written offset
  have hbits : word (Json.ofNat s.size).written = .ok s.size := natural_written h
  have hdata : listOf byte (Json.array ((pack offset s).map .ofNat)).written =
      .ok (pack offset s) := listOf_written fun _ hbyte => natural_written (le_of_mem_pack hbyte)
  have hlength : offset + s.size ≤ 8 * (pack offset s).length := by
    rw [length_pack]
    omega
  have hfields : [("order", .ofText bitOrder),
      ("head", .record [("width", .ofNat 8), ("index", .ofNat offset)]),
      ("bits", .ofNat s.size), ("data", .array ((pack offset s).map .ofNat))].foldlM
      (fun f (m : String × Json) => FlagFields.read f m.1 m.2.written) ⟨none, none, none, none⟩ =
      .ok ⟨some bitOrder, some offset, some s.size, some (pack offset s)⟩ := by
    simp [FlagFields.read, once, horder, hhead, hbits, hdata]
    rfl
  rw [flags, flagsJson, foldFields_record, hfields]
  refine (if_pos ⟨rfl, hlength⟩).trans ?_
  rw [unpack_pack]

/-! ## Documents -/

/-- A document whose states are counted by a machine word. -/
def Counted (d : Document) : Prop := d.automaton.size ≤ largestWord

variable {d : Document} {letters : List Char}

theorem fits_of_wellFormed (h : d.automaton.WellFormed) (hcount : d.Counted) {i : Nat} {s : State}
    (hs : d.automaton.states[i]? = some s) :
    s.id ≤ largestWord ∧ Fits s.transitions := by
  obtain ⟨hi, -⟩ := Array.getElem?_eq_some_iff.mp hs
  have hsize : d.automaton.size ≤ largestWord := hcount
  constructor
  · rw [h.id_eq i s hs]
    exact Nat.le_trans (Nat.le_of_lt hi) hsize
  · intro e he target htarget
    have hmem : (e.1, target) ∈ s.transitions.toList :=
      List.mem_flatMap.mpr ⟨e, he, List.mem_map_of_mem (by simpa using htarget)⟩
    have hleads : target ∈ d.automaton.targets i e.1 := by
      rw [Automaton.targets, hs]
      exact Transitions.mem_toList.mp hmem
    exact Nat.le_trans (Nat.le_of_lt (h.target_lt i e.1 target hleads)) hsize

theorem ofJson_jsonListing (h : d.automaton.WellFormed) (hcount : d.Counted)
    (hletters : letters.Perm d.automaton.alphabet.toList) :
    ofJson (d.jsonListing letters).written = .ok d := by
  have hstates : listOf state (Json.array (d.automaton.states.toList.map stateJson)).written =
      .ok d.automaton.states.toList := by
    refine listOf_written ?_
    intro s hs
    obtain ⟨i, hi⟩ := List.mem_iff_getElem?.mp hs
    rw [Array.getElem?_toList] at hi
    obtain ⟨hid, hfits⟩ := fits_of_wellFormed h hcount hi
    exact state_written hid hfits
  have hstart : word (Json.ofNat d.automaton.start).written = .ok d.automaton.start :=
    natural_written (Nat.le_trans (Nat.le_of_lt h.start_lt) hcount)
  have hflags := flags_written d.offset (Nat.le_trans (Nat.le_of_eq h.size_accepting) hcount)
  have hlist : listOf letter (lettersJson letters).written = .ok letters :=
    listOf_written fun c _ => letter_written c
  have hregex := string_written d.automaton.regex
  have halphabet : Alphabet.ofList letters = d.automaton.alphabet :=
    Alphabet.ext fun c => by rw [Alphabet.mem_ofList, hletters.mem_iff, Alphabet.mem_toList]
  have hfields : [("states", .array (d.automaton.states.toList.map stateJson)),
      ("start_state", .ofNat d.automaton.start),
      ("accept_states", flagsJson d.offset d.automaton.accepting),
      ("alphabet", lettersJson letters), ("regex", .ofText d.automaton.regex)].foldlM
      (fun f (m : String × Json) => Fields.read f m.1 m.2.written) ⟨none, none, none, none, none⟩ =
      .ok ⟨some d.automaton.states.toList, some d.automaton.start,
        some (d.automaton.accepting, d.offset), some letters, some d.automaton.regex⟩ := by
    simp [Fields.read, once, hstates, hstart, hflags, hlist, hregex]
    rfl
  rw [ofJson, jsonListing, foldFields_record, hfields]
  show Except.ok _ = _
  rw [halphabet]

/-! ## Whole texts -/

theorem plain_labelJson (l : Label) : (labelJson l).Plain := by
  cases l with
  | epsilon => exact .text _
  | char c => exact .record (by simpa using Json.Plain.text _)

theorem plain_numbers (ns : List Nat) : (Json.array (ns.map .ofNat)).Plain :=
  .array (List.forall_mem_map.mpr fun n _ => .number n)

theorem plain_stateJson (s : State) : (stateJson s).Plain := by
  have htransitions : (transitionsJson s.transitions).Plain := by
    refine .array (List.forall_mem_map.mpr fun e _ => .array ?_)
    simpa using ⟨plain_labelJson e.1, plain_numbers e.2.toList⟩
  exact .record (by simpa using ⟨.number _, htransitions⟩)

theorem plain_jsonListing (d : Document) (letters : List Char) : (d.jsonListing letters).Plain := by
  have hstates : (Json.array (d.automaton.states.toList.map stateJson)).Plain :=
    .array (List.forall_mem_map.mpr fun s _ => plain_stateJson s)
  have hhead : (Json.record [("width", .ofNat 8), ("index", .ofNat d.offset)]).Plain :=
    .record (by simpa using ⟨Json.Plain.number _, Json.Plain.number _⟩)
  have hflags : (flagsJson d.offset d.automaton.accepting).Plain :=
    .record (by simpa using ⟨.text _, hhead, .number _, plain_numbers _⟩)
  have hletters : (lettersJson letters).Plain :=
    .array (List.forall_mem_map.mpr fun c _ => .text _)
  exact .record (by simpa using ⟨hstates, .number _, hflags, hletters, .text _⟩)

theorem ofText_textListing (h : d.automaton.WellFormed) (hcount : d.Counted)
    (hletters : letters.Perm d.automaton.alphabet.toList) :
    ofText ((d.textListing letters).toList.map some) = .ok d := by
  rw [ofText, textListing, Json.read_print (plain_jsonListing d letters)]
  exact ofJson_jsonListing h hcount hletters

/-- What is well formed is loaded as it is. -/
theorem loadText_of_wellFormed (h : d.automaton.WellFormed) {text : List (Option Char)}
    (htext : ofText text = .ok d) (file : String) : loadText file text = (.ok d, []) := by
  have hdefect : d.automaton.defect? = none := by
    refine Automaton.defect?_eq_none_iff.mpr ⟨h.start_lt, h.size_accepting, fun i s hs => ?_⟩
    refine ⟨h.id_eq i s hs, fun label target htarget => h.target_lt i label target ?_⟩
    rw [Automaton.targets, hs]
    exact htarget
  have hrebuild : d.rebuild = (d, []) := if_pos h.alphabet_eq.symm
  simp only [loadText, htext, hdefect, hrebuild]

/-! ## What a machine holds -/

theorem foldlM_keeps {σ α : Type} {P : σ → Prop} {step : σ → α → Parsed σ}
    (hstep : ∀ s a s', P s → step s a = .ok s' → P s') {as : List α} {start s : σ}
    (hstart : P start) (h : as.foldlM step start = .ok s) : P s := by
  induction as generalizing start with
  | nil =>
      obtain rfl := Except.ok.inj h
      exact hstart
  | cons a as ih =>
      rw [List.foldlM_cons] at h
      obtain ⟨s₁, hfirst, h⟩ := bind_eq_ok h
      exact ih (hstep start a s₁ hstart hfirst) h

/-- Reading a record keeps what reading one field keeps. -/
theorem foldFields_keeps {σ : Type} {P : σ → Prop} {names : List String}
    {field : σ → String → Json → Parsed σ} {start s : σ} {j : Json}
    (hfield : ∀ s name value s', P s → field s name value = .ok s' → P s') (hstart : P start)
    (h : foldFields names field start j = .ok s) : P s := by
  cases j with
  | object members =>
      refine foldlM_keeps (fun s m s' hs hm => ?_) hstart h
      split at hm
      · exact hfield s _ _ s' hs hm
      · cases hm
  | array items =>
      obtain ⟨s₁, hitems, h⟩ := bind_eq_ok h
      split at h
      · obtain rfl := Except.ok.inj h
        exact foldlM_keeps (fun s m s' hs hm => hfield s _ _ s' hs hm) hstart hitems
      · cases h
  | null | bool | number | string | broken => cases h

theorem le_of_natural {limit n : Nat} {j : Json} (h : natural limit j = .ok n) : n ≤ limit := by
  unfold natural at h
  split at h
  · split at h
    · next hle => exact Except.ok.inj h ▸ hle
    · cases h
  · cases h

/-- What is read into a field is the value of the field. -/
theorem once_bind_eq_ok {α σ : Type} {before : Option α} {value : Parsed α} {put : Option α → σ}
    {s : σ} (h : (do return put (← once before value)) = (.ok s : Parsed σ)) :
    ∃ a, value = .ok a ∧ s = put (some a) := by
  cases before with
  | some _ => cases h
  | none =>
      cases value with
      | error e => cases h
      | ok a => exact ⟨a, rfl, (Except.ok.inj h).symm⟩

theorem FlagFields.bits_le {f f' : FlagFields} {name : String} {value : Json}
    (h : ∀ bits ∈ f.bits, bits ≤ largestWord) (hread : f.read name value = .ok f') :
    ∀ bits ∈ f'.bits, bits ≤ largestWord := by
  unfold FlagFields.read at hread
  split at hread
  · obtain ⟨a, -, rfl⟩ := once_bind_eq_ok hread
    exact h
  · split at hread
    · obtain ⟨a, -, rfl⟩ := once_bind_eq_ok hread
      exact h
    · split at hread
      · obtain ⟨a, ha, rfl⟩ := once_bind_eq_ok hread
        rintro bits ⟨⟩
        exact le_of_natural ha
      · split at hread
        · obtain ⟨a, -, rfl⟩ := once_bind_eq_ok hread
          exact h
        · cases hread

theorem size_le_of_flags {j : Json} {s : StateSet} {offset : Fin 8}
    (h : flags j = .ok (s, offset)) : s.size ≤ largestWord := by
  obtain ⟨f, hfields, h⟩ := bind_eq_ok h
  have hbits : ∀ bits ∈ f.bits, bits ≤ largestWord :=
    foldFields_keeps (fun f name value f' => FlagFields.bits_le) (by simp) hfields
  split at h
  · next order head bits data =>
      split at h
      · obtain ⟨rfl, -⟩ := Prod.mk.inj (Except.ok.inj h)
        simpa [unpack, StateSet.size] using hbits bits rfl
      · cases h
  · cases h

theorem Fields.size_le {f f' : Fields} {name : String} {value : Json}
    (h : ∀ a ∈ f.accepting, a.1.size ≤ largestWord) (hread : f.read name value = .ok f') :
    ∀ a ∈ f'.accepting, a.1.size ≤ largestWord := by
  unfold Fields.read at hread
  split at hread
  · obtain ⟨a, -, rfl⟩ := once_bind_eq_ok hread
    exact h
  · split at hread
    · obtain ⟨a, -, rfl⟩ := once_bind_eq_ok hread
      exact h
    · split at hread
      · obtain ⟨a, ha, rfl⟩ := once_bind_eq_ok hread
        rintro a ⟨⟩
        exact size_le_of_flags ha
      · split at hread
        · obtain ⟨a, -, rfl⟩ := once_bind_eq_ok hread
          exact h
        · split at hread
          · obtain ⟨a, -, rfl⟩ := once_bind_eq_ok hread
            exact h
          · unfold ignore at hread
            split at hread
            · obtain rfl := Except.ok.inj hread
              exact h
            · cases hread

/-- The documents that a machine can hold: those that are loaded, and
those that are built from no more states than a machine word counts. -/
inductive Held : Document → Prop where
  | built {d : Document} : d.Provided → d.Counted → Held d
  | loaded {file : String} {text : List (Option Char)} {d : Document} :
      (loadText file text).1 = .ok d → Held d

theorem Held.wellFormed (h : d.Held) : d.automaton.WellFormed := by
  cases h with
  | built hprovided _ => exact hprovided.wellFormed
  | loaded hload => exact (Provided.loaded hload).wellFormed

end Document

end Thompson
