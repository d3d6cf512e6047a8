import Thompson.Drawing.Dot
import Thompson.Proofs.DraftText
import Thompson.Proofs.Drafts
import Thompson.Proofs.Provided

/-!
# Which texts are loaded

A text that spells a draft gets the verdict of the draft
(`Document.Draft.Verdict`): the first label that a state lists twice, or
else the first defect, or else the automaton that the draft makes
(`Document.loadText_decides`). Defects are looked for in the order of
the labels and not in that of the file, which is why a missing target is
described without an order (`Document.FirstMissing`). The alphabet of the
file decides nothing but whether it is reported, so two texts that spell
one automaton are loaded as one automaton (`Document.loadText_canonical`).
-/

namespace Thompson

/-- The result for the first element that has one, and none in front of
it does. -/
theorem findSome?_zipIdx_eq_some_iff {α β : Type} {f : Nat → α → Option β} {as : List α} {b : β} :
    (as.zipIdx.findSome? fun (a, i) => f i a) = some b ↔
      ∃ i a, as[i]? = some a ∧ f i a = some b ∧
        ∀ j < i, ∀ a', as[j]? = some a' → f j a' = none := by
  have hget : ∀ (i : Nat) (p : α × Nat), as.zipIdx[i]? = some p ↔ as[i]? = some p.1 ∧ p.2 = i := by
    rintro i ⟨a, k⟩
    rw [List.getElem?_zipIdx, Option.map_eq_some_iff]
    constructor
    · rintro ⟨_, ha, heq⟩
      obtain ⟨rfl, rfl⟩ := Prod.mk.inj heq
      exact ⟨ha, Nat.zero_add i⟩
    · rintro ⟨ha, rfl⟩
      exact ⟨a, ha, by simp⟩
  rw [List.findSome?_eq_some_iff]
  constructor
  · rintro ⟨front, ⟨a, i⟩, back, hsplit, ha, hfront⟩
    have hplace : as.zipIdx[front.length]? = some (a, i) := by simp [hsplit]
    obtain ⟨hi, rfl⟩ := (hget _ _).mp hplace
    refine ⟨_, a, hi, ha, ?_⟩
    intro j hj a' ha'
    have hbefore : as.zipIdx[j]? = some (a', j) := (hget _ _).mpr ⟨ha', rfl⟩
    rw [hsplit, List.getElem?_append_left hj] at hbefore
    exact hfront _ (List.mem_of_getElem? hbefore)
  · rintro ⟨i, a, hi, ha, hbefore⟩
    obtain ⟨front, back, hsplit, rfl⟩ := exists_append_of_getElem? ((hget i (a, i)).mpr ⟨hi, rfl⟩)
    refine ⟨front, (a, front.length), back, hsplit, ha, ?_⟩
    rintro ⟨a', j⟩ hmem
    obtain ⟨k, hk⟩ := List.mem_iff_getElem?.mp hmem
    obtain ⟨hlt, -⟩ := List.getElem?_eq_some_iff.mp hk
    have hplace : as.zipIdx[k]? = some (a', j) := by rw [hsplit, List.getElem?_append_left hlt, hk]
    obtain ⟨hk, rfl⟩ := (hget _ _).mp hplace
    exact hbefore _ hlt a' hk

/-- The entries in front of one are those of lower labels. -/
theorem Transitions.mem_front_iff {t : Transitions} {front back : List (Label × Array Nat)}
    {e : Label × Array Nat} (h : t.entries = front ++ e :: back) {e' : Label × Array Nat} :
    e' ∈ front ↔ e' ∈ t.entries ∧ e'.1 < e.1 := by
  have hascending := t.ascending
  rw [h] at hascending
  obtain ⟨-, hback, hfront⟩ := List.pairwise_append.mp hascending
  constructor
  · intro he'
    exact ⟨h ▸ List.mem_append_left _ he', hfront e' he' e List.mem_cons_self⟩
  · rintro ⟨he', hlt⟩
    have hlt := Label.lt_iff.mp hlt
    rw [h, List.mem_append, List.mem_cons] at he'
    rcases he' with he' | rfl | he'
    · exact he'
    · exact absurd hlt (Nat.lt_irrefl _)
    · have := Label.lt_iff.mp ((List.pairwise_cons.mp hback).1 e' he')
      omega

namespace Document

/-! ## Targets -/

/-- The first transition that leads out of so many states: labels are
taken in order, and the targets of a label as they are listed. -/
def FirstMissing (size : Nat) (entries : List (Label × Array Nat)) (label : Label)
    (target : Nat) : Prop :=
  ∃ targets front back, (label, targets) ∈ entries ∧ targets.toList = front ++ target :: back ∧
    size ≤ target ∧ (∀ before ∈ front, before < size) ∧
    ∀ e ∈ entries, e.1 < label → ∀ before ∈ e.2, before < size

theorem find?_toList_eq_some_iff {t : Transitions} {size : Nat} {label : Label} {target : Nat} :
    (t.toList.find? fun (_, target) => size ≤ target) = some (label, target) ↔
      FirstMissing size t.entries label target := by
  have hfind : ∀ e : Label × Array Nat,
      ((e.2.toList.map fun target => (e.1, target)).find? fun (_, target) => size ≤ target) =
        (e.2.toList.find? fun target => size ≤ target).map fun target => (e.1, target) := by
    intro e
    rw [List.find?_map]
    rfl
  simp only [Transitions.toList, List.find?_flatMap, hfind, List.findSome?_eq_some_iff,
    Option.map_eq_some_iff, Option.map_eq_none_iff]
  constructor
  · rintro ⟨lower, ⟨l, targets⟩, higher, hsplit, ⟨found, hfound, heq⟩, hlower⟩
    obtain ⟨rfl, rfl⟩ := Prod.mk.inj heq
    obtain ⟨hmissing, front, back, htargets, hfront⟩ := List.find?_eq_some_iff_append.mp hfound
    refine ⟨targets, front, back, by simp [hsplit], htargets, by simpa using hmissing,
      by simpa using hfront, ?_⟩
    intro e he hlt
    have hnone := hlower e ((Transitions.mem_front_iff hsplit).mpr ⟨he, hlt⟩)
    simpa using hnone
  · rintro ⟨targets, front, back, hmem, htargets, hmissing, hfront, hlower⟩
    obtain ⟨lower, higher, hsplit⟩ := List.append_of_mem hmem
    refine ⟨lower, (label, targets), higher, hsplit, ⟨target, ?_, rfl⟩, ?_⟩
    · refine List.find?_eq_some_iff_append.mpr ⟨by simpa using hmissing, front, back, htargets, ?_⟩
      simpa using hfront
    · intro e he
      obtain ⟨hmem, hlt⟩ := (Transitions.mem_front_iff hsplit).mp he
      simpa using hlower e hmem hlt

theorem firstMissing_congr {size : Nat} {entries entries' : List (Label × Array Nat)}
    {label : Label} {target : Nat} (h : entries.Perm entries') :
    FirstMissing size entries label target ↔ FirstMissing size entries' label target := by
  simp only [FirstMissing, h.mem_iff]

/-! ## Defects -/

/-- A state has the number of its place and leads to states only. -/
def DraftState.SoundAt (s : DraftState) (size place : Nat) : Prop :=
  s.id = place ∧ ∀ e ∈ s.entries, ∀ target ∈ e.2, target < size

instance (s : DraftState) (size place : Nat) : Decidable (s.SoundAt size place) :=
  inferInstanceAs (Decidable (_ ∧ _))

section State

variable {s : DraftState} {state : State} {size place : Nat}

theorem DraftState.Makes.stateDefect?_eq_none_iff (h : s.Makes state) :
    Automaton.stateDefect? size place state = none ↔ s.SoundAt size place := by
  rw [Automaton.stateDefect?_eq_none_iff, SoundAt, h.id_eq]
  refine and_congr_right fun _ => ?_
  simp only [← Transitions.mem_toList, Transitions.toList, List.mem_flatMap, List.mem_map]
  constructor
  · intro hall e he target htarget
    refine hall e.1 target ⟨e, h.entries_perm.mem_iff.mpr he, target, by simpa using htarget, rfl⟩
  · rintro hall label target ⟨e, he, _, htarget, heq⟩
    obtain ⟨-, rfl⟩ := Prod.mk.inj heq
    exact hall e (h.entries_perm.mem_iff.mp he) _ (by simpa using htarget)

theorem DraftState.Makes.stateDefect?_eq_some_iff (h : s.Makes state) {defect : Defect} :
    Automaton.stateDefect? size place state = some defect ↔
      (s.id ≠ place ∧ defect = .misplacedState s.id place) ∨
      (s.id = place ∧ ∃ label target, FirstMissing size s.entries label target ∧
        defect = .missingTarget place label target) := by
  unfold Automaton.stateDefect?
  rw [h.id_eq]
  by_cases hid : s.id = place
  · rw [if_neg (not_not_intro hid), Option.map_eq_some_iff]
    simp only [Prod.exists, find?_toList_eq_some_iff, firstMissing_congr h.entries_perm]
    simp [hid, eq_comm]
  · simp [hid, eq_comm]

/-- The first defect of the states is that of a state behind sound ones
only. -/
theorem findSome?_stateDefect?_eq_some_iff {states : List DraftState} {made : List State}
    (h : List.Forall₂ DraftState.Makes states made) {defect : Defect} :
    (made.zipIdx.findSome? fun (state, place) => Automaton.stateDefect? size place state) =
        some defect ↔
      ∃ i s, states[i]? = some s ∧
        ((s.id ≠ i ∧ defect = .misplacedState s.id i) ∨
          (s.id = i ∧ ∃ label target, FirstMissing size s.entries label target ∧
            defect = .missingTarget i label target)) ∧
        ∀ j < i, ∀ s, states[j]? = some s → s.SoundAt size j := by
  rw [findSome?_zipIdx_eq_some_iff]
  constructor
  · rintro ⟨i, state, hstate, hdefect, hbefore⟩
    obtain ⟨s, hs, hmakes⟩ := getElem?_of_forall₂ h.flip hstate
    refine ⟨i, s, hs, hmakes.stateDefect?_eq_some_iff.mp hdefect, ?_⟩
    intro j hj s' hs'
    obtain ⟨state', hstate', hmakes'⟩ := getElem?_of_forall₂ h hs'
    exact hmakes'.stateDefect?_eq_none_iff.mp (hbefore j hj state' hstate')
  · rintro ⟨i, s, hs, hdefect, hbefore⟩
    obtain ⟨state, hstate, hmakes⟩ := getElem?_of_forall₂ h hs
    refine ⟨i, state, hstate, hmakes.stateDefect?_eq_some_iff.mpr hdefect, ?_⟩
    intro j hj state' hstate'
    obtain ⟨s', hs', hmakes'⟩ := getElem?_of_forall₂ h.flip hstate'
    exact hmakes'.stateDefect?_eq_none_iff.mpr (hbefore j hj s' hs')

end State

namespace Draft

/-- The start state exists, there is a flag for each state, and the
first states are sound. -/
structure SoundBelow (d : Draft) (place : Nat) : Prop where
  start_lt : d.start < d.states.length
  count_eq : d.flags.count = d.states.length
  states : ∀ i < place, ∀ s, d.states[i]? = some s → s.SoundAt d.states.length i

/-- A draft without defects. -/
def Sound (d : Draft) : Prop := d.SoundBelow d.states.length

theorem sound_iff {d : Draft} :
    d.Sound ↔ d.start < d.states.length ∧ d.flags.count = d.states.length ∧
      ∀ p ∈ d.states.zipIdx, p.1.SoundAt d.states.length p.2 := by
  constructor
  · intro h
    refine ⟨h.start_lt, h.count_eq, ?_⟩
    rintro ⟨s, i⟩ hmem
    have hs : d.states[i]? = some s := List.mem_zipIdx_iff_getElem?.mp hmem
    obtain ⟨hi, -⟩ := List.getElem?_eq_some_iff.mp hs
    exact h.states i hi s hs
  · rintro ⟨hstart, hcount, hstates⟩
    refine ⟨hstart, hcount, fun i _ s hs => ?_⟩
    exact hstates (s, i) (List.mem_zipIdx_iff_getElem?.mpr hs)

instance (d : Draft) : Decidable d.Sound := decidable_of_iff _ sound_iff.symm

/-- The first defect of a draft. -/
inductive FirstDefect (d : Draft) : Defect → Prop where
  | start : d.states.length ≤ d.start → FirstDefect d (.missingStart d.start d.states.length)
  | flags : d.start < d.states.length → d.flags.count ≠ d.states.length →
      FirstDefect d (.flagCount d.flags.count d.states.length)
  | place {i : Nat} {s : DraftState} : d.SoundBelow i → d.states[i]? = some s → s.id ≠ i →
      FirstDefect d (.misplacedState s.id i)
  | target {i : Nat} {s : DraftState} {label : Label} {target : Nat} :
      d.SoundBelow i → d.states[i]? = some s → s.id = i →
      FirstMissing d.states.length s.entries label target →
      FirstDefect d (.missingTarget i label target)

variable {d : Draft} {doc : Document}

/-- The checks on what a draft builds, in terms of the draft. -/
theorem defect?_eq (h : d.build = .ok doc) :
    ∃ states, List.Forall₂ DraftState.Makes d.states states ∧
      doc.automaton.defect? =
        if d.states.length ≤ d.start then some (.missingStart d.start d.states.length)
        else if d.flags.count ≠ d.states.length then
          some (.flagCount d.flags.count d.states.length)
        else states.zipIdx.findSome? fun (state, place) =>
          Automaton.stateDefect? d.states.length place state := by
  obtain ⟨-, states, hstates, rfl⟩ := of_build_eq_ok h
  refine ⟨states, hstates, ?_⟩
  simp [Automaton.defect?, Automaton.size, StateSet.size, SavedFlags.sequence, hstates.length_eq]

theorem defect?_eq_some_iff (h : d.build = .ok doc) {defect : Defect} :
    doc.automaton.defect? = some defect ↔ d.FirstDefect defect := by
  obtain ⟨states, hstates, hdefect⟩ := defect?_eq h
  rw [hdefect]
  constructor
  · intro hfirst
    split at hfirst
    · next hstart =>
      obtain rfl := Option.some.inj hfirst
      exact .start hstart
    · next hstart =>
      have hstart := Nat.not_le.mp hstart
      split at hfirst
      · next hcount =>
        obtain rfl := Option.some.inj hfirst
        exact .flags hstart hcount
      · next hcount =>
        have hcount := not_not.mp hcount
        obtain ⟨i, s, hs, ⟨hid, rfl⟩ | ⟨hid, label, target, hmissing, rfl⟩, hbefore⟩ :=
          (findSome?_stateDefect?_eq_some_iff hstates).mp hfirst
        · exact .place ⟨hstart, hcount, hbefore⟩ hs hid
        · exact .target ⟨hstart, hcount, hbefore⟩ hs hid hmissing
  · intro hfirst
    cases hfirst with
    | start hstart => exact if_pos hstart
    | flags hstart hcount => rw [if_neg (Nat.not_le.mpr hstart), if_pos hcount]
    | place hsound hs hid =>
        -- the start state and the number of flags pass
        rw [if_neg (Nat.not_le.mpr hsound.start_lt), if_neg (not_not.mpr hsound.count_eq)]
        exact (findSome?_stateDefect?_eq_some_iff hstates).mpr
          ⟨_, _, hs, .inl ⟨hid, rfl⟩, hsound.states⟩
    | target hsound hs hid hmissing =>
        rw [if_neg (Nat.not_le.mpr hsound.start_lt), if_neg (not_not.mpr hsound.count_eq)]
        exact (findSome?_stateDefect?_eq_some_iff hstates).mpr
          ⟨_, _, hs, .inr ⟨hid, _, _, hmissing, rfl⟩, hsound.states⟩

theorem Sound.not_firstDefect (h : d.Sound) {defect : Defect} : ¬ d.FirstDefect defect := by
  intro hfirst
  cases hfirst with
  | start hstart => exact absurd h.start_lt (Nat.not_lt.mpr hstart)
  | flags _ hcount => exact hcount h.count_eq
  | place _ hs hid =>
      obtain ⟨hi, -⟩ := List.getElem?_eq_some_iff.mp hs
      exact hid (h.states _ hi _ hs).1
  | target _ hs _ hmissing =>
      obtain ⟨hi, -⟩ := List.getElem?_eq_some_iff.mp hs
      obtain ⟨targets, front, back, hmem, htargets, hle, -, -⟩ := hmissing
      have htarget : _ ∈ targets := Array.mem_toList_iff.mp
        (htargets ▸ List.mem_append_right front List.mem_cons_self)
      exact absurd ((h.states _ hi _ hs).2 _ hmem _ htarget) (Nat.not_lt.mpr hle)

theorem defect?_eq_none_iff (h : d.build = .ok doc) : doc.automaton.defect? = none ↔ d.Sound := by
  constructor
  · intro hnone
    obtain ⟨states, hstates, hdefect⟩ := defect?_eq h
    rw [hdefect] at hnone
    split at hnone
    · cases hnone
    · next hstart =>
      split at hnone
      · cases hnone
      · next hcount =>
        refine ⟨Nat.not_le.mp hstart, not_not.mp hcount, fun i _ s hs => ?_⟩
        obtain ⟨state, hstate, hmakes⟩ := getElem?_of_forall₂ hstates hs
        refine hmakes.stateDefect?_eq_none_iff.mp ?_
        have hmem : (state, i) ∈ states.zipIdx := List.mem_zipIdx_iff_getElem?.mpr hstate
        exact List.findSome?_eq_none_iff.mp hnone (state, i) hmem
  · intro hsound
    cases hdefect : doc.automaton.defect? with
    | none => rfl
    | some defect => exact absurd ((defect?_eq_some_iff h).mp hdefect) hsound.not_firstDefect

/-! ## Verdicts -/

/-- What becomes of a draft: labels that are listed twice are reported
before any other defect. -/
inductive Verdict (d : Draft) : Parsed Document → Prop where
  | duplicate {l : Label} : d.FirstDuplicate l → Verdict d (.error (.duplicate l))
  | malformed {defect : Defect} :
      d.Distinct → d.FirstDefect defect → Verdict d (.error (.malformed defect))
  | loaded {doc : Document} :
      d.Distinct → d.Sound → d.Makes doc.automaton → doc.offset = d.flags.offset →
      Verdict d (.ok doc)

theorem mem_usedAlphabet_iff (h : d.build = .ok doc) {c : Char} :
    c ∈ doc.automaton.usedAlphabet ↔ d.Uses c := by
  obtain ⟨-, states, hstates, rfl⟩ := of_build_eq_ok h
  rw [Automaton.mem_usedAlphabet]
  constructor
  · rintro ⟨state, hstate, hlabel⟩
    obtain ⟨s, hs, hmakes⟩ := exists_of_forall₂ hstates.flip hstate
    exact ⟨s, hs, hmakes.mem_labels.mp hlabel⟩
  · rintro ⟨s, hs, hlabel⟩
    obtain ⟨state, hstate, hmakes⟩ := exists_of_forall₂ hstates hs
    exact ⟨state, hstate, hmakes.mem_labels.mpr hlabel⟩

theorem usedAlphabet_eq_iff (h : d.build = .ok doc) :
    doc.automaton.usedAlphabet = doc.automaton.alphabet ↔ ∀ c, c ∈ d.alphabet ↔ d.Uses c := by
  have hlisted : doc.automaton.alphabet = .ofList d.alphabet := by
    obtain ⟨-, states, -, rfl⟩ := of_build_eq_ok h
    rfl
  rw [hlisted]
  constructor
  · intro hused c
    rw [← mem_usedAlphabet_iff h, hused, Alphabet.mem_ofList]
  · intro hused
    exact Alphabet.ext fun c => by rw [Alphabet.mem_ofList, hused, mem_usedAlphabet_iff h]

/-- What a draft builds is what it makes, once the alphabet is derived. -/
theorem makes_rebuild (h : d.build = .ok doc) :
    d.Makes doc.rebuild.1.automaton ∧ doc.rebuild.1.offset = d.flags.offset := by
  have halphabet : ∀ c, c ∈ doc.automaton.usedAlphabet ↔ d.Uses c :=
    fun c => mem_usedAlphabet_iff h
  rw [rebuild_eq]
  obtain ⟨-, states, hstates, rfl⟩ := of_build_eq_ok h
  exact ⟨⟨hstates, rfl, rfl, halphabet, rfl⟩, rfl⟩

/-- The listed alphabet is reported unless it is the one in use. -/
theorem log_rebuild (h : d.build = .ok doc) :
    ((∀ c, c ∈ d.alphabet ↔ d.Uses c) → doc.rebuild.2 = []) ∧
      (¬ (∀ c, c ∈ d.alphabet ↔ d.Uses c) →
        doc.rebuild.2 =
          [.alphabetReplaced (.ofList d.alphabet) doc.rebuild.1.automaton.alphabet]) := by
  rw [← usedAlphabet_eq_iff h]
  obtain ⟨-, states, -, hdoc⟩ := of_build_eq_ok h
  unfold rebuild
  constructor
  · intro hused
    rw [if_pos hused]
  · intro hused
    rw [if_neg hused, hdoc]

end Draft

section Load

variable {text : List (Option Char)} {doc : Document}

theorem loadText_of_error {e : LoadError} (h : ofText text = .error e) (file : String) :
    loadText file text = refuse file e := by
  rw [loadText, h]

theorem loadText_of_defect {defect : Defect} (h : ofText text = .ok doc)
    (hdefect : doc.automaton.defect? = some defect) (file : String) :
    loadText file text = refuse file (.malformed defect) := by
  rw [loadText, h]
  simp only [hdefect]

theorem loadText_of_sound (h : ofText text = .ok doc) (hdefect : doc.automaton.defect? = none)
    (file : String) : loadText file text = (.ok doc.rebuild.1, doc.rebuild.2) := by
  rw [loadText, h]
  simp only [hdefect]

variable {d : Draft}

theorem verdict_loadText (h : SpellsText text d) (file : String) :
    d.Verdict (loadText file text).1 := by
  by_cases hdistinct : d.Distinct
  · obtain ⟨doc, hbuild⟩ := Draft.exists_build hdistinct
    have htext := (ofText_eq_build h).trans hbuild
    cases hdefect : doc.automaton.defect? with
    | some defect =>
        rw [loadText_of_defect htext hdefect]
        exact .malformed hdistinct ((Draft.defect?_eq_some_iff hbuild).mp hdefect)
    | none =>
        rw [loadText_of_sound htext hdefect]
        obtain ⟨hmakes, hoffset⟩ := Draft.makes_rebuild hbuild
        exact .loaded hdistinct ((Draft.defect?_eq_none_iff hbuild).mp hdefect) hmakes hoffset
  · obtain ⟨l, hl⟩ := Draft.exists_firstDuplicate hdistinct
    rw [loadText_of_error ((ofText_eq_build h).trans (Draft.build_of_firstDuplicate hl))]
    exact .duplicate hl

theorem loadText_of_verdict (h : SpellsText text d) {verdict : Parsed Document}
    (hverdict : d.Verdict verdict) (file : String) : (loadText file text).1 = verdict := by
  cases hverdict with
  | duplicate hl =>
      rw [loadText_of_error ((ofText_eq_build h).trans (Draft.build_of_firstDuplicate hl))]
      rfl
  | malformed hdistinct hfirst =>
      obtain ⟨doc, hbuild⟩ := Draft.exists_build hdistinct
      rw [loadText_of_defect ((ofText_eq_build h).trans hbuild)
        ((Draft.defect?_eq_some_iff hbuild).mpr hfirst)]
      rfl
  | @loaded doc hdistinct hsound hmakes hoffset =>
      obtain ⟨built, hbuild⟩ := Draft.exists_build hdistinct
      rw [loadText_of_sound ((ofText_eq_build h).trans hbuild)
        ((Draft.defect?_eq_none_iff hbuild).mpr hsound)]
      obtain ⟨hmakes', hoffset'⟩ := Draft.makes_rebuild hbuild
      have hautomaton := hmakes'.unique hmakes (.refl d)
      have hoffset := hoffset'.trans hoffset.symm
      show Except.ok built.rebuild.1 = _
      generalize built.rebuild.1 = made at hautomaton hoffset
      obtain ⟨_, _⟩ := made
      obtain ⟨_, _⟩ := doc
      congr

theorem exists_loadText (h : SpellsText text d) (hdistinct : d.Distinct) (hsound : d.Sound)
    (file : String) : ∃ doc log, loadText file text = (.ok doc, log) := by
  obtain ⟨doc, hbuild⟩ := Draft.exists_build hdistinct
  have hdefect := (Draft.defect?_eq_none_iff hbuild).mpr hsound
  exact ⟨_, _, loadText_of_sound ((ofText_eq_build h).trans hbuild) hdefect file⟩

theorem exists_spelled_of_loadText {file : String} (h : (loadText file text).1 = .ok doc) :
    ∃ d, SpellsText text d ∧ d.Distinct ∧ d.Sound := by
  obtain ⟨found, hfound, hdefect, -⟩ := loadText_eq_ok h
  obtain ⟨d, hspells, hbuild⟩ := exists_spelled_of_ofText hfound
  exact ⟨d, hspells, (Draft.of_build_eq_ok hbuild).1, (Draft.defect?_eq_none_iff hbuild).mp hdefect⟩

/-- What was loaded is what the draft builds, with the alphabet derived
anew. -/
theorem exists_build_of_loadText {file : String} {log : List Event} (h : SpellsText text d)
    (hload : loadText file text = (.ok doc, log)) :
    ∃ built, d.build = .ok built ∧ built.rebuild = (doc, log) := by
  cases hbuild : d.build with
  | error e =>
      rw [loadText_of_error ((ofText_eq_build h).trans hbuild)] at hload
      cases hload
  | ok built =>
      have htext := (ofText_eq_build h).trans hbuild
      cases hdefect : built.automaton.defect? with
      | some defect =>
          rw [loadText_of_defect htext hdefect] at hload
          cases hload
      | none =>
          rw [loadText_of_sound htext hdefect] at hload
          obtain ⟨hdoc, hlog⟩ := Prod.mk.inj hload
          exact ⟨built, rfl, Prod.ext (Except.ok.inj hdoc) hlog⟩

end Load

/-! ## Loading any text -/

/-- Exactly the texts that spell a draft with different labels in each
state and without defects are loaded, and any text that spells a draft
gets the verdict of that draft and no other. -/
theorem loadText_decides (file : String) (text : List (Option Char)) :
    ((∃ doc, (loadText file text).1 = .ok doc) ↔
        ∃ d, SpellsText text d ∧ d.Distinct ∧ d.Sound) ∧
      ∀ d, SpellsText text d → ∀ verdict, (loadText file text).1 = verdict ↔ d.Verdict verdict := by
  refine ⟨⟨?_, ?_⟩, ?_⟩
  · rintro ⟨doc, hload⟩
    exact exists_spelled_of_loadText hload
  · rintro ⟨d, hspells, hdistinct, hsound⟩
    obtain ⟨doc, log, hload⟩ := exists_loadText hspells hdistinct hsound file
    exact ⟨doc, congrArg Prod.fst hload⟩
  · intro d hspells verdict
    constructor
    · rintro rfl
      exact verdict_loadText hspells file
    · intro hverdict
      exact loadText_of_verdict hspells hverdict file

/-- Nothing in the first draft is consistent, but a label comes twice. In
the second one the missing target that comes first in the text is not
the one of the lowest label. -/
theorem loadText_decides_inconsistent :
    let twice : Draft := ⟨[⟨3, [(.epsilon, #[0]), (.char 'a', #[9]), (.epsilon, #[])]⟩], 7,
      ⟨0, 3, [1], by decide⟩, [], ""⟩
    let missing : Draft := ⟨[⟨0, [(.char 'b', #[5]), (.char 'a', #[1, 7, 9]), (.epsilon, #[0])]⟩,
      ⟨1, []⟩], 0, ⟨3, 2, [0], by decide⟩, ['c'], ""⟩
    SpellsText twice.text twice ∧
      (loadText "in.json" twice.text).1 = .error (.duplicate .epsilon) ∧
      SpellsText missing.text missing ∧
      (loadText "in.json" missing.text).1 =
        .error (.malformed (.missingTarget 0 (.char 'a') 7)) := by
  intro twice missing
  have htwice : SpellsText twice.text twice :=
    Draft.spellsText_text ⟨by decide, by decide, by decide, by decide⟩
  have hduplicate : twice.FirstDuplicate .epsilon :=
    ⟨[], _, [], rfl, by simp, [.epsilon, .char 'a'], [], rfl, by decide, by decide⟩
  have hmissing : SpellsText missing.text missing :=
    Draft.spellsText_text ⟨by decide, by decide, by decide, by decide⟩
  have hfirst : missing.FirstDefect (.missingTarget 0 (.char 'a') 7) := by
    refine .target ⟨by decide, by decide, by simp⟩ rfl rfl ⟨#[1, 7, 9], [1], [9], ?_⟩
    exact ⟨by simp, rfl, by decide, by decide, by decide⟩
  exact ⟨htwice, ((loadText_decides "in.json" twice.text).2 twice htwice _).mpr
      (.duplicate hduplicate),
    hmissing, ((loadText_decides "in.json" missing.text).2 missing hmissing _).mpr
      (.malformed (by decide) hfirst)⟩

/-- Two texts that spell one automaton are loaded as one automaton: the
order of the entries of a state, the place of the flags in their bytes,
the bits around them and the listed alphabet make no difference. It has
each entry of the text once and whole, and the alphabet of the text is
reported if its transitions use another one, and only then. -/
theorem loadText_canonical {file file' : String} {text text' : List (Option Char)} {d d' : Draft}
    {doc doc' : Document} {log log' : List Event} (h : SpellsText text d)
    (h' : SpellsText text' d') (hload : loadText file text = (.ok doc, log))
    (hload' : loadText file' text' = (.ok doc', log')) (hsame : d.Same d') :
    doc.automaton = doc'.automaton ∧
      ((∀ subject, doc.automaton.accepts subject = doc'.automaton.accepts subject) ∧
        (∀ s c, doc.automaton.step s c = doc'.automaton.step s c) ∧
        (∀ s, doc.automaton.epsilonClosure s = doc'.automaton.epsilonClosure s) ∧
        doc.automaton.dot = doc'.automaton.dot) ∧
      d.Makes doc.automaton ∧
      ((∀ c, c ∈ d.alphabet ↔ d.Uses c) → log = []) ∧
      (¬ (∀ c, c ∈ d.alphabet ↔ d.Uses c) →
        log = [.alphabetReplaced (.ofList d.alphabet) doc.automaton.alphabet]) := by
  obtain ⟨built, hbuild, hrebuild⟩ := exists_build_of_loadText h hload
  obtain ⟨built', hbuild', hrebuild'⟩ := exists_build_of_loadText h' hload'
  have hmakes := (Draft.makes_rebuild hbuild).1
  have hmakes' := (Draft.makes_rebuild hbuild').1
  have hlog := Draft.log_rebuild hbuild
  rw [hrebuild] at hmakes hlog
  rw [hrebuild'] at hmakes'
  have heq : doc.automaton = doc'.automaton := hmakes.unique hmakes' hsame
  exact ⟨heq, by simp [heq], hmakes, hlog⟩

/-- The second draft lists the entries the other way round, has its flags
in the middle of a byte with every other bit set, and lists a letter
that it does not use. -/
theorem loadText_canonical_reordered :
    let d : Draft := ⟨[⟨0, [(.epsilon, #[1, 1]), (.char 'a', #[1, 0])]⟩, ⟨1, []⟩], 0,
      ⟨0, 2, [2], by decide⟩, ['a'], "r"⟩
    let d' : Draft := ⟨[⟨0, [(.char 'a', #[1, 0]), (.epsilon, #[1, 1])]⟩, ⟨1, []⟩], 0,
      ⟨5, 2, [0xDF, 0xFF], by decide⟩, ['z', 'z'], "r"⟩
    SpellsText d.text d ∧ SpellsText d'.text d' ∧ d'.Same d ∧
      ∃ doc log doc' log', loadText "d.json" d.text = (.ok doc, log) ∧
        loadText "d'.json" d'.text = (.ok doc', log') ∧ doc'.automaton = doc.automaton ∧
        log' = [.alphabetReplaced (.ofList ['z', 'z']) doc'.automaton.alphabet] := by
  intro d d'
  have hspells : SpellsText d.text d :=
    Draft.spellsText_text ⟨by decide, by decide, by decide, by decide⟩
  have hspells' : SpellsText d'.text d' :=
    Draft.spellsText_text ⟨by decide, by decide, by decide, by decide⟩
  have hsame : d'.Same d := by
    refine ⟨.cons ⟨rfl, fun e => ?_⟩ (.cons ⟨rfl, fun e => Iff.rfl⟩ .nil), rfl, by decide, rfl⟩
    exact List.Perm.mem_iff (.swap ..)
  obtain ⟨doc, log, hload⟩ := exists_loadText hspells (by decide) (by decide) "d.json"
  obtain ⟨doc', log', hload'⟩ := exists_loadText hspells' (by decide) (by decide) "d'.json"
  obtain ⟨heq, -, -, -, hlog⟩ := loadText_canonical hspells' hspells hload' hload hsame
  have hunused : ¬ ∀ c, c ∈ d'.alphabet ↔ d'.Uses c := by
    intro hall
    obtain ⟨s, hs, hlabel⟩ := (hall 'z').mp (by decide)
    revert s
    decide
  exact ⟨hspells, hspells', hsame, doc, log, doc', log', hload, hload', heq, hlog hunused⟩

end Document

end Thompson
