import Mathlib.Data.List.Induction
import Mathlib.Data.List.Nodup
import Mathlib.Data.List.Perm.Basic
import Thompson.Proofs.Spelling

/-!
# What a draft makes

The entries of a state are listed one after the other, each at the place
of its label, and the first label that comes again ends that
(`collect_of_firstRepeat`). Otherwise every entry is listed once and
whole, in whatever order they come (`collect_of_nodup`), and since labels
ascend in a state, entries in another order make the same state
(`DraftState.Makes.unique`).
-/

namespace Thompson

/-! ## Repeats -/

/-- The element whose second occurrence is the first to come. -/
def FirstRepeat {α : Type} (as : List α) (a : α) : Prop :=
  ∃ front back, as = front ++ a :: back ∧ front.Nodup ∧ a ∈ front

theorem exists_firstRepeat {α : Type} {as : List α} (h : ¬ as.Nodup) : ∃ a, FirstRepeat as a := by
  induction as using List.reverseRecOn with
  | nil => exact absurd List.nodup_nil h
  | append_singleton as a ih =>
      by_cases hnodup : as.Nodup
      · have hmem : a ∈ as := by
          by_contra hnew
          exact h (List.concat_eq_append ▸ hnodup.concat hnew)
        exact ⟨a, as, [], rfl, hnodup, hmem⟩
      · obtain ⟨b, front, back, rfl, hfront, hmem⟩ := ih hnodup
        exact ⟨b, front, back ++ [a], by simp, hfront, hmem⟩

/-! ## Entries -/

namespace Transitions

theorem alter_perm {label : Label} {f : Array Nat → Array Nat}
    {entries : List (Label × Array Nat)} (h : label ∉ entries.map Prod.fst) :
    (alter label f entries).Perm ((label, f #[]) :: entries) := by
  fun_induction alter label f entries with
  | case1 => exact .refl _
  | case2 => exact .refl _
  | case3 => exact absurd List.mem_cons_self h
  | case4 l targets rest _ _ ih =>
      have hrest : label ∉ rest.map Prod.fst := fun hmem => h (List.mem_cons_of_mem _ hmem)
      exact ((ih hrest).cons _).trans (.swap ..)

theorem nodup_entries (t : Transitions) : t.entries.Nodup := by
  refine t.ascending.imp ?_
  rintro a b hlt rfl
  exact absurd (Label.lt_iff.mp hlt) (Nat.lt_irrefl _)

/-- Labels ascend, so the order of the entries says nothing. -/
theorem eq_of_mem_iff {t t' : Transitions} (h : ∀ e, e ∈ t.entries ↔ e ∈ t'.entries) : t = t' := by
  have hperm : t.entries.Perm t'.entries :=
    (List.perm_ext_iff_of_nodup t.nodup_entries t'.nodup_entries).mpr h
  have hentries : t.entries = t'.entries := by
    refine hperm.eq_of_pairwise (fun a b _ _ hab hba => ?_) t.ascending t'.ascending
    have h1 := Label.lt_iff.mp hab
    have h2 := Label.lt_iff.mp hba
    omega
  obtain ⟨entries, _⟩ := t
  obtain ⟨entries', _⟩ := t'
  obtain rfl : entries = entries' := hentries
  rfl

end Transitions

namespace Document

section Collect

variable {t : Transitions} {entry : Label × Array Nat} {entries : List (Label × Array Nat)}

theorem listEntry_of_new (h : entry.1 ∉ t.labels) :
    ∃ t', listEntry t entry = .ok t' ∧ t'.entries.Perm (entry :: t.entries) := by
  have hperm := Transitions.alter_perm (f := fun _ => entry.2) h
  refine ⟨⟨_, Transitions.alter_pairwise t.ascending⟩, ?_, hperm⟩
  rw [listEntry, Transitions.insertNew?, if_neg h]

theorem listEntry_of_listed (h : entry.1 ∈ t.labels) :
    listEntry t entry = .error (.duplicate entry.1) := by
  rw [listEntry, Transitions.insertNew?, if_pos h]

theorem foldlM_listEntry (h : (entries.map Prod.fst ++ t.labels).Nodup) :
    ∃ t', entries.foldlM listEntry t = .ok t' ∧ t'.entries.Perm (entries ++ t.entries) := by
  induction entries generalizing t with
  | nil => exact ⟨t, rfl, .refl _⟩
  | cons e entries ih =>
      obtain ⟨hnew, hrest⟩ := List.nodup_cons.mp h
      have hlabel : e.1 ∉ t.labels := fun hmem => hnew (List.mem_append_right _ hmem)
      obtain ⟨t₁, ht₁, hperm⟩ := listEntry_of_new hlabel
      -- the label is listed now instead of being still to come
      have hmoved : (e :: (entries ++ t.entries)).Perm (entries ++ t₁.entries) :=
        List.perm_middle.symm.trans (hperm.symm.append_left entries)
      have hlabels : (entries.map Prod.fst ++ t₁.labels).Nodup := by
        have := (hmoved.map Prod.fst).nodup_iff.mp (by simpa [Transitions.labels] using h)
        simpa [Transitions.labels] using this
      obtain ⟨t', ht', hperm'⟩ := ih hlabels
      rw [List.foldlM_cons, ht₁]
      exact ⟨t', ht', hperm'.trans hmoved.symm⟩

/-- Entries with different labels are all listed. -/
theorem collect_of_nodup (h : (entries.map Prod.fst).Nodup) :
    ∃ t, collect entries = .ok t ∧ t.entries.Perm entries := by
  have hlabels : (entries.map Prod.fst ++ Transitions.empty.labels).Nodup := by
    simpa [Transitions.labels, Transitions.empty] using h
  obtain ⟨t, ht, hperm⟩ := foldlM_listEntry hlabels
  exact ⟨t, ht, by simpa [Transitions.empty] using hperm⟩

/-- The first label that comes again is reported. -/
theorem collect_of_firstRepeat {l : Label} (h : FirstRepeat (entries.map Prod.fst) l) :
    collect entries = .error (.duplicate l) := by
  obtain ⟨front, back, hsplit, hnodup, hmem⟩ := h
  obtain ⟨listed, rest, rfl, rfl, hrest⟩ := List.map_eq_append_iff.mp hsplit
  obtain ⟨e, rest, rfl, rfl, -⟩ := List.map_eq_cons_iff.mp hrest
  obtain ⟨t, ht, hperm⟩ := collect_of_nodup hnodup
  have hlisted : e.1 ∈ t.labels := (hperm.map Prod.fst).mem_iff.mpr hmem
  rw [collect] at ht
  rw [collect, List.foldlM_append, ht]
  show List.foldlM listEntry t (e :: rest) = _
  rw [List.foldlM_cons, listEntry_of_listed hlisted]
  rfl

end Collect

/-! ## States -/

namespace DraftState

def labels (s : DraftState) : List Label := s.entries.map Prod.fst

/-- A state has the entries of a draft, each of them once and whole. -/
structure Makes (s : DraftState) (state : State) : Prop where
  id_eq : state.id = s.id
  entries_perm : state.transitions.entries.Perm s.entries

variable {s s' : DraftState} {state state' : State}

theorem build_of_nodup (h : s.labels.Nodup) : ∃ state, s.build = .ok state ∧ s.Makes state := by
  obtain ⟨t, ht, hperm⟩ := collect_of_nodup h
  refine ⟨⟨s.id, t⟩, ?_, rfl, hperm⟩
  rw [build, ht]
  rfl

theorem build_of_firstRepeat {l : Label} (h : FirstRepeat s.labels l) :
    s.build = .error (.duplicate l) := by
  rw [build, collect_of_firstRepeat h]
  rfl

theorem nodup_of_build (h : s.build = .ok state) : s.labels.Nodup := by
  by_contra hrepeat
  obtain ⟨l, hl⟩ := exists_firstRepeat hrepeat
  rw [build_of_firstRepeat hl] at h
  cases h

theorem makes_of_build (h : s.build = .ok state) : s.Makes state := by
  obtain ⟨found, hfound, hmakes⟩ := build_of_nodup (nodup_of_build h)
  obtain rfl : found = state := Except.ok.inj (hfound.symm.trans h)
  exact hmakes

/-- The same number and the same entries in any order make the same
state. -/
theorem Makes.unique (h : s.Makes state) (h' : s'.Makes state') (hid : s.id = s'.id)
    (hentries : ∀ e, e ∈ s.entries ↔ e ∈ s'.entries) : state = state' := by
  have ht : state.transitions = state'.transitions := by
    refine Transitions.eq_of_mem_iff fun e => ?_
    rw [h.entries_perm.mem_iff, h'.entries_perm.mem_iff, hentries]
  have hid : state.id = state'.id := by rw [h.id_eq, hid, h'.id_eq]
  obtain ⟨_, _⟩ := state
  obtain ⟨_, _⟩ := state'
  congr

theorem Makes.mem_labels (h : s.Makes state) {l : Label} :
    l ∈ state.transitions.labels ↔ l ∈ s.labels :=
  (h.entries_perm.map Prod.fst).mem_iff

end DraftState

/-! ## Automata -/

namespace Draft

/-- No state lists a label twice. -/
def Distinct (d : Draft) : Prop := ∀ s ∈ d.states, s.labels.Nodup

instance (d : Draft) : Decidable d.Distinct := List.decidableBAll _ _

/-- The first state that lists a label twice, and the first label that it
lists again. -/
def FirstDuplicate (d : Draft) (l : Label) : Prop :=
  ∃ front s back, d.states = front ++ s :: back ∧ (∀ s' ∈ front, s'.labels.Nodup) ∧
    FirstRepeat s.labels l

/-- Some transition is labelled with the character. -/
def Uses (d : Draft) (c : Char) : Prop := ∃ s ∈ d.states, Label.char c ∈ s.labels

/-- An automaton has the parts of a draft, and the alphabet that its
transitions use. -/
structure Makes (d : Draft) (a : Automaton) : Prop where
  states : List.Forall₂ DraftState.Makes d.states a.states.toList
  start : a.start = d.start
  flags : a.accepting.flags.toList = d.flags.sequence
  alphabet : ∀ c, c ∈ a.alphabet ↔ d.Uses c
  regex : a.regex = d.regex

variable {d d' : Draft} {doc : Document}

theorem exists_build (h : d.Distinct) : ∃ doc, d.build = .ok doc := by
  have hstates : ∀ s ∈ d.states, ∃ state, s.build = .ok state := by
    intro s hs
    obtain ⟨state, hstate, -⟩ := DraftState.build_of_nodup (h s hs)
    exact ⟨state, hstate⟩
  obtain ⟨states, hstates⟩ := exists_forall₂ hstates
  exact ⟨_, by rw [build, mapM_eq_ok_iff.mpr hstates]; rfl⟩

theorem of_build_eq_ok (h : d.build = .ok doc) :
    d.Distinct ∧ ∃ states, List.Forall₂ DraftState.Makes d.states states ∧
      doc = ⟨⟨states.toArray, d.start, ⟨d.flags.sequence.toArray⟩, .ofList d.alphabet, d.regex⟩,
        d.flags.offset⟩ := by
  obtain ⟨states, hstates, h⟩ := bind_eq_ok h
  have hbuild := mapM_eq_ok_iff.mp hstates
  refine ⟨?_, states, hbuild.imp fun s state => DraftState.makes_of_build,
    (Except.ok.inj h).symm⟩
  intro s hs
  obtain ⟨state, -, hstate⟩ := exists_of_forall₂ hbuild hs
  exact DraftState.nodup_of_build hstate

theorem build_of_firstDuplicate {l : Label} (h : d.FirstDuplicate l) :
    d.build = .error (.duplicate l) := by
  obtain ⟨front, s, back, hstates, hfront, hrepeat⟩ := h
  have hfront : ∀ s' ∈ front, ∃ state, s'.build = .ok state := by
    intro s' hs'
    obtain ⟨state, hstate, -⟩ := DraftState.build_of_nodup (hfront s' hs')
    exact ⟨state, hstate⟩
  obtain ⟨built, hbuilt⟩ := exists_forall₂ hfront
  rw [build, hstates, List.mapM_append, mapM_eq_ok_iff.mpr hbuilt, List.mapM_cons,
    DraftState.build_of_firstRepeat hrepeat]
  rfl

theorem exists_firstDuplicate (h : ¬ d.Distinct) : ∃ l, d.FirstDuplicate l := by
  have hsome : (d.states.find? fun s => ¬ s.labels.Nodup).isSome = true := by
    simpa [Distinct] using h
  obtain ⟨s, hs⟩ := Option.isSome_iff_exists.mp hsome
  obtain ⟨hrepeat, front, back, hsplit, hfront⟩ := List.find?_eq_some_iff_append.mp hs
  obtain ⟨l, hl⟩ := exists_firstRepeat (by simpa using hrepeat)
  exact ⟨l, front, s, back, hsplit, by simpa using hfront, hl⟩

/-- Two drafts of one automaton: they may differ in the order of the
entries of a state, in the place of the flags and the bits around them,
and in their alphabets. -/
structure Same (d d' : Draft) : Prop where
  states : List.Forall₂ (fun s s' => s.id = s'.id ∧ ∀ e, e ∈ s.entries ↔ e ∈ s'.entries)
    d.states d'.states
  start : d.start = d'.start
  flags : d.flags.sequence = d'.flags.sequence
  regex : d.regex = d'.regex

theorem Same.refl (d : Draft) : d.Same d :=
  ⟨List.forall₂_same.mpr fun _ _ => ⟨rfl, fun _ => Iff.rfl⟩, rfl, rfl, rfl⟩

theorem uses_of_forall₂ {states states' : List DraftState}
    (h : List.Forall₂ (fun s s' => ∀ e, e ∈ s.entries → e ∈ s'.entries) states states') {c : Char}
    (hc : ∃ s ∈ states, Label.char c ∈ s.labels) : ∃ s ∈ states', Label.char c ∈ s.labels := by
  obtain ⟨s, hs, hlabel⟩ := hc
  obtain ⟨s', hs', hentries⟩ := exists_of_forall₂ h hs
  obtain ⟨e, he, hlabel⟩ := List.mem_map.mp hlabel
  exact ⟨s', hs', hlabel ▸ List.mem_map_of_mem (hentries e he)⟩

theorem Same.uses_iff (h : d.Same d') (c : Char) : d.Uses c ↔ d'.Uses c :=
  ⟨uses_of_forall₂ (h.states.imp fun _ _ h e => (h.2 e).mp),
    uses_of_forall₂ (h.states.flip.imp fun _ _ h e => (h.2 e).mpr)⟩

theorem states_unique {states states' : List DraftState} {made made' : List State}
    (h : List.Forall₂ (fun s s' => s.id = s'.id ∧ ∀ e, e ∈ s.entries ↔ e ∈ s'.entries)
      states states')
    (hmade : List.Forall₂ DraftState.Makes states made)
    (hmade' : List.Forall₂ DraftState.Makes states' made') : made = made' := by
  induction h generalizing made made' with
  | nil =>
      cases hmade
      cases hmade'
      rfl
  | cons hsame _ ih =>
      obtain _ | ⟨hs, hrest⟩ := hmade
      obtain _ | ⟨hs', hrest'⟩ := hmade'
      rw [hs.unique hs' hsame.1 hsame.2, ih hrest hrest']

/-- Two drafts of one automaton make one automaton. -/
theorem Makes.unique {a a' : Automaton} (h : d.Makes a) (h' : d'.Makes a') (hsame : d.Same d') :
    a = a' := by
  have hstates : a.states = a'.states :=
    Array.toList_inj.mp (states_unique hsame.states h.states h'.states)
  have hstart : a.start = a'.start := by rw [h.start, hsame.start, h'.start]
  have hflags : a.accepting = a'.accepting := by
    refine congrArg StateSet.mk (Array.toList_inj.mp ?_)
    rw [h.flags, hsame.flags, h'.flags]
  have halphabet : a.alphabet = a'.alphabet :=
    Alphabet.ext fun c => by rw [h.alphabet, hsame.uses_iff, h'.alphabet]
  have hregex : a.regex = a'.regex := by rw [h.regex, hsame.regex, h'.regex]
  obtain ⟨_, _, _, _, _⟩ := a
  obtain ⟨_, _, _, _, _⟩ := a'
  congr

end Draft

end Document

end Thompson
