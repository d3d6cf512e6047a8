import Mathlib.Data.List.Forall2
import Mathlib.Data.List.Nodup
import Thompson.Document.Reader
import Thompson.Proofs.Basic

/-!
# Records in any order

A record has each of its fields once, in any order and perhaps among
others that are passed over, or it is the array of its fields
(`HasFields`). Every record of a document is read by a fold that puts
the value of a field into a slot of its own, so for all of them there is
one account of what the fold does (`FillsSlots`). If it succeeds and no
slot stays empty, the record has its fields and each was read into its
slot (`FillsSlots.of_foldFields_eq_ok`); and of a record that has its
fields, the fold gives what reading the fields gives
(`FillsSlots.foldFields_of_reads`, `FillsSlots.foldFields_of_failure`).
-/

namespace Thompson

namespace Document

/-- The values of the fields `names` of a record. An extensible record
may have other fields, as long as their values are intact. -/
inductive HasFields (names : List String) (extensible : Bool) : Json → List Json → Prop where
  | array {values : List Json} :
      values.length = names.length → HasFields names extensible (.array values) values
  | object {members : List (List Glyph × Json)} {values : List Json} :
      (∀ m ∈ members, ∃ name, Glyph.text? m.1 = some name ∧
        (name ∈ names ∨ extensible = true ∧ m.2.intact = true)) →
      List.Forall₂ (fun name value =>
        (members.filter fun m => Glyph.text? m.1 = some name).map Prod.snd = [value])
        names values →
      HasFields names extensible (.object members) values

/-! ## Slots -/

/-- The place of one field in what has been read of a record. -/
structure Slot (σ : Type) where
  {α : Type}
  name : String
  get : σ → Option α
  read : Json → Parsed α

/-- Reading a field puts its value into the slot of that name, which is
empty before, and leaves the other slots alone. -/
structure FillsSlots {σ : Type} (field : σ → String → Json → Parsed σ) (slots : List (Slot σ))
    (extensible : Bool) : Prop where
  nodup : (slots.map Slot.name).Nodup
  known : ∀ slot ∈ slots, ∀ s, ∃ put : Option slot.α → σ,
    (∀ o, slot.get (put o) = o) ∧
    (∀ other ∈ slots, other.name ≠ slot.name → ∀ o, other.get (put o) = other.get s) ∧
    ∀ value, field s slot.name value = (do return put (← once (slot.get s) (slot.read value)))
  unknown : ∀ name, name ∉ slots.map Slot.name → ∀ s value,
    field s name value = if extensible = true ∧ value.intact = true then .ok s else .error .form

/-! ## Reading one field after the other -/

/-- The fields of a record in order, each with its name, if that is a
text. -/
abbrev Listing := List (Option String × Json)

namespace Listing

/-- The values that are listed under a name. -/
def valuesOf (fs : Listing) (name : String) : List Json :=
  (fs.filter fun f => f.1 = some name).map Prod.snd

theorem valuesOf_cons_of_eq {f : Option String × Json} {name : String} (h : f.1 = some name)
    (fs : Listing) : valuesOf (f :: fs) name = f.2 :: valuesOf fs name := by
  simp [valuesOf, h]

theorem valuesOf_cons_of_ne {f : Option String × Json} {name : String} (h : f.1 ≠ some name)
    (fs : Listing) : valuesOf (f :: fs) name = valuesOf fs name := by
  simp [valuesOf, h]

theorem valuesOf_subset_cons (f : Option String × Json) (fs : Listing) (name : String) :
    valuesOf fs name ⊆ valuesOf (f :: fs) name := by
  by_cases h : f.1 = some name
  · rw [valuesOf_cons_of_eq h]
    exact List.subset_cons_self _ _
  · rw [valuesOf_cons_of_ne h]
    exact List.Subset.refl _

/-- Every field is one of those named, or it may be passed over. -/
def Allowed (fs : Listing) (names : List String) (extensible : Bool) : Prop :=
  ∀ f ∈ fs, ∃ name, f.1 = some name ∧ (name ∈ names ∨ extensible = true ∧ f.2.intact = true)

end Listing

variable {σ : Type} {field : σ → String → Json → Parsed σ} {slots : List (Slot σ)}
  {extensible : Bool} {s s' start : σ} {fs : Listing}

def readListed (field : σ → String → Json → Parsed σ) (s : σ) (f : Option String × Json) :
    Parsed σ :=
  match f.1 with
  | some name => field s name f.2
  | none => .error .form

section Step

variable {slot : Slot σ} {f : Option String × Json}

theorem FillsSlots.read_failing (h : FillsSlots field slots extensible) (hslot : slot ∈ slots)
    (hname : f.1 = some slot.name) (hempty : slot.get s = none) {e : LoadError}
    (hread : slot.read f.2 = .error e) : readListed field s f = .error e := by
  obtain ⟨put, -, -, hput⟩ := h.known slot hslot s
  rw [readListed, hname]
  show field s slot.name f.2 = _
  rw [hput, hempty, once, hread]
  rfl

theorem FillsSlots.read_filling (h : FillsSlots field slots extensible) (hslot : slot ∈ slots)
    (hname : f.1 = some slot.name) (hempty : slot.get s = none) {a : slot.α}
    (hread : slot.read f.2 = .ok a) :
    ∃ s', readListed field s f = .ok s' ∧ slot.get s' = some a ∧
      ∀ other ∈ slots, other.name ≠ slot.name → other.get s' = other.get s := by
  obtain ⟨put, hget, hothers, hput⟩ := h.known slot hslot s
  refine ⟨put (some a), ?_, hget _, fun other hother hne => hothers other hother hne _⟩
  rw [readListed, hname]
  show field s slot.name f.2 = _
  rw [hput, hempty, once, hread]
  rfl

/-- A slot is filled once. -/
theorem FillsSlots.read_filled (h : FillsSlots field slots extensible) (hslot : slot ∈ slots)
    (hname : f.1 = some slot.name) {a : slot.α} (hfull : slot.get s = some a) :
    readListed field s f = .error .form := by
  obtain ⟨put, -, -, hput⟩ := h.known slot hslot s
  rw [readListed, hname]
  show field s slot.name f.2 = _
  rw [hput, hfull]
  rfl

theorem FillsSlots.read_other (h : FillsSlots field slots extensible) {name : String}
    (hname : f.1 = some name) (hnot : name ∉ slots.map Slot.name) :
    readListed field s f =
      if extensible = true ∧ f.2.intact = true then .ok s else .error .form := by
  rw [readListed, hname]
  exact h.unknown name hnot s f.2

/-- What was read into which slot, if a field was read. -/
theorem FillsSlots.of_read_eq_ok (h : FillsSlots field slots extensible)
    (hread : readListed field s f = .ok s') :
    (∃ slot ∈ slots, f.1 = some slot.name ∧ slot.get s = none ∧
      (∃ a, slot.read f.2 = .ok a ∧ slot.get s' = some a) ∧
      ∀ other ∈ slots, other.name ≠ slot.name → other.get s' = other.get s) ∨
    (∃ name, f.1 = some name ∧ name ∉ slots.map Slot.name ∧ extensible = true ∧
      f.2.intact = true ∧ s' = s) := by
  cases hname : f.1 with
  | none =>
      rw [readListed, hname] at hread
      cases hread
  | some name =>
      by_cases hmem : name ∈ slots.map Slot.name
      · obtain ⟨slot, hslot, rfl⟩ := List.mem_map.mp hmem
        cases hget : slot.get s with
        | some a =>
            rw [h.read_filled hslot hname hget] at hread
            cases hread
        | none =>
            cases hvalue : slot.read f.2 with
            | error e =>
                rw [h.read_failing hslot hname hget hvalue] at hread
                cases hread
            | ok a =>
                obtain ⟨s₁, hs₁, hfilled, hothers⟩ := h.read_filling hslot hname hget hvalue
                obtain rfl := Except.ok.inj (hs₁.symm.trans hread)
                exact Or.inl ⟨slot, hslot, rfl, hget, ⟨a, hvalue, hfilled⟩, hothers⟩
      · rw [h.read_other hname hmem] at hread
        split at hread
        · next hpass =>
          exact Or.inr ⟨name, rfl, hmem, hpass.1, hpass.2, (Except.ok.inj hread).symm⟩
        · cases hread

/-- Why a field was not read. -/
theorem FillsSlots.of_read_eq_error (h : FillsSlots field slots extensible) {e : LoadError}
    (hread : readListed field s f = .error e) :
    (∀ name, f.1 = some name →
      ¬ (name ∈ slots.map Slot.name ∨ extensible = true ∧ f.2.intact = true)) ∨
    ∃ slot ∈ slots, f.1 = some slot.name ∧
      ((slot.get s).isSome = true ∨ slot.read f.2 = .error e) := by
  cases hname : f.1 with
  | none =>
      left
      intro name hsome
      cases hsome
  | some name =>
      by_cases hmem : name ∈ slots.map Slot.name
      · right
        obtain ⟨slot, hslot, rfl⟩ := List.mem_map.mp hmem
        refine ⟨slot, hslot, rfl, ?_⟩
        cases hget : slot.get s with
        | some a => exact Or.inl rfl
        | none =>
            cases hvalue : slot.read f.2 with
            | error e' =>
                rw [h.read_failing hslot hname hget hvalue] at hread
                obtain rfl : e' = e := Except.error.inj hread
                exact Or.inr rfl
            | ok a =>
                obtain ⟨s₁, hs₁, -⟩ := h.read_filling hslot hname hget hvalue
                rw [hs₁] at hread
                cases hread
      · left
        intro name' hsame
        obtain rfl := Option.some.inj hsame
        rw [h.read_other hname hmem] at hread
        split at hread
        · cases hread
        · next hpass => exact fun hmay => hpass (hmay.resolve_left hmem)

end Step

/-! ## Reading all fields -/

/-- If all fields are read, a slot is what it was and its field does not
occur, or it was empty and has the value of the one field of its name. -/
theorem FillsSlots.of_foldlM_eq_ok (h : FillsSlots field slots extensible)
    (hread : fs.foldlM (readListed field) start = .ok s) :
    fs.Allowed (slots.map Slot.name) extensible ∧ ∀ slot ∈ slots,
      (fs.valuesOf slot.name = [] ∧ slot.get s = slot.get start) ∨
      (slot.get start = none ∧ ∃ value a, fs.valuesOf slot.name = [value] ∧
        slot.read value = .ok a ∧ slot.get s = some a) := by
  induction fs generalizing start with
  | nil =>
      obtain rfl := Except.ok.inj hread
      exact ⟨by simp [Listing.Allowed], fun slot _ => Or.inl ⟨rfl, rfl⟩⟩
  | cons f fs ih =>
      rw [List.foldlM_cons] at hread
      obtain ⟨s₁, hfirst, hrest⟩ := bind_eq_ok hread
      obtain ⟨hallowed, hslots⟩ := ih hrest
      rcases h.of_read_eq_ok hfirst with
        ⟨filled, hfilled, hname, hempty, ⟨a, hvalue, hget⟩, hothers⟩ |
        ⟨name, hname, hnot, hextensible, hintact, rfl⟩
      · refine ⟨?_, ?_⟩
        · refine List.forall_mem_cons.mpr ⟨⟨filled.name, hname, Or.inl ?_⟩, hallowed⟩
          exact List.mem_map_of_mem hfilled
        · intro slot hslot
          by_cases heq : slot.name = filled.name
          · obtain rfl := List.inj_on_of_nodup_map h.nodup hslot hfilled heq
            rw [Listing.valuesOf_cons_of_eq hname]
            rcases hslots slot hslot with ⟨hnone, hsame⟩ | ⟨habsent, -⟩
            · exact Or.inr ⟨hempty, f.2, a, by rw [hnone], hvalue, hsame.trans hget⟩
            · -- the field came again
              rw [hget] at habsent
              cases habsent
          · have hne : f.1 ≠ some slot.name := by
              rw [hname]
              exact fun hsame => heq (Option.some.inj hsame).symm
            rw [Listing.valuesOf_cons_of_ne hne, ← hothers slot hslot heq]
            exact hslots slot hslot
      · refine ⟨?_, ?_⟩
        · exact List.forall_mem_cons.mpr ⟨⟨name, hname, Or.inr ⟨hextensible, hintact⟩⟩, hallowed⟩
        · intro slot hslot
          have hne : f.1 ≠ some slot.name := by
            rw [hname]
            rintro hsame
            obtain rfl := Option.some.inj hsame
            exact hnot (List.mem_map_of_mem hslot)
          rw [Listing.valuesOf_cons_of_ne hne]
          exact hslots slot hslot

/-- A field comes where its slot is full, or it comes again. -/
def Slot.Overfull (slot : Slot σ) (s : σ) (fs : Listing) : Prop :=
  (slot.get s).isSome = true ∧ fs.valuesOf slot.name ≠ [] ∨ 2 ≤ (fs.valuesOf slot.name).length

theorem FillsSlots.overfull_cons (h : FillsSlots field slots extensible) {f : Option String × Json}
    (hfirst : readListed field start f = .ok s) {slot : Slot σ} (hslot : slot ∈ slots)
    (hfull : slot.Overfull s fs) : slot.Overfull start (f :: fs) := by
  by_cases hname : f.1 = some slot.name
  · right
    have hagain : fs.valuesOf slot.name ≠ [] := by
      rcases hfull with ⟨-, hagain⟩ | htwice
      · exact hagain
      · exact List.ne_nil_of_length_pos (by omega)
    have := List.length_pos_of_ne_nil hagain
    rw [Listing.valuesOf_cons_of_eq hname, List.length_cons]
    omega
  · have hsame : slot.get s = slot.get start := by
      rcases h.of_read_eq_ok hfirst with ⟨filled, -, hfilled, -, -, hothers⟩ | ⟨_, -, -, -, -, rfl⟩
      · refine hothers slot hslot fun heq => hname ?_
        rw [hfilled, heq]
      · rfl
    rw [Slot.Overfull, Listing.valuesOf_cons_of_ne hname, ← hsame]
    exact hfull

/-- Why the fields cannot all be read. -/
theorem FillsSlots.of_foldlM_eq_error (h : FillsSlots field slots extensible) {e : LoadError}
    (hread : fs.foldlM (readListed field) start = .error e) :
    ¬ fs.Allowed (slots.map Slot.name) extensible ∨ (∃ slot ∈ slots, slot.Overfull start fs) ∨
      ∃ slot ∈ slots, ∃ value ∈ fs.valuesOf slot.name, slot.read value = .error e := by
  induction fs generalizing start with
  | nil => cases hread
  | cons f fs ih =>
      cases hfirst : readListed field start f with
      | error e' =>
          rw [List.foldlM_cons, hfirst] at hread
          obtain rfl : e' = e := Except.error.inj hread
          rcases h.of_read_eq_error hfirst with hstray | ⟨slot, hslot, hname, hfull | hfails⟩
          · left
            intro hallowed
            obtain ⟨name, hname, hmay⟩ := hallowed f List.mem_cons_self
            exact hstray name hname hmay
          · refine Or.inr (Or.inl ⟨slot, hslot, Or.inl ⟨hfull, ?_⟩⟩)
            rw [Listing.valuesOf_cons_of_eq hname]
            exact List.cons_ne_nil _ _
          · refine Or.inr (Or.inr ⟨slot, hslot, f.2, ?_, hfails⟩)
            rw [Listing.valuesOf_cons_of_eq hname]
            exact List.mem_cons_self
      | ok s₁ =>
          rw [List.foldlM_cons, hfirst] at hread
          rcases ih hread with hnot | ⟨slot, hslot, hfull⟩ | ⟨slot, hslot, value, hvalue, hfails⟩
          · exact Or.inl fun hallowed => hnot (List.forall_mem_cons.mp hallowed).2
          · exact Or.inr (Or.inl ⟨slot, hslot, h.overfull_cons hfirst hslot hfull⟩)
          · refine Or.inr (Or.inr ⟨slot, hslot, value, ?_, hfails⟩)
            exact Listing.valuesOf_subset_cons f fs slot.name hvalue

/-! ## Records -/

/-- The fields of a record in the order in which they are read. -/
def listing (names : List String) : Json → Option Listing
  | .object members => some (members.map fun m => (Glyph.text? m.1, m.2))
  | .array items =>
    if items.length ≤ names.length then some ((names.zip items).map fun f => (some f.1, f.2))
    else none
  | _ => none

theorem foldFields_of_listing {names : List String} {j : Json} (h : listing names j = some fs) :
    foldFields names field start j = fs.foldlM (readListed field) start := by
  cases j with
  | object members =>
      obtain rfl := Option.some.inj h
      rw [List.foldlM_map]
      rfl
  | array items =>
      rw [listing] at h
      split at h
      · next hlength =>
        obtain rfl := Option.some.inj h
        rw [List.foldlM_map]
        simp only [foldFields, if_pos hlength]
        exact bind_pure _
      · cases h
  | _ => cases h

theorem exists_listing_of_foldFields {names : List String} {j : Json}
    (h : foldFields names field start j = .ok s) : ∃ fs, listing names j = some fs := by
  cases j with
  | object members => exact ⟨_, rfl⟩
  | array items =>
      obtain ⟨s₁, -, h⟩ := bind_eq_ok h
      split at h
      · next hlength => exact ⟨_, if_pos hlength⟩
      · cases h
  | _ => cases h

theorem map_eq_map_iff_forall₂ {α β γ : Type} {f : α → γ} {g : β → γ} {as : List α}
    {bs : List β} : as.map f = bs.map g ↔ List.Forall₂ (fun a b => f a = g b) as bs := by
  rw [← List.forall₂_eq_eq_eq, List.forall₂_map_left_iff, List.forall₂_map_right_iff]

theorem zipped_valuesOf_of_not_mem {names : List String} {name : String} (h : name ∉ names)
    (items : List Json) :
    Listing.valuesOf ((names.zip items).map fun f => (some f.1, f.2)) name = [] := by
  have hnone : ∀ f ∈ (names.zip items).map fun f => (some f.1, f.2), f.1 ≠ some name := by
    simp only [List.forall_mem_map]
    intro f hf hsame
    exact h (Option.some.inj hsame ▸ (List.of_mem_zip hf).1)
  rw [Listing.valuesOf, List.filter_eq_nil_iff.mpr (by simpa using hnone), List.map_nil]

/-- Listed with the names of a record, the items are the values of the
first names. -/
theorem map_valuesOf_zip {names : List String} (hnodup : names.Nodup) {items : List Json}
    (h : items.length ≤ names.length) :
    names.map (Listing.valuesOf ((names.zip items).map fun f => (some f.1, f.2))) =
      items.map (fun item => [item]) ++ List.replicate (names.length - items.length) [] := by
  induction names generalizing items with
  | nil =>
      obtain rfl : items = [] := List.eq_nil_of_length_eq_zero (by simpa using h)
      rfl
  | cons name names ih =>
      obtain ⟨hnew, hnodup⟩ := List.nodup_cons.mp hnodup
      cases items with
      | nil => exact List.map_const'
      | cons item items =>
          have hfirst := zipped_valuesOf_of_not_mem hnew items
          have hothers : ∀ other ∈ names,
              Listing.valuesOf ((some name, item) ::
                (names.zip items).map fun f => (some f.1, f.2)) other =
              Listing.valuesOf ((names.zip items).map fun f => (some f.1, f.2)) other := by
            intro other hother
            refine Listing.valuesOf_cons_of_ne (fun hsame => hnew ?_) _
            exact Option.some.inj hsame ▸ hother
          rw [List.zip_cons_cons, List.map_cons, List.map_cons,
            Listing.valuesOf_cons_of_eq rfl, hfirst, List.map_congr_left hothers,
            ih hnodup (by simpa using h)]
          simp

/-- A record has its fields if those that are read are fields of it and
each name lists one value. -/
theorem hasFields_iff {names : List String} (hnodup : names.Nodup) {j : Json}
    {values : List Json} :
    HasFields names extensible j values ↔ ∃ fs, listing names j = some fs ∧
      fs.Allowed names extensible ∧
      List.Forall₂ (fun name value => fs.valuesOf name = [value]) names values := by
  constructor
  · intro h
    cases h with
    | array hlength =>
        refine ⟨_, if_pos (Nat.le_of_eq hlength), ?_, ?_⟩
        · refine List.forall_mem_map.mpr ?_
          intro f hf
          exact ⟨f.1, rfl, Or.inl (List.of_mem_zip hf).1⟩
        · rw [← map_eq_map_iff_forall₂, map_valuesOf_zip hnodup (Nat.le_of_eq hlength), hlength]
          simp
    | object hmembers hvalues =>
        refine ⟨_, rfl, List.forall_mem_map.mpr hmembers, ?_⟩
        simpa [Listing.valuesOf, List.filter_map, Function.comp_def] using hvalues
  · rintro ⟨fs, hlisting, hallowed, hvalues⟩
    cases j with
    | array items =>
        rw [listing] at hlisting
        split at hlisting
        · next hlength =>
          obtain rfl := Option.some.inj hlisting
          rw [← map_eq_map_iff_forall₂, map_valuesOf_zip hnodup hlength] at hvalues
          -- a name without a value would list none
          obtain hnone : names.length - items.length = 0 := by
            by_contra hsome
            have hmem : ([] : List Json) ∈ values.map fun value => [value] := by
              rw [← hvalues]
              exact List.mem_append_right _ (List.mem_replicate.mpr ⟨hsome, rfl⟩)
            obtain ⟨value, -, hempty⟩ := List.mem_map.mp hmem
            cases hempty
          rw [hnone, List.replicate_zero, List.append_nil] at hvalues
          have hinj : Function.Injective fun value : Json => [value] :=
            fun _ _ h => (List.cons.inj h).1
          obtain rfl : items = values := List.map_injective_iff.mpr hinj hvalues
          exact .array (by omega)
        · cases hlisting
    | object members =>
        obtain rfl := Option.some.inj hlisting
        refine .object (fun m hm => hallowed _ (List.mem_map_of_mem hm)) ?_
        simpa [Listing.valuesOf, List.filter_map, Function.comp_def] using hvalues
    | _ => cases hlisting

section Record

variable {names : List String} {j : Json} {values : List Json}

/-- If a record was read and every slot is full, each field was read into
its slot. -/
theorem FillsSlots.of_foldFields_eq_ok (h : FillsSlots field slots extensible)
    (hnames : slots.map Slot.name = names) (hread : foldFields names field start j = .ok s)
    (hfull : ∀ slot ∈ slots, slot.get start = none ∧ (slot.get s).isSome = true) :
    ∃ values, HasFields names extensible j values ∧
      List.Forall₂ (fun slot value => ∃ a, slot.read value = .ok a ∧ slot.get s = some a)
        slots values := by
  obtain ⟨fs, hfs⟩ := exists_listing_of_foldFields hread
  rw [foldFields_of_listing hfs] at hread
  obtain ⟨hallowed, hslots⟩ := h.of_foldlM_eq_ok hread
  have hvalues : ∀ slot ∈ slots, ∃ value, fs.valuesOf slot.name = [value] ∧
      ∃ a, slot.read value = .ok a ∧ slot.get s = some a := by
    intro slot hslot
    obtain ⟨hempty, hsome⟩ := hfull slot hslot
    rcases hslots slot hslot with ⟨-, hsame⟩ | ⟨-, value, a, hvalue, hread, hget⟩
    · rw [hsame, hempty] at hsome
      cases hsome
    · exact ⟨value, hvalue, a, hread, hget⟩
  obtain ⟨values, hvalues⟩ := exists_forall₂ hvalues
  refine ⟨values, (hasFields_iff (hnames ▸ h.nodup)).mpr ⟨fs, hfs, hnames ▸ hallowed, ?_⟩,
    hvalues.imp fun slot value h => h.2⟩
  rw [← hnames, List.forall₂_map_left_iff]
  exact hvalues.imp fun slot value h => h.1

variable (h : FillsSlots field slots extensible) (hnames : slots.map Slot.name = names)
  (hempty : ∀ slot ∈ slots, slot.get start = none) (hfields : HasFields names extensible j values)

include h hnames hempty hfields

/-- A record that has its fields is read, or reading one of them fails
and that is the result. -/
theorem FillsSlots.foldFields_of_hasFields :
    (∃ s, foldFields names field start j = .ok s ∧
      List.Forall₂ (fun slot value => ∃ a, slot.read value = .ok a ∧ slot.get s = some a)
        slots values) ∨
    ∃ e, foldFields names field start j = .error e ∧
      ∃ slot value, (slot, value) ∈ slots.zip values ∧ slot.read value = .error e := by
  obtain ⟨fs, hfs, hallowed, hvalues⟩ := (hasFields_iff (hnames ▸ h.nodup)).mp hfields
  rw [foldFields_of_listing hfs]
  rw [← hnames] at hallowed hvalues
  rw [List.forall₂_map_left_iff, List.forall₂_iff_zip] at hvalues
  obtain ⟨hlength, hvalues⟩ := hvalues
  cases hread : fs.foldlM (readListed field) start with
  | ok s =>
      left
      refine ⟨s, rfl, List.forall₂_iff_zip.mpr ⟨hlength, ?_⟩⟩
      intro slot value hpair
      have honly := hvalues hpair
      rcases (h.of_foldlM_eq_ok hread).2 slot (List.of_mem_zip hpair).1 with
        ⟨hnone, -⟩ | ⟨-, value', a, hvalue, hread, hget⟩
      · rw [honly] at hnone
        cases hnone
      · rw [honly] at hvalue
        obtain rfl : value = value' := List.singleton_inj.mp hvalue
        exact ⟨a, hread, hget⟩
  | error e =>
      right
      refine ⟨e, rfl, ?_⟩
      have hpair : ∀ slot ∈ slots, ∃ value, (slot, value) ∈ slots.zip values := by
        intro slot hslot
        rw [← List.map_fst_zip (Nat.le_of_eq hlength)] at hslot
        obtain ⟨pair, hpair, rfl⟩ := List.mem_map.mp hslot
        exact ⟨pair.2, hpair⟩
      rcases h.of_foldlM_eq_error hread with hnot | ⟨slot, hslot, hfull⟩ |
        ⟨slot, hslot, value, hvalue, hfails⟩
      · exact absurd hallowed hnot
      · obtain ⟨value, hvalue⟩ := hpair slot hslot
        rw [Slot.Overfull, hvalues hvalue, hempty slot hslot] at hfull
        simp at hfull
      · obtain ⟨value', hvalue'⟩ := hpair slot hslot
        rw [hvalues hvalue', List.mem_singleton] at hvalue
        exact ⟨slot, value', hvalue', hvalue ▸ hfails⟩

/-- If reading the fields gives values, the record is read. -/
theorem FillsSlots.foldFields_of_reads
    (hreads : List.Forall₂ (fun slot value => ∃ a, slot.read value = .ok a) slots values) :
    ∃ s, foldFields names field start j = .ok s ∧
      List.Forall₂ (fun slot value => ∃ a, slot.read value = .ok a ∧ slot.get s = some a)
        slots values := by
  rcases h.foldFields_of_hasFields hnames hempty hfields with hread | ⟨e, -, slot, value, hpair, he⟩
  · exact hread
  · obtain ⟨a, ha⟩ := List.forall₂_zip hreads hpair
    rw [ha] at he
    cases he

/-- If reading the fields gives values or the one failure `e`, which does
occur, that is the result. -/
theorem FillsSlots.foldFields_of_failure {e : LoadError}
    (hreads : List.Forall₂ (fun slot value => (∃ a, slot.read value = .ok a) ∨
      slot.read value = .error e) slots values)
    (hfails : ∃ slot value, (slot, value) ∈ slots.zip values ∧ slot.read value = .error e) :
    foldFields names field start j = .error e := by
  rcases h.foldFields_of_hasFields hnames hempty hfields with
    ⟨s, -, hread⟩ | ⟨e', hread, slot, value, hpair, he⟩
  · obtain ⟨slot, value, hpair, he⟩ := hfails
    obtain ⟨a, ha, -⟩ := List.forall₂_zip hread hpair
    rw [ha] at he
    cases he
  · rcases List.forall₂_zip hreads hpair with ⟨a, ha⟩ | he'
    · rw [ha] at he
      cases he
    · rw [he'] at he
      obtain rfl : e = e' := Except.error.inj he
      exact hread

end Record

end Document

end Thompson
