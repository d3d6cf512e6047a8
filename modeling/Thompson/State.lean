import Thompson.Label

/-!
# States and their transitions

A state lists, for each label it knows, the states that label leads to,
in the order in which they were added. A label may be listed without
any target: it still counts as a label of the state. Labels ascend
strictly, so a label is listed once, and two states with the same
targets for the same labels are equal.
-/

namespace Thompson

/-- The targets of each label of a state. -/
structure Transitions where
  entries : List (Label × Array Nat)
  ascending : entries.Pairwise fun a b => a.1 < b.1
  deriving DecidableEq

namespace Transitions

def empty : Transitions := ⟨[], .nil⟩

def labels (t : Transitions) : List Label := t.entries.map Prod.fst

/-- The targets of a label, if the label is listed. -/
def targets? (t : Transitions) (label : Label) : Option (Array Nat) :=
  (t.entries.find? fun e => e.1 = label).map Prod.snd

/-- The targets of a label, none if it is not listed. -/
def targets (t : Transitions) (label : Label) : List Nat :=
  ((t.targets? label).map Array.toList).getD []

theorem isSome_targets? {t : Transitions} {label : Label} :
    (t.targets? label).isSome = true ↔ label ∈ t.labels := by
  simp only [targets?, labels, Option.isSome_map, List.find?_isSome, List.mem_map]
  simp

/-- Every transition as a label and a target, in order. -/
def toList (t : Transitions) : List (Label × Nat) :=
  t.entries.flatMap fun (label, targets) => targets.toList.map fun target => (label, target)

/-! ## Changing one label -/

/-- Replace the targets of one label by what `f` makes of them, putting
the label at its place if it is not listed. -/
def alter (label : Label) (f : Array Nat → Array Nat) :
    List (Label × Array Nat) → List (Label × Array Nat)
  | [] => [(label, f #[])]
  | (l, targets) :: rest =>
    if label < l then (label, f #[]) :: (l, targets) :: rest
    else if label = l then (l, f targets) :: rest
    else (l, targets) :: alter label f rest

theorem mem_alter {label : Label} {f : Array Nat → Array Nat} {entries : List (Label × Array Nat)}
    {e : Label × Array Nat} (h : e ∈ alter label f entries) :
    e.1 = label ∨ ∃ e' ∈ entries, e'.1 = e.1 := by
  fun_induction alter label f entries <;> grind

theorem alter_pairwise {label : Label} {f : Array Nat → Array Nat}
    {entries : List (Label × Array Nat)} (h : entries.Pairwise fun a b => a.1 < b.1) :
    (alter label f entries).Pairwise fun a b => a.1 < b.1 := by
  fun_induction alter label f entries with
  | case1 => simp
  | case2 l targets rest hlt =>
    refine List.pairwise_cons.2 ⟨fun e he => ?_, h⟩
    rcases List.mem_cons.1 he with rfl | he
    · exact hlt
    · exact Nat.lt_trans hlt ((List.pairwise_cons.1 h).1 e he)
  | case3 targets rest hlt =>
    have ⟨hl, hrest⟩ := List.pairwise_cons.1 h
    exact List.pairwise_cons.2 ⟨hl, hrest⟩
  | case4 l targets rest hlt hne ih =>
    have ⟨hl, hrest⟩ := List.pairwise_cons.1 h
    refine List.pairwise_cons.2 ⟨fun e he => ?_, ih hrest⟩
    rcases mem_alter he with he | ⟨e', he', heq⟩
    · show l < e.1
      rw [he]
      exact Label.lt_of_not_lt_of_ne hlt hne
    · show l < e.1
      rw [← heq]
      exact hl e' he'

/-- Add a target behind those that the label has. -/
def add (t : Transitions) (label : Label) (target : Nat) : Transitions :=
  ⟨alter label (·.push target) t.entries, alter_pairwise t.ascending⟩

/-- List a new label with all its targets; `none` if it is listed. -/
def insertNew? (t : Transitions) (label : Label) (targets : Array Nat) : Option Transitions :=
  if label ∈ t.labels then none
  else some ⟨alter label (fun _ => targets) t.entries, alter_pairwise t.ascending⟩

/-- A label above all others is listed behind them. -/
theorem alter_eq_append {label : Label} {f : Array Nat → Array Nat}
    {entries : List (Label × Array Nat)} (h : ∀ e ∈ entries, e.1 < label) :
    alter label f entries = entries ++ [(label, f #[])] := by
  induction entries with
  | nil => rfl
  | cons e entries ih =>
      obtain ⟨he, hentries⟩ := List.forall_mem_cons.mp h
      have hlt := Label.lt_iff.mp he
      have hnot : ¬ label < e.1 := fun h => by
        have := Label.lt_iff.mp h
        omega
      have hne : label ≠ e.1 := fun h => by
        rw [h] at hlt
        omega
      rw [alter, if_neg hnot, if_neg hne, ih hentries]
      rfl

theorem find?_eq_none_of_lt {label : Label} {entries : List (Label × Array Nat)}
    (h : ∀ e ∈ entries, label < e.1) : (entries.find? fun e => e.1 = label) = none := by
  refine List.find?_eq_none.mpr fun e he => ?_
  have := Label.lt_iff.mp (h e he)
  simp only [decide_eq_true_eq]
  rintro rfl
  omega

/-- Altering one label changes what is found under it, and nothing
else. -/
theorem find?_alter {label : Label} {f : Array Nat → Array Nat}
    {entries : List (Label × Array Nat)} (h : entries.Pairwise fun a b => a.1 < b.1)
    (l : Label) :
    ((alter label f entries).find? fun e => e.1 = l).map Prod.snd =
      if l = label then
        some (f (((entries.find? fun e => e.1 = label).map Prod.snd).getD #[]))
      else (entries.find? fun e => e.1 = l).map Prod.snd := by
  fun_induction alter label f entries with
  | case1 => by_cases hl : l = label <;> simp [hl, eq_comm]
  | case2 l' targets rest hlt =>
    have hnone : (((l', targets) :: rest).find? fun e => e.1 = label) = none := by
      refine find?_eq_none_of_lt fun e he => ?_
      rcases List.mem_cons.1 he with rfl | he
      · exact hlt
      · exact Nat.lt_trans hlt ((List.pairwise_cons.1 h).1 e he)
    rw [hnone, List.find?_cons]
    by_cases hl : l = label
    · simp [hl]
    · simp [hl, Ne.symm hl]
  | case3 targets rest hlt => by_cases hl : l = label <;> simp [hl, eq_comm]
  | case4 l' targets rest hlt hne ih =>
    have ih := ih (List.pairwise_cons.1 h).2
    by_cases hl : l' = l
    · subst hl
      simp [Ne.symm hne]
    · simpa [List.find?_cons, hl, Ne.symm hne] using ih

theorem targets_add (t : Transitions) (label : Label) (target : Nat) (l : Label) :
    (t.add label target).targets l =
      if l = label then t.targets label ++ [target] else t.targets l := by
  simp only [targets, targets?, add, find?_alter t.ascending]
  by_cases hl : l = label
  · simp only [hl, if_true]
    cases t.entries.find? fun e => e.1 = label <;> simp
  · simp only [hl, if_false]

theorem mem_labels_add {t : Transitions} {label : Label} {target : Nat} {l : Label} :
    l ∈ (t.add label target).labels ↔ l = label ∨ l ∈ t.labels := by
  rw [← isSome_targets?, ← isSome_targets?]
  simp only [targets?, add, find?_alter t.ascending]
  by_cases hl : l = label <;> simp [hl]

theorem find?_eq_some_of_mem {entries : List (Label × Array Nat)}
    (h : entries.Pairwise fun a b => a.1 < b.1) {e : Label × Array Nat} (he : e ∈ entries) :
    (entries.find? fun e' => e'.1 = e.1) = some e := by
  induction entries with
  | nil => cases he
  | cons d rest ih =>
    have ⟨hd, hrest⟩ := List.pairwise_cons.1 h
    rcases List.mem_cons.1 he with rfl | he
    · simp
    · have hlt := Label.lt_iff.1 (hd e he)
      have hne : d.1 ≠ e.1 := fun heq => by rw [heq] at hlt; omega
      rw [List.find?_cons]
      simp only [hne, decide_false]
      exact ih hrest he

/-- The transitions of a state are those of its labels. -/
theorem mem_toList {t : Transitions} {label : Label} {target : Nat} :
    (label, target) ∈ t.toList ↔ target ∈ t.targets label := by
  simp only [toList, List.mem_flatMap, List.mem_map, targets, targets?]
  constructor
  · rintro ⟨⟨label', ts⟩, he, target', htarget, heq⟩
    obtain ⟨rfl, rfl⟩ := Prod.mk.inj heq
    rw [find?_eq_some_of_mem t.ascending he]
    exact htarget
  · intro htarget
    cases hfind : t.entries.find? fun e => e.1 = label with
    | none => simp [hfind] at htarget
    | some e =>
      have hlabel := List.find?_some hfind
      simp only [decide_eq_true_eq] at hlabel
      refine ⟨e, List.mem_of_find?_eq_some hfind, target, ?_, by rw [hlabel]⟩
      simpa [hfind] using htarget

end Transitions

/-! ## States -/

/-- A state with the number it goes by. -/
structure State where
  id : Nat
  transitions : Transitions
  deriving DecidableEq

/-- One transition of an automaton, as it is drawn. -/
structure Edge where
  source : Nat
  label : Label
  target : Nat
  deriving DecidableEq

def State.edges (s : State) : List Edge :=
  s.transitions.toList.map fun (label, target) => ⟨s.id, label, target⟩

end Thompson
