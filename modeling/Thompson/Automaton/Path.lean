import Thompson.Automaton.Basic

/-!
# Paths

A path follows transitions from one state to another and spells the
characters it reads; epsilon transitions spell nothing. A text is in the
language of an automaton if it is spelled by a path from the start state
to an accept state.

Paths are defined over any relation that says which state leads to which
on a label, since the states of an automaton under construction have
paths too.
-/

namespace Thompson

/-- Which states lead to which on a label. -/
abbrev Relation := Nat → Label → Nat → Prop

/-- The transitions of an automaton as a relation. -/
def Automaton.Leads (a : Automaton) : Relation := fun i label j => j ∈ a.targets i label

/-- `Path leads i text j`: some transitions lead from `i` to `j` and read
`text`. -/
inductive Path (leads : Relation) : Nat → List Char → Nat → Prop where
  | nil (i : Nat) : Path leads i [] i
  | epsilon {i j k : Nat} {text : List Char} :
      leads i .epsilon j → Path leads j text k → Path leads i text k
  | char {i j k : Nat} {c : Char} {text : List Char} :
      leads i (.char c) j → Path leads j text k → Path leads i (c :: text) k

/-- `EpsilonPath leads avoid i j`: epsilon transitions lead from `i` to
`j` through states outside `avoid` only, both ends included. -/
inductive EpsilonPath (leads : Relation) (avoid : Nat → Prop) : Nat → Nat → Prop where
  | nil {i : Nat} : ¬ avoid i → EpsilonPath leads avoid i i
  | cons {i j k : Nat} :
      ¬ avoid i → leads i .epsilon j → EpsilonPath leads avoid j k → EpsilonPath leads avoid i k

/-! ## Putting paths together -/

theorem Path.append {leads : Relation} {i j k : Nat} {front back : List Char}
    (h : Path leads i front j) (h' : Path leads j back k) : Path leads i (front ++ back) k := by
  induction h with
  | nil => exact h'
  | epsilon hstep _ ih => exact .epsilon hstep (ih h')
  | char hstep _ ih => exact .char hstep (ih h')

/-- A path that reads a character reads it on one transition. -/
theorem Path.exists_of_cons {leads : Relation} {i k : Nat} {c : Char} {text : List Char}
    (h : Path leads i (c :: text) k) :
    ∃ m j, Path leads i [] m ∧ leads m (.char c) j ∧ Path leads j text k := by
  generalize hread : c :: text = read at h
  induction h with
  | nil => cases hread
  | epsilon hstep _ ih =>
      obtain ⟨m, j, hfront, hchar, hback⟩ := ih hread
      exact ⟨m, j, .epsilon hstep hfront, hchar, hback⟩
  | char hstep hrest _ =>
      obtain ⟨rfl, rfl⟩ := List.cons.inj hread
      exact ⟨_, _, .nil _, hstep, hrest⟩

/-- A path can be cut at any place of what it reads. -/
theorem Path.exists_of_append {leads : Relation} {i k : Nat} {front back : List Char}
    (h : Path leads i (front ++ back) k) : ∃ j, Path leads i front j ∧ Path leads j back k := by
  induction front generalizing i with
  | nil => exact ⟨i, .nil i, h⟩
  | cons c front ih =>
      obtain ⟨m, j, hfront, hchar, hrest⟩ := h.exists_of_cons
      obtain ⟨j', hmiddle, hback⟩ := ih hrest
      exact ⟨j', hfront.append (.char hchar hmiddle), hback⟩

theorem Path.mono {leads leads' : Relation} {i k : Nat} {text : List Char}
    (hmono : ∀ i label j, leads i label j → leads' i label j) (h : Path leads i text k) :
    Path leads' i text k := by
  induction h with
  | nil => exact .nil _
  | epsilon hstep _ ih => exact .epsilon (hmono _ _ _ hstep) ih
  | char hstep _ ih => exact .char (hmono _ _ _ hstep) ih

/-- From a state without transitions there is the empty path only. -/
theorem Path.eq_of_stuck {leads : Relation} {i k : Nat} {text : List Char}
    (hstuck : ∀ label j, ¬ leads i label j) (h : Path leads i text k) : text = [] ∧ k = i := by
  cases h with
  | nil => exact ⟨rfl, rfl⟩
  | epsilon hstep _ => exact absurd hstep (hstuck _ _)
  | char hstep _ => exact absurd hstep (hstuck _ _)

/-! ## Places that no path leaves -/

section Closed

variable {leads leads' : Relation} (inside : Nat → Prop)

/-- A path that starts inside stays there if no transition leads out. -/
theorem Path.stays_inside (hclosed : ∀ i label j, inside i → leads i label j → inside j)
    {i k : Nat} {text : List Char} (h : Path leads i text k) (hi : inside i) : inside k := by
  induction h with
  | nil => exact hi
  | epsilon hstep _ ih => exact ih (hclosed _ _ _ hi hstep)
  | char hstep _ ih => exact ih (hclosed _ _ _ hi hstep)

/-- A path inside needs the transitions inside only. -/
theorem Path.congr_inside (hclosed : ∀ i label j, inside i → leads i label j → inside j)
    (hsame : ∀ i label j, inside i → leads i label j → leads' i label j)
    {i k : Nat} {text : List Char} (h : Path leads i text k) (hi : inside i) :
    Path leads' i text k := by
  induction h with
  | nil => exact .nil _
  | epsilon hstep _ ih => exact .epsilon (hsame _ _ _ hi hstep) (ih (hclosed _ _ _ hi hstep))
  | char hstep _ ih => exact .char (hsame _ _ _ hi hstep) (ih (hclosed _ _ _ hi hstep))

/-- Two relations that agree inside have the same paths there. -/
theorem path_congr_inside (hclosed : ∀ i label j, inside i → leads i label j → inside j)
    (hsame : ∀ i label j, inside i → (leads' i label j ↔ leads i label j))
    {i k : Nat} {text : List Char} (hi : inside i) :
    Path leads' i text k ↔ Path leads i text k :=
  ⟨fun h => h.congr_inside inside
      (fun i label j hi hj => hclosed i label j hi ((hsame i label j hi).mp hj))
      (fun i label j hi => (hsame i label j hi).mp) hi,
    fun h => h.congr_inside inside hclosed (fun i label j hi => (hsame i label j hi).mpr) hi⟩

end Closed

/-! ## Epsilon paths -/

/-- A path of epsilon transitions goes one transition further. -/
theorem EpsilonPath.snoc {leads : Relation} {avoid : Nat → Prop} {i j k : Nat}
    (h : EpsilonPath leads avoid i j) (hleads : leads j .epsilon k) (hk : ¬ avoid k) :
    EpsilonPath leads avoid i k := by
  induction h with
  | nil hi => exact .cons hi hleads (.nil hk)
  | cons hi hstep _ ih => exact .cons hi hstep (ih hleads)

/-- Where every transition leads below `n`, only the start of an epsilon
path has to be tested. -/
theorem epsilonPath_iff_path {leads : Relation} {n i j : Nat}
    (hleads : ∀ i label j, leads i label j → j < n) :
    EpsilonPath leads (fun k => n ≤ k) i j ↔ i < n ∧ Path leads i [] j := by
  constructor
  · intro h
    induction h with
    | nil hi => exact ⟨Nat.lt_of_not_le hi, .nil _⟩
    | cons hi hstep _ ih => exact ⟨Nat.lt_of_not_le hi, .epsilon hstep ih.2⟩
  · rintro ⟨hi, h⟩
    generalize hread : ([] : List Char) = read at h
    induction h with
    | nil => exact .nil (Nat.not_le.mpr hi)
    | epsilon hstep _ ih => exact .cons (Nat.not_le.mpr hi) hstep (ih (hleads _ _ _ hstep) hread)
    | char => cases hread

end Thompson
