import Mathlib.Tactic.Tauto
import Thompson.Automaton.Path
import Thompson.Construction

/-!
# What the rules of fragments add

Each rule changes a builder in a way that is said here once: which
transitions there are afterwards (`leads_unionFragment` and its like),
which states the fragment lists (`states_unionFragment`,
`accepts_unionFragment`), which labels are listed, which states are as
before, and that a sound builder stays sound. Everything else about a
construction is derived from that.
-/

namespace Thompson

namespace Builder

variable {b : Builder}

/-- The transitions of the states made so far. -/
def Leads (b : Builder) : Relation := fun i label j =>
  ∃ s : State, b.states[i]? = some s ∧ j ∈ s.transitions.targets label

/-- Some state lists the label. -/
def Lists (b : Builder) (label : Label) : Prop :=
  ∃ (i : Nat) (s : State), b.states[i]? = some s ∧ label ∈ s.transitions.labels

theorem lt_size_of_leads {i j : Nat} {label : Label} (h : b.Leads i label j) : i < b.size := by
  obtain ⟨s, hs, -⟩ := h
  exact (Array.getElem?_eq_some_iff.mp hs).1

/-! ## One more state -/

@[simp] theorem size_addState (b : Builder) : b.addState.size = b.size + 1 := by
  simp [addState, size]

theorem getElem?_addState (b : Builder) (i : Nat) :
    b.addState.states[i]? = if i = b.size then some ⟨b.size, .empty⟩ else b.states[i]? := by
  rw [addState, Array.getElem?_push, size]

@[simp] theorem leads_addState {i j : Nat} {label : Label} :
    b.addState.Leads i label j ↔ b.Leads i label j := by
  simp only [Leads, getElem?_addState]
  constructor
  · rintro ⟨s, hs, hj⟩
    split at hs
    · obtain rfl := Option.some.inj hs
      cases hj
    · exact ⟨s, hs, hj⟩
  · rintro ⟨s, hs, hj⟩
    have hi : i ≠ b.size := Nat.ne_of_lt (Array.getElem?_eq_some_iff.mp hs).1
    exact ⟨s, by rw [if_neg hi, hs], hj⟩

@[simp] theorem lists_addState {label : Label} : b.addState.Lists label ↔ b.Lists label := by
  simp only [Lists, getElem?_addState]
  constructor
  · rintro ⟨i, s, hs, hlabel⟩
    split at hs
    · obtain rfl := Option.some.inj hs
      cases hlabel
    · exact ⟨i, s, hs, hlabel⟩
  · rintro ⟨i, s, hs, hlabel⟩
    have hi : i ≠ b.size := Nat.ne_of_lt (Array.getElem?_eq_some_iff.mp hs).1
    exact ⟨i, s, by rw [if_neg hi, hs], hlabel⟩

/-! ## One more transition -/

@[simp] theorem size_connect (b : Builder) (source : Nat) (label : Label) (target : Nat) :
    (b.connect source label target).size = b.size := by
  simp [connect, size]

theorem getElem?_connect (b : Builder) (source : Nat) (label : Label) (target i : Nat) :
    (b.connect source label target).states[i]? =
      if source = i then
        b.states[i]?.map fun s => { s with transitions := s.transitions.add label target }
      else b.states[i]? := by
  rw [connect, Array.getElem?_modify]

theorem leads_connect {source target i j : Nat} {label l : Label} (h : source < b.size) :
    (b.connect source label target).Leads i l j ↔
      b.Leads i l j ∨ i = source ∧ l = label ∧ j = target := by
  have hsource : b.states[source]? = some b.states[source] := Array.getElem?_eq_getElem h
  simp only [Leads, getElem?_connect]
  by_cases hi : source = i
  · subst hi
    simp only [if_true, hsource, Option.map_some, Option.some.injEq, exists_eq_left',
      Transitions.targets_add]
    by_cases hl : l = label
    · simp [hl]
    · simp [hl]
  · simp [hi, Ne.symm hi]

theorem lists_connect {source target : Nat} {label l : Label} (h : source < b.size) :
    (b.connect source label target).Lists l ↔ b.Lists l ∨ l = label := by
  have hsource : b.states[source]? = some b.states[source] := Array.getElem?_eq_getElem h
  simp only [Lists, getElem?_connect]
  constructor
  · rintro ⟨i, s, hs, hl⟩
    split at hs
    · next hi =>
        subst hi
        rw [hsource, Option.map_some] at hs
        obtain rfl := Option.some.inj hs
        rcases Transitions.mem_labels_add.mp hl with rfl | hl
        · exact Or.inr rfl
        · exact Or.inl ⟨source, _, hsource, hl⟩
    · exact Or.inl ⟨i, s, hs, hl⟩
  · rintro (⟨i, s, hs, hl⟩ | rfl)
    · by_cases hi : source = i
      · exact ⟨i, _, by rw [if_pos hi, hs, Option.map_some],
          Transitions.mem_labels_add.mpr (Or.inr hl)⟩
      · exact ⟨i, s, by rw [if_neg hi, hs], hl⟩
    · exact ⟨source, _, by rw [if_pos rfl, hsource, Option.map_some],
        Transitions.mem_labels_add.mpr (Or.inl rfl)⟩

/-! ## Transitions from several states -/

theorem connectAll_eq (b : Builder) (sources : Array Nat) (target : Nat) :
    b.connectAll sources target =
      sources.toList.foldl (fun b source => b.connect source .epsilon target) b := by
  rw [connectAll, Array.foldl_toList]

@[simp] theorem size_connectAll (b : Builder) (sources : Array Nat) (target : Nat) :
    (b.connectAll sources target).size = b.size := by
  rw [connectAll_eq]
  generalize sources.toList = sources
  induction sources generalizing b with
  | nil => rfl
  | cons source sources ih => rw [List.foldl_cons, ih, size_connect]

theorem getElem?_connectAll_of_not_mem {sources : Array Nat} {target i : Nat}
    (h : i ∉ sources.toList) : (b.connectAll sources target).states[i]? = b.states[i]? := by
  rw [connectAll_eq]
  generalize sources.toList = sources at h
  induction sources generalizing b with
  | nil => rfl
  | cons source sources ih =>
      have hne : source ≠ i := by
        rintro rfl
        exact h List.mem_cons_self
      rw [List.foldl_cons, ih (fun hi => h (List.mem_cons_of_mem _ hi)), getElem?_connect,
        if_neg hne]

theorem leads_connectAll {sources : Array Nat} {target i j : Nat} {label : Label}
    (h : ∀ i ∈ sources.toList, i < b.size) :
    (b.connectAll sources target).Leads i label j ↔
      b.Leads i label j ∨ i ∈ sources.toList ∧ label = .epsilon ∧ j = target := by
  rw [connectAll_eq]
  generalize sources.toList = sources at h ⊢
  induction sources generalizing b with
  | nil => simp
  | cons source sources ih =>
      have hrest : ∀ i ∈ sources, i < (b.connect source .epsilon target).size := fun i hi =>
        (size_connect b _ _ _).symm ▸ h i (List.mem_cons_of_mem _ hi)
      rw [List.foldl_cons, ih hrest,
        leads_connect (h source List.mem_cons_self), List.mem_cons, or_and_right, or_assoc]

/-! ## Sound builders -/

/-- What holds of the states and the alphabet of a builder at any
time. -/
structure Sound (b : Builder) : Prop where
  id_eq : ∀ (i : Nat) (s : State), b.states[i]? = some s → s.id = i
  lt_of_leads : ∀ i label j, b.Leads i label j → j < b.size
  mem_alphabet_iff : ∀ c, c ∈ b.alphabet ↔ b.Lists (.char c)

theorem sound_fresh : fresh.Sound where
  id_eq i s hs := by cases hs
  lt_of_leads i label j h := by
    obtain ⟨s, hs, -⟩ := h
    cases hs
  mem_alphabet_iff c := by
    constructor
    · exact fun h => absurd h (Alphabet.not_mem_empty c)
    · rintro ⟨i, s, hs, -⟩
      cases hs

theorem Sound.addState (h : b.Sound) : b.addState.Sound where
  id_eq i s hs := by
    rw [getElem?_addState] at hs
    split at hs
    · next hi =>
        obtain rfl := Option.some.inj hs
        exact hi.symm
    · exact h.id_eq i s hs
  lt_of_leads i label j hj := by
    rw [size_addState]
    exact Nat.lt_succ_of_lt (h.lt_of_leads i label j (leads_addState.mp hj))
  mem_alphabet_iff c := by
    rw [lists_addState]
    exact h.mem_alphabet_iff c

theorem id_eq_connect (h : b.Sound) {source target : Nat} {label : Label} (i : Nat) (s : State)
    (hs : (b.connect source label target).states[i]? = some s) : s.id = i := by
  rw [getElem?_connect] at hs
  split at hs
  · cases ht : b.states[i]? with
    | none =>
        rw [ht] at hs
        cases hs
    | some t =>
        rw [ht] at hs
        obtain rfl := Option.some.inj hs
        exact h.id_eq i t ht
  · exact h.id_eq i s hs

theorem Sound.connect (h : b.Sound) {source target : Nat} (hsource : source < b.size)
    (htarget : target < b.size) : (b.connect source .epsilon target).Sound where
  id_eq := id_eq_connect h
  lt_of_leads i label j hj := by
    rw [size_connect]
    rcases (leads_connect hsource).mp hj with hj | ⟨-, -, rfl⟩
    · exact h.lt_of_leads i label j hj
    · exact htarget
  mem_alphabet_iff c := by
    rw [lists_connect hsource, or_iff_left nofun]
    exact h.mem_alphabet_iff c

theorem Sound.connectAll (h : b.Sound) {sources : Array Nat} {target : Nat}
    (hsources : ∀ i ∈ sources.toList, i < b.size) (htarget : target < b.size) :
    (b.connectAll sources target).Sound := by
  rw [connectAll_eq]
  generalize sources.toList = sources at hsources ⊢
  induction sources generalizing b with
  | nil => exact h
  | cons source sources ih =>
      refine ih (h.connect (hsources source List.mem_cons_self) htarget) ?_ fun i hi => ?_
      · rwa [size_connect]
      · rw [size_connect]
        exact hsources i (List.mem_cons_of_mem _ hi)

/-! ## The rules -/

theorem size_symbolFragment (b : Builder) (c : Char) :
    (b.symbolFragment c).1.size = b.size + 2 := by
  rw [symbolFragment, size_connect]
  exact (size_addState _).trans (by rw [size_addState])

theorem leads_symbolFragment {c : Char} {i j : Nat} {label : Label} :
    (b.symbolFragment c).1.Leads i label j ↔
      b.Leads i label j ∨ i = b.size ∧ label = .char c ∧ j = b.size + 1 := by
  have hsize : b.size < (b.addState.addState.addLetter c).size := by
    show b.size < b.addState.addState.size
    simp only [size_addState]
    omega
  have hleads : (b.addState.addState.addLetter c).Leads i label j ↔ b.Leads i label j :=
    leads_addState.trans leads_addState
  rw [symbolFragment, leads_connect hsize, hleads]

theorem Sound.symbolFragment (h : b.Sound) (c : Char) : (b.symbolFragment c).1.Sound where
  id_eq i s hs := by
    have hletter : (b.addState.addState.addLetter c).states = b.addState.addState.states := rfl
    rw [Builder.symbolFragment, getElem?_connect, hletter, ← getElem?_connect] at hs
    exact id_eq_connect h.addState.addState i s hs
  lt_of_leads i label j hj := by
    rw [size_symbolFragment]
    rcases leads_symbolFragment.mp hj with hj | ⟨-, -, rfl⟩
    · exact Nat.lt_add_right 2 (h.lt_of_leads i label j hj)
    · omega
  mem_alphabet_iff d := by
    have hsize : b.size < (b.addState.addState.addLetter c).size := by
      show b.size < b.addState.addState.size
      simp only [size_addState]
      omega
    have hlists : (b.addState.addState.addLetter c).Lists (.char d) ↔ b.Lists (.char d) :=
      lists_addState.trans lists_addState
    rw [Builder.symbolFragment, lists_connect hsize, hlists, ← h.mem_alphabet_iff,
      Label.char.injEq, or_comm]
    exact Alphabet.mem_insert

theorem size_unionFragment (b : Builder) (lhs rhs : Fragment) :
    (b.unionFragment lhs rhs).1.size = b.size + 1 := by
  simp [unionFragment]

theorem states_unionFragment (b : Builder) (lhs rhs : Fragment) :
    (b.unionFragment lhs rhs).2.states.toList =
      b.size :: (lhs.states.toList ++ rhs.states.toList) := by
  simp [unionFragment]

theorem accepts_unionFragment (b : Builder) (lhs rhs : Fragment) :
    (b.unionFragment lhs rhs).2.accepts.toList = lhs.accepts.toList ++ rhs.accepts.toList :=
  Array.toList_append

theorem leads_unionFragment {lhs rhs : Fragment} {i j : Nat} {label : Label} :
    (b.unionFragment lhs rhs).1.Leads i label j ↔
      b.Leads i label j ∨ i = b.size ∧ label = .epsilon ∧ (j = lhs.start ∨ j = rhs.start) := by
  rw [unionFragment, leads_connect (by simp), leads_connect (by simp), leads_addState]
  tauto

theorem Sound.unionFragment (h : b.Sound) {lhs rhs : Fragment} (hl : lhs.start < b.size)
    (hr : rhs.start < b.size) : (b.unionFragment lhs rhs).1.Sound :=
  (h.addState.connect (by simp) (by rw [size_addState]; omega)).connect (by simp)
    (by rw [size_connect, size_addState]; omega)

theorem size_concatFragment (b : Builder) (lhs rhs : Fragment) :
    (b.concatFragment lhs rhs).1.size = b.size :=
  size_connectAll b lhs.accepts rhs.start

theorem states_concatFragment (b : Builder) (lhs rhs : Fragment) :
    (b.concatFragment lhs rhs).2.states.toList = lhs.states.toList ++ rhs.states.toList :=
  Array.toList_append

theorem leads_concatFragment {lhs rhs : Fragment} (h : ∀ i ∈ lhs.accepts.toList, i < b.size)
    {i j : Nat} {label : Label} :
    (b.concatFragment lhs rhs).1.Leads i label j ↔
      b.Leads i label j ∨ i ∈ lhs.accepts.toList ∧ label = .epsilon ∧ j = rhs.start :=
  leads_connectAll h

theorem Sound.concatFragment (h : b.Sound) {lhs rhs : Fragment}
    (hl : ∀ i ∈ lhs.accepts.toList, i < b.size) (hr : rhs.start < b.size) :
    (b.concatFragment lhs rhs).1.Sound :=
  h.connectAll hl hr

theorem size_starFragment (b : Builder) (operand : Fragment) :
    (b.starFragment operand).1.size = b.size + 1 := by
  simp [starFragment]

theorem states_starFragment (b : Builder) (operand : Fragment) :
    (b.starFragment operand).2.states.toList = operand.states.toList ++ [b.size] :=
  Array.toList_push

theorem accepts_starFragment (b : Builder) (operand : Fragment) :
    (b.starFragment operand).2.accepts.toList = operand.accepts.toList ++ [b.size] :=
  Array.toList_push

/-- The new start of a star leads where the accept states of the operand
are made to lead. -/
theorem leads_starFragment {operand : Fragment} (h : ∀ i ∈ operand.accepts.toList, i < b.size)
    {i j : Nat} {label : Label} :
    (b.starFragment operand).1.Leads i label j ↔
      b.Leads i label j ∨
        (i ∈ operand.accepts.toList ∨ i = b.size) ∧ label = .epsilon ∧ j = operand.start := by
  have hlt : ∀ i ∈ operand.accepts.toList,
      i < (b.addState.connect b.size .epsilon operand.start).size := by
    intro i hi
    rw [size_connect, size_addState]
    exact Nat.lt_succ_of_lt (h i hi)
  rw [starFragment, leads_connectAll hlt, leads_connect (by simp), leads_addState]
  tauto

theorem Sound.starFragment (h : b.Sound) {operand : Fragment}
    (haccepts : ∀ i ∈ operand.accepts.toList, i < b.size) (hstart : operand.start < b.size) :
    (b.starFragment operand).1.Sound := by
  refine (h.addState.connect (by simp) ?_).connectAll (fun i hi => ?_) ?_
  · rw [size_addState]
    exact Nat.lt_succ_of_lt hstart
  · rw [size_connect, size_addState]
    exact Nat.lt_succ_of_lt (haccepts i hi)
  · rw [size_connect, size_addState]
    exact Nat.lt_succ_of_lt hstart

end Builder

end Thompson
