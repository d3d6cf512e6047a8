import Mathlib.Data.List.Basic
import Thompson.Proofs.FragmentStates

/-!
# Constructions in a used builder

A construction in a builder that has states already makes what it makes
in a fresh one, with all numbers moved up by the number of those states,
and leaves these as they are (`Builder.construct_eq_onto`).

To say so, the states of one builder are put behind those of another
(`Builder.onto`). Every operation on builders commutes with that, if the
numbers it is given are moved up, so every rule does, and by recursion
every construction. No part of this needs to know that the numbers are
sound.
-/

namespace Thompson

/-! ## Moving numbers up -/

/-- The same labels, and `n` added to each of their targets. -/
def Transitions.shift (n : Nat) (t : Transitions) : Transitions where
  entries := t.entries.map fun e => (e.1, e.2.map (· + n))
  ascending := List.pairwise_map.mpr t.ascending

def State.shift (n : Nat) (s : State) : State := ⟨s.id + n, s.transitions.shift n⟩

def Fragment.shift (n : Nat) (f : Fragment) : Fragment where
  states := f.states.map (· + n)
  start := f.start + n
  accepts := f.accepts.map (· + n)

theorem Transitions.alter_map (n : Nat) (label : Label) (target : Nat)
    (entries : List (Label × Array Nat)) :
    alter label (·.push (target + n)) (entries.map fun e => (e.1, e.2.map (· + n))) =
      (alter label (·.push target) entries).map fun e => (e.1, e.2.map (· + n)) := by
  induction entries with
  | nil => simp [alter]
  | cons e entries ih =>
      rw [List.map_cons, alter, alter, ih]
      split
      · simp
      · split
        · simp
        · simp

theorem Transitions.shift_add (n : Nat) (t : Transitions) (label : Label) (target : Nat) :
    (t.add label target).shift n = (t.shift n).add label (target + n) := by
  simp only [add, shift, alter_map]

namespace Builder

variable {b base : Builder}

/-! ## One builder behind another -/

/-- The states of `b` behind those of `base`, and the characters of
both. -/
def onto (b base : Builder) : Builder where
  states := base.states ++ b.states.map (State.shift base.size)
  alphabet := b.alphabet.toList.foldl Alphabet.insert base.alphabet

theorem ext {b b' : Builder} (hstates : b.states = b'.states)
    (halphabet : ∀ c, c ∈ b.alphabet ↔ c ∈ b'.alphabet) : b = b' := by
  obtain ⟨states, alphabet⟩ := b
  obtain ⟨states', alphabet'⟩ := b'
  obtain rfl : states = states' := hstates
  obtain rfl : alphabet = alphabet' := Alphabet.ext halphabet
  rfl

theorem mem_alphabet_onto {c : Char} :
    c ∈ (b.onto base).alphabet ↔ c ∈ b.alphabet ∨ c ∈ base.alphabet :=
  Alphabet.mem_foldl_insert ..

theorem size_onto (b base : Builder) : (b.onto base).size = b.size + base.size := by
  rw [size, onto, Array.size_append, Array.size_map, Nat.add_comm]
  rfl

theorem fresh_onto (base : Builder) : fresh.onto base = base :=
  ext (by simp [onto, fresh]) fun c => by simp [mem_alphabet_onto, fresh]

theorem addState_onto (b base : Builder) : (b.onto base).addState = b.addState.onto base := by
  refine ext ?_ fun c => Iff.rfl
  have hsize : (b.onto base).states.size = b.size + base.size := size_onto b base
  rw [addState, hsize]
  simp only [onto, addState, Array.map_push, Array.append_push]
  rfl

theorem addLetter_onto (b base : Builder) (c : Char) :
    (b.onto base).addLetter c = (b.addLetter c).onto base := by
  refine ext rfl fun d => ?_
  show d ∈ (b.onto base).alphabet.insert c ↔ _
  rw [Alphabet.mem_insert, mem_alphabet_onto, mem_alphabet_onto, ← or_assoc]
  exact or_congr_left Alphabet.mem_insert.symm

/-- A number moved up is the place behind `base` of the state that it
was the place of, also where there is no such state. -/
theorem connect_onto (b base : Builder) (source : Nat) (label : Label) (target : Nat) :
    (b.onto base).connect (source + base.size) label (target + base.size) =
      (b.connect source label target).onto base := by
  refine ext (Array.ext_getElem? fun i => ?_) fun c => Iff.rfl
  rw [getElem?_connect]
  simp only [onto, Array.getElem?_append, Array.getElem?_map, getElem?_connect]
  by_cases hi : i < base.states.size
  · have hne : source + base.size ≠ i := by
      rw [size]
      omega
    simp only [hi, if_true, hne, if_false]
  · have hplace : source + base.size = i ↔ source = i - base.states.size := by
      rw [size]
      omega
    simp only [hi, if_false, hplace]
    split
    · cases b.states[i - base.states.size]? with
      | none => rfl
      | some s => simp [State.shift, Transitions.shift_add]
    · rfl

theorem connectAll_onto (b base : Builder) (sources : Array Nat) (target : Nat) :
    (b.onto base).connectAll (sources.map (· + base.size)) (target + base.size) =
      (b.connectAll sources target).onto base := by
  rw [connectAll_eq, connectAll_eq, Array.toList_map]
  generalize sources.toList = sources
  induction sources generalizing b with
  | nil => rfl
  | cons source sources ih => rw [List.map_cons, List.foldl_cons, List.foldl_cons, connect_onto, ih]

/-! ## The rules -/

/-- What a rule gives, behind `base`. -/
def joinedOnto (joined : Builder × Fragment) (base : Builder) : Builder × Fragment :=
  (joined.1.onto base, joined.2.shift base.size)

theorem symbolFragment_onto (b base : Builder) (c : Char) :
    (b.onto base).symbolFragment c = joinedOnto (b.symbolFragment c) base := by
  have hstop : b.size + base.size + 1 = b.size + 1 + base.size := Nat.add_right_comm ..
  refine Prod.ext ?_ ?_
  · simp only [symbolFragment, joinedOnto, size_onto, addState_onto, addLetter_onto, hstop,
      connect_onto]
  · simp [symbolFragment, joinedOnto, size_onto, hstop, Fragment.shift]

theorem unionFragment_onto (b base : Builder) (lhs rhs : Fragment) :
    (b.onto base).unionFragment (lhs.shift base.size) (rhs.shift base.size) =
      joinedOnto (b.unionFragment lhs rhs) base := by
  refine Prod.ext ?_ ?_
  · simp only [unionFragment, joinedOnto, size_onto, addState_onto, Fragment.shift, connect_onto]
  · simp [unionFragment, joinedOnto, size_onto, Fragment.shift]

theorem concatFragment_onto (b base : Builder) (lhs rhs : Fragment) :
    (b.onto base).concatFragment (lhs.shift base.size) (rhs.shift base.size) =
      joinedOnto (b.concatFragment lhs rhs) base := by
  refine Prod.ext ?_ ?_
  · simp only [concatFragment, joinedOnto, Fragment.shift, connectAll_onto]
  · simp [concatFragment, joinedOnto, Fragment.shift]

theorem starFragment_onto (b base : Builder) (operand : Fragment) :
    (b.onto base).starFragment (operand.shift base.size) =
      joinedOnto (b.starFragment operand) base := by
  refine Prod.ext ?_ ?_
  · simp only [starFragment, joinedOnto, size_onto, addState_onto, Fragment.shift, connect_onto,
      connectAll_onto]
  · simp [starFragment, joinedOnto, size_onto, Fragment.shift]

/-! ## Constructions -/

theorem construct_onto (b base : Builder) (p : Pattern) :
    ((b.onto base).construct p).builder = (b.construct p).builder.onto base ∧
      ((b.onto base).construct p).fragment = (b.construct p).fragment.shift base.size := by
  induction p generalizing b with
  | symbol c => exact Prod.mk.inj (symbolFragment_onto b base c)
  | union lhs rhs ihl ihr =>
      obtain ⟨hl, hlf⟩ := ihl b
      obtain ⟨hr, hrf⟩ := ihr (b.construct lhs).builder
      simp only [construct, close, hl, hlf, hr, hrf, unionFragment_onto]
      exact ⟨rfl, rfl⟩
  | concat lhs rhs ihl ihr =>
      obtain ⟨hl, hlf⟩ := ihl b
      obtain ⟨hr, hrf⟩ := ihr (b.construct lhs).builder
      simp only [construct, close, hl, hlf, hr, hrf, concatFragment_onto]
      exact ⟨rfl, rfl⟩
  | star operand ih =>
      obtain ⟨ho, hof⟩ := ih b
      simp only [construct, close, ho, hof, starFragment_onto]
      exact ⟨rfl, rfl⟩

theorem construct_eq_onto (b : Builder) (p : Pattern) :
    (b.construct p).builder = (fresh.construct p).builder.onto b ∧
      (b.construct p).fragment = (fresh.construct p).fragment.shift b.size := by
  have h := construct_onto fresh b p
  rwa [fresh_onto] at h

/-! ## Characters -/

@[simp] theorem alphabet_connectAll (b : Builder) (sources : Array Nat) (target : Nat) :
    (b.connectAll sources target).alphabet = b.alphabet := by
  rw [connectAll_eq]
  generalize sources.toList = sources
  induction sources generalizing b with
  | nil => rfl
  | cons source sources ih =>
      rw [List.foldl_cons, ih]
      rfl

/-- Only a symbol adds a character. -/
theorem mem_alphabet_construct {p : Pattern} {c : Char} :
    c ∈ (b.construct p).builder.alphabet ↔ c ∈ b.alphabet ∨ c ∈ p.symbols := by
  induction p generalizing b with
  | symbol d =>
      rw [Pattern.symbols, List.mem_singleton, or_comm]
      exact Alphabet.mem_insert
  | union lhs rhs ihl ihr =>
      show c ∈ ((b.construct lhs).builder.construct rhs).builder.alphabet ↔ _
      rw [ihr, ihl, Pattern.symbols, List.mem_append, or_assoc]
  | concat lhs rhs ihl ihr =>
      show c ∈ (connectAll _ _ _).alphabet ↔ _
      rw [alphabet_connectAll, ihr, ihl, Pattern.symbols, List.mem_append, or_assoc]
  | star operand ih =>
      show c ∈ (connectAll _ _ _).alphabet ↔ _
      rw [alphabet_connectAll]
      exact ih

/-! ## Several constructions -/

/-- Two fragments have no state in common, and no transition leads from
one to the other. -/
structure Apart (b : Builder) (f g : Fragment) : Prop where
  disjoint : f.states.toList.Disjoint g.states.toList
  not_leads : ∀ i ∈ f.states.toList, ∀ label, ∀ j ∈ g.states.toList,
    ¬ b.Leads i label j ∧ ¬ b.Leads j label i

theorem le_of_mem_states_buildAll {ps : List Pattern} {f : Fragment}
    (hf : f ∈ (b.buildAll ps).2) {i : Nat} (hi : i ∈ f.states.toList) : b.size ≤ i := by
  induction ps generalizing b with
  | nil => cases hf
  | cons p ps ih =>
      rw [buildAll, build_eq] at hf
      rcases List.mem_cons.mp hf with rfl | hf
      · exact (mem_states_construct.mp hi).1
      · exact Nat.le_trans (adds_construct p b).size_le (ih hf)

/-- What is built later leads to nothing that was there before. -/
theorem le_of_leads_buildAll {ps : List Pattern} {i j : Nat} {label : Label} (hi : b.size ≤ i)
    (h : (b.buildAll ps).1.Leads i label j) : b.size ≤ j := by
  induction ps generalizing b with
  | nil => exact absurd (lt_size_of_leads h) (Nat.not_lt.mpr hi)
  | cons p ps ih =>
      have hadds := adds_construct p b
      rw [buildAll, build_eq] at h
      by_cases hlt : i < (b.construct p).builder.size
      · exact (hadds.closed_of_same (buildAll_same ps _).2 i label j ⟨hi, hlt⟩ h).1
      · exact Nat.le_trans hadds.size_le (ih (Nat.le_of_not_lt hlt) h)

theorem apart_buildAll (ps : List Pattern) (b : Builder) :
    (b.buildAll ps).2.Pairwise (Apart (b.buildAll ps).1) := by
  induction ps generalizing b with
  | nil => exact .nil
  | cons p ps ih =>
      have hadds := adds_construct p b
      have hsame := (buildAll_same ps (b.construct p).builder).2
      rw [buildAll, build_eq]
      refine .cons (fun g hg => ?_) (ih _)
      have hnew : ∀ {i}, i ∈ (b.construct p).fragment.states.toList →
          b.size ≤ i ∧ i < (b.construct p).builder.size := mem_states_construct.mp
      have hlater : ∀ {j}, j ∈ g.states.toList → (b.construct p).builder.size ≤ j :=
        le_of_mem_states_buildAll hg
      refine ⟨fun i hi hig => ?_, fun i hi label j hj => ⟨fun h => ?_, fun h => ?_⟩⟩
      · exact Nat.not_lt.mpr (hlater hig) (hnew hi).2
      · have hinside := hadds.closed_of_same hsame i label j (hnew hi) h
        exact Nat.not_lt.mpr (hlater hj) hinside.2
      · have hbehind := le_of_leads_buildAll (hlater hj) h
        exact Nat.not_lt.mpr hbehind (hnew hi).2

/-! ## All of it -/

/-- A construction keeps the states that are there and puts those of a
fresh construction behind them, moved up; its fragment is the fresh one,
moved up, and the new characters are those of the pattern. However many
are built one after another, their fragments are apart. -/
theorem build_relocates (b : Builder) (p : Pattern) :
    (b.build p).builder.states =
        b.states ++ (fresh.build p).builder.states.map (State.shift b.size) ∧
      (b.build p).fragment = (fresh.build p).fragment.shift b.size ∧
      (∀ c, c ∈ (b.build p).builder.alphabet ↔ c ∈ b.alphabet ∨ c ∈ p.symbols) ∧
      ∀ ps : List Pattern, (b.buildAll ps).2.Pairwise (Apart (b.buildAll ps).1) := by
  obtain ⟨hbuilder, hfragment⟩ := construct_eq_onto b p
  simp only [build_eq]
  refine ⟨?_, hfragment, fun c => mem_alphabet_construct, fun ps => apart_buildAll ps b⟩
  rw [hbuilder]
  rfl

end Builder

end Thompson
