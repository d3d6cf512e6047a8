import Thompson.Proofs.Drawings
import Thompson.Proofs.Edges

/-!
# The shape of a constructed automaton

Every state of the automaton of a pattern has either one transition, on a
character, or epsilon transitions only; no transition is there twice, and
none enters the start state (`Automaton.shaped_ofPattern`). Nothing in
the rules looks whether a transition exists already. What makes up for it
is that a rule leads to the start states of its operands only, and that
nothing has led to the start of a fragment before
(`Builder.target_ne_start_made`).

`Neat` is the part of this that holds of any collection of transitions,
so that it can be kept from one rule to the next.
-/

namespace Thompson

/-! ## Collections of transitions -/

/-- No transition is there twice, and one on a character is the only one
of its source. -/
structure Neat (es : List Edge) : Prop where
  nodup : es.Nodup
  alone : ∀ e ∈ es, e.label ≠ .epsilon → ∀ e' ∈ es, e'.source = e.source → e' = e

namespace Neat

variable {es es' : List Edge}

theorem perm (h : Neat es) (hperm : es.Perm es') : Neat es' where
  nodup := hperm.nodup_iff.mp h.nodup
  alone e he hlabel e' he' :=
    h.alone e (hperm.mem_iff.mpr he) hlabel e' (hperm.mem_iff.mpr he')

/-- Two collections that start from different states. -/
theorem append (h : Neat es) (h' : Neat es')
    (hapart : ∀ e ∈ es, ∀ e' ∈ es', e.source ≠ e'.source) : Neat (es ++ es') where
  nodup := by
    refine List.nodup_append.mpr ⟨h.nodup, h'.nodup, ?_⟩
    rintro e he e' he' rfl
    exact hapart e he e he' rfl
  alone e he hlabel e' he' hsource := by
    rcases List.mem_append.mp he with he | he
    · rcases List.mem_append.mp he' with he' | he'
      · exact h.alone e he hlabel e' he' hsource
      · exact absurd hsource.symm (hapart e he e' he')
    · rcases List.mem_append.mp he' with he' | he'
      · exact absurd hsource (hapart e' he' e he)
      · exact h'.alone e he hlabel e' he' hsource

/-- Bridges are new where they start from has not led to `target` before,
and stay clear of characters where nothing there reads one. -/
theorem bridges (h : Neat es) {sources : List Nat} {target : Nat} (hnodup : sources.Nodup)
    (hnew : ∀ e ∈ es, e.source ∈ sources → e.label = .epsilon ∧ e.target ≠ target) :
    Neat (es ++ bridges sources target) where
  nodup := by
    refine List.nodup_append.mpr ⟨h.nodup, ?_, ?_⟩
    · exact hnodup.map fun i j hij => (Edge.mk.inj hij).1
    · rintro e he e' he' rfl
      obtain ⟨hsource, -, htarget⟩ := mem_bridges.mp he'
      exact (hnew e he hsource).2 htarget
  alone e he hlabel e' he' hsource := by
    rcases List.mem_append.mp he with he | he
    · rcases List.mem_append.mp he' with he' | he'
      · exact h.alone e he hlabel e' he' hsource
      · have hbridge := (mem_bridges.mp he').1
        exact absurd (hnew e he (hsource ▸ hbridge)).1 hlabel
    · exact absurd (mem_bridges.mp he).2.1 hlabel

end Neat

/-! ## The transitions of a pattern -/

namespace Builder

variable {b : Builder} {p : Pattern}

/-- Nothing leads to where a fragment starts. -/
theorem target_ne_start_made : ∀ e ∈ b.made p, e.target ≠ (b.construct p).fragment.start := by
  induction p generalizing b with
  | symbol c =>
      intro e he
      obtain rfl := List.mem_singleton.mp he
      exact Nat.succ_ne_self _
  | union lhs rhs =>
      have hl := adds_construct lhs b
      have hr := adds_construct rhs (b.construct lhs).builder
      have hsize := hr.size_le
      have hlstart := hl.start_mem
      have hrstart := hr.start_mem
      have hstart : (b.construct (.union lhs rhs)).fragment.start =
          ((b.construct lhs).builder.construct rhs).builder.size := rfl
      intro e he
      simp only [made, List.mem_append, mem_bridges] at he
      rcases he with ((he | he) | ⟨-, -, htarget⟩) | ⟨-, -, htarget⟩
      · have := (within_made e he).target_lt
        omega
      · have := (within_made e he).target_lt
        omega
      · omega
      · omega
  | concat lhs rhs ihl =>
      have hl := adds_construct lhs b
      have hr := adds_construct rhs (b.construct lhs).builder
      have hlstart := hl.start_mem
      have hrstart := hr.start_mem
      have hstart : (b.construct (.concat lhs rhs)).fragment.start =
          (b.construct lhs).fragment.start := rfl
      intro e he
      simp only [made, List.mem_append, mem_bridges] at he
      rcases he with (he | he) | ⟨-, -, htarget⟩
      · exact ihl e he
      · have := (within_made e he).le_target
        omega
      · omega
  | star operand =>
      have ho := adds_construct operand b
      have hostart := ho.start_mem
      have hstart : (b.construct (.star operand)).fragment.start =
          (b.construct operand).builder.size := rfl
      intro e he
      simp only [made, List.mem_append, mem_bridges] at he
      rcases he with he | ⟨-, -, htarget⟩
      · have := (within_made e he).target_lt
        omega
      · omega

/-- No accept state reads a character. -/
theorem label_eq_of_mem_made {e : Edge} (he : e ∈ b.made p)
    (haccept : e.source ∈ (b.construct p).fragment.accepts.toList) : e.label = .epsilon := by
  induction p generalizing b with
  | symbol c =>
      obtain rfl := List.mem_singleton.mp he
      exact absurd (List.mem_singleton.mp haccept) (Nat.succ_ne_self b.size).symm
  | union lhs rhs ihl ihr =>
      have hl := adds_construct lhs b
      have hr := adds_construct rhs (b.construct lhs).builder
      rw [construct, close, accepts_unionFragment, List.mem_append] at haccept
      simp only [made, List.mem_append, mem_bridges] at he
      rcases he with ((he | he) | ⟨-, hlabel, -⟩) | ⟨-, hlabel, -⟩
      · have hwithin := (within_made e he).source_lt
        refine ihl he (haccept.resolve_right fun haccept => ?_)
        have := hr.accepts_mem _ haccept
        omega
      · have hwithin := (within_made e he).le_source
        refine ihr he (haccept.resolve_left fun haccept => ?_)
        have := hl.accepts_mem _ haccept
        omega
      · exact hlabel
      · exact hlabel
  | concat lhs rhs ihl ihr =>
      have hr := adds_construct rhs (b.construct lhs).builder
      simp only [made, List.mem_append, mem_bridges] at he
      rcases he with (he | he) | ⟨-, hlabel, -⟩
      · have hwithin := (within_made e he).source_lt
        have := hr.accepts_mem _ haccept
        omega
      · exact ihr he haccept
      · exact hlabel
  | star operand ih =>
      rw [construct, close, accepts_starFragment, List.mem_append, List.mem_singleton] at haccept
      simp only [made, List.mem_append, mem_bridges] at he
      rcases he with he | ⟨-, hlabel, -⟩
      · have hwithin := (within_made e he).source_lt
        exact ih he (haccept.resolve_right (Nat.ne_of_lt hwithin))
      · exact hlabel

/-- Two operands built in turn have no source in common. -/
theorem source_ne_of_mem_made {q : Pattern} {e e' : Edge} (he : e ∈ b.made p)
    (he' : e' ∈ (b.construct p).builder.made q) : e.source ≠ e'.source :=
  Nat.ne_of_lt (Nat.lt_of_lt_of_le (within_made e he).source_lt (within_made e' he').le_source)

/-- The new bridges start at a new state, or at accept states of the left
operand, or of the operand; and they lead where nothing has led. -/
theorem neat_made (b : Builder) (p : Pattern) : Neat (b.made p) := by
  induction p generalizing b with
  | symbol c =>
      refine ⟨List.nodup_singleton _, fun e he _ e' he' _ => ?_⟩
      rw [List.mem_singleton.mp he, List.mem_singleton.mp he']
  | union lhs rhs ihl ihr =>
      have hl := adds_construct lhs b
      have hr := adds_construct rhs (b.construct lhs).builder
      have hsize := hr.size_le
      have hlstart := hl.start_mem
      have hrstart := hr.start_mem
      have hwithin : ∀ e ∈ b.made lhs ++ (b.construct lhs).builder.made rhs,
          e.source < ((b.construct lhs).builder.construct rhs).builder.size := by
        intro e he
        rcases List.mem_append.mp he with he | he
        · exact Nat.lt_of_lt_of_le (within_made e he).source_lt hsize
        · exact (within_made e he).source_lt
      have hoperands := (ihl b).append (ihr (b.construct lhs).builder) fun _ he _ he' =>
        source_ne_of_mem_made he he'
      refine (hoperands.bridges (List.nodup_singleton _) fun e he hsource => ?_).bridges
        (List.nodup_singleton _) fun e he hsource => ?_
      · exact absurd (List.mem_singleton.mp hsource) (Nat.ne_of_lt (hwithin e he))
      · rcases List.mem_append.mp he with he | he
        · exact absurd (List.mem_singleton.mp hsource) (Nat.ne_of_lt (hwithin e he))
        · obtain ⟨-, hlabel, htarget⟩ := mem_bridges.mp he
          refine ⟨hlabel, ?_⟩
          omega
  | concat lhs rhs ihl ihr =>
      have hl := adds_construct lhs b
      have hr := adds_construct rhs (b.construct lhs).builder
      have hrstart := hr.start_mem
      have hoperands := (ihl b).append (ihr (b.construct lhs).builder) fun _ he _ he' =>
        source_ne_of_mem_made he he'
      refine hoperands.bridges (nodup_accepts_construct b lhs) fun e he hsource => ?_
      rcases List.mem_append.mp he with he | he
      · refine ⟨label_eq_of_mem_made he hsource, ?_⟩
        have := (within_made e he).target_lt
        omega
      · have := (within_made e he).le_source
        have := hl.accepts_mem _ hsource
        omega
  | star operand ih =>
      have ho := adds_construct operand b
      have hnodup : ((b.construct operand).builder.size ::
          (b.construct operand).fragment.accepts.toList).Nodup := by
        refine List.nodup_cons.mpr ⟨fun haccept => ?_, nodup_accepts_construct b operand⟩
        exact absurd (ho.accepts_mem _ haccept).2 (Nat.lt_irrefl _)
      refine (ih b).bridges hnodup fun e he hsource => ⟨?_, target_ne_start_made e he⟩
      rcases List.mem_cons.mp hsource with hsource | hsource
      · exact absurd hsource (Nat.ne_of_lt (within_made e he).source_lt)
      · exact label_eq_of_mem_made he hsource

end Builder

/-! ## Characters -/

/-- The character that a transition reads. -/
def Edge.letter? (e : Edge) : Option Char :=
  match e.label with
  | .epsilon => none
  | .char c => some c

theorem filterMap_letter?_bridges (sources : List Nat) (target : Nat) :
    (bridges sources target).filterMap Edge.letter? = [] := by
  rw [bridges, List.filterMap_map]
  exact List.filterMap_eq_nil_iff.mpr fun _ _ => rfl

/-- There is one transition for each leaf, and it reads the character of
the leaf. -/
theorem Builder.filterMap_letter?_made (b : Builder) (p : Pattern) :
    (b.made p).filterMap Edge.letter? = p.symbols := by
  induction p generalizing b with
  | symbol c => rfl
  | union lhs rhs ihl ihr =>
      simp only [made, List.filterMap_append, filterMap_letter?_bridges, ihl, ihr,
        List.append_nil, Pattern.symbols]
  | concat lhs rhs ihl ihr =>
      simp only [made, List.filterMap_append, filterMap_letter?_bridges, ihl, ihr,
        List.append_nil, Pattern.symbols]
  | star operand ih =>
      simp only [made, List.filterMap_append, filterMap_letter?_bridges, ih, List.append_nil,
        Pattern.symbols]

namespace Automaton

variable {a : Automaton}

/-! ## The transitions of a state -/

theorem WellFormed.mem_transitions_iff (h : a.WellFormed) {i j : Nat} {label : Label} :
    (label, j) ∈ a.transitions i ↔ ⟨i, label, j⟩ ∈ a.edges := by
  simp only [h.transitions_eq, List.mem_map, List.mem_filter, decide_eq_true_eq, Prod.mk.injEq]
  constructor
  · rintro ⟨⟨i', label', j'⟩, ⟨he, rfl⟩, rfl, rfl⟩
    exact he
  · exact fun he => ⟨_, ⟨he, rfl⟩, rfl, rfl⟩

theorem WellFormed.nodup_transitions (h : a.WellFormed) (hnodup : a.edges.Nodup) (i : Nat) :
    (a.transitions i).Nodup := by
  rw [h.transitions_eq]
  refine (hnodup.filter _).map_on ?_
  rintro ⟨source, label, target⟩ he ⟨source', label', target'⟩ he' heq
  obtain rfl : source = i := by simpa using (List.mem_filter.mp he).2
  obtain rfl : source' = source := by simpa using (List.mem_filter.mp he').2
  obtain ⟨rfl, rfl⟩ := Prod.mk.inj heq
  rfl

/-- A transition on a character leaves no room for another one. -/
theorem WellFormed.transitions_cases (h : a.WellFormed) (hneat : Neat a.edges) (i : Nat) :
    (∃ c j, a.transitions i = [(.char c, j)]) ∨ ∀ t ∈ a.transitions i, t.1 = .epsilon := by
  by_cases hsilent : ∀ t ∈ a.transitions i, t.1 = .epsilon
  · exact Or.inr hsilent
  · left
    simp only [not_forall, exists_prop] at hsilent
    obtain ⟨⟨label, j⟩, ht, hlabel⟩ := hsilent
    cases label with
    | epsilon => exact absurd rfl hlabel
    | char c =>
        refine ⟨c, j, List.perm_singleton.mp ?_⟩
        refine (List.perm_ext_iff_of_nodup (h.nodup_transitions hneat.nodup i)
          (List.nodup_singleton _)).mpr fun t => ?_
        rw [List.mem_singleton]
        constructor
        · intro ht'
          have heq := hneat.alone _ (h.mem_transitions_iff.mp ht) nofun _
            (h.mem_transitions_iff.mp ht') rfl
          obtain ⟨-, hlabel', htarget⟩ := Edge.mk.inj heq
          exact Prod.ext hlabel' htarget
        · rintro rfl
          exact ht

/-! ## All of it -/

/-- What is to be seen of the construction in an automaton. -/
structure Shaped (a : Automaton) (p : Pattern) : Prop where
  nodup : ∀ i, (a.transitions i).Nodup
  start_unentered : ∀ i, ∀ t ∈ a.transitions i, t.2 ≠ a.start
  reads_or_silent : ∀ i < a.size,
    (∃ c j, a.transitions i = [(.char c, j)]) ∨ ∀ t ∈ a.transitions i, t.1 = .epsilon
  letters_perm : (a.edges.filterMap Edge.letter?).Perm p.symbols
  accepting_silent : ∀ i, a.accepting.contains i = true →
    ∀ t ∈ a.transitions i, t.1 = .epsilon

/-- The automaton of a pattern has one transition on a character for each
leaf and epsilon transitions otherwise, each of them once, none out of
the same state as one on a character, and none into the start state. Its
accept states read nothing. -/
theorem shaped_ofPattern (p : Pattern) (regex : String) : (ofPattern p regex).Shaped p := by
  have hwf := wellFormed_ofPattern p regex
  have hperm := edges_ofPattern_perm p regex
  have hneat := (Builder.neat_made .fresh p).perm hperm.symm
  have hmade : ∀ {i label j}, (label, j) ∈ (ofPattern p regex).transitions i →
      ⟨i, label, j⟩ ∈ Builder.fresh.made p :=
    fun ht => hperm.mem_iff.mp (hwf.mem_transitions_iff.mp ht)
  refine ⟨hwf.nodup_transitions hneat.nodup, fun i t ht => ?_,
    fun i _ => hwf.transitions_cases hneat i, ?_, fun i haccept t ht => ?_⟩
  · have hstart := Builder.target_ne_start_made _ (hmade ht)
    rwa [ofPattern_eq]
  · rw [← Builder.filterMap_letter?_made .fresh p]
    exact hperm.filterMap _
  · rw [ofPattern_eq] at haccept
    exact Builder.label_eq_of_mem_made (hmade ht)
      (Builder.contains_accepting_finish.mp haccept).1

end Automaton

end Thompson
