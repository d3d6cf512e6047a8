import Mathlib.Data.List.Perm.Basic
import Thompson.Proofs.FragmentStates

/-!
# The transitions that a construction makes

The rules of fragments add transitions and never remove one, so the
transitions of a builder can be counted and listed along the pattern.
`Builder.made` lists those that a pattern adds: at a symbol the one on
its character, at any other node bridges, which are epsilon transitions
from some states to the start of an operand. A state keeps its
transitions label by label, so they are the same as those of the states
up to their order only (`Builder.edges_construct_perm`).
-/

namespace Thompson

/-! ## One more transition -/

namespace Transitions

theorem flatMap_alter_perm (label : Label) (target : Nat) (entries : List (Label × Array Nat)) :
    ((alter label (·.push target) entries).flatMap fun e => e.2.toList.map (e.1, ·)).Perm
      ((entries.flatMap fun e => e.2.toList.map (e.1, ·)) ++ [(label, target)]) := by
  fun_induction alter label (·.push target) entries with
  | case1 => exact .refl _
  | case2 => exact (List.perm_append_singleton _ _).symm
  | case3 targets rest =>
      simp only [List.flatMap_cons, Array.toList_push, List.map_append, List.append_assoc]
      exact List.perm_append_comm.append_left _
  | case4 l targets rest _ _ ih =>
      simp only [List.flatMap_cons, List.append_assoc]
      exact ih.append_left _

/-- Adding a transition adds it to the list, at its place. -/
theorem toList_add_perm (t : Transitions) (label : Label) (target : Nat) :
    (t.add label target).toList.Perm (t.toList ++ [(label, target)]) :=
  flatMap_alter_perm label target t.entries

end Transitions

theorem State.edges_add_perm (s : State) (label : Label) (target : Nat) :
    ({ s with transitions := s.transitions.add label target } : State).edges.Perm
      (s.edges ++ [⟨s.id, label, target⟩]) := by
  have h := (s.transitions.toList_add_perm label target).map fun t => (⟨s.id, t.1, t.2⟩ : Edge)
  rwa [List.map_append] at h

/-! ## The transitions of a builder -/

/-- Epsilon transitions from some states to one state. -/
def bridges (sources : List Nat) (target : Nat) : List Edge :=
  sources.map fun source => ⟨source, .epsilon, target⟩

theorem mem_bridges {sources : List Nat} {target : Nat} {e : Edge} :
    e ∈ bridges sources target ↔ e.source ∈ sources ∧ e.label = .epsilon ∧ e.target = target := by
  obtain ⟨source, label, target'⟩ := e
  simp only [bridges, List.mem_map, Edge.mk.injEq]
  constructor
  · rintro ⟨i, hi, rfl, rfl, rfl⟩
    exact ⟨hi, rfl, rfl⟩
  · rintro ⟨hi, rfl, rfl⟩
    exact ⟨source, hi, rfl, rfl, rfl⟩

namespace Builder

variable {b : Builder}

def edges (b : Builder) : List Edge := b.states.toList.flatMap State.edges

@[simp] theorem edges_addState (b : Builder) : b.addState.edges = b.edges := by
  simp [edges, addState, State.edges, Transitions.toList, Transitions.empty]

theorem edges_connect_perm (h : b.Sound) {source : Nat} (hsource : source < b.size) (label : Label)
    (target : Nat) :
    (b.connect source label target).edges.Perm (b.edges ++ [⟨source, label, target⟩]) := by
  obtain ⟨front, s, back, hstates, rfl, hmodify⟩ := List.exists_of_modify
    (fun s : State => { s with transitions := s.transitions.add label target })
    (l := b.states.toList) hsource
  have hid : s.id = front.length := by
    refine h.id_eq _ s ?_
    rw [← Array.getElem?_toList, hstates]
    simp
  rw [edges, edges, connect, Array.toList_modify, hmodify, hstates, ← hid]
  simp only [List.flatMap_append, List.flatMap_cons, List.append_assoc]
  refine List.Perm.append_left _ ?_
  refine ((s.edges_add_perm label target).append_right _).trans ?_
  rw [List.append_assoc]
  exact List.perm_append_comm.append_left _

/-- Transitions from several states are one transition from each. -/
theorem edges_connectAll_perm (h : b.Sound) {sources : Array Nat} {target : Nat}
    (hsources : ∀ i ∈ sources.toList, i < b.size) (htarget : target < b.size) :
    (b.connectAll sources target).edges.Perm (b.edges ++ bridges sources.toList target) := by
  rw [connectAll_eq]
  generalize sources.toList = sources at hsources ⊢
  induction sources generalizing b with
  | nil =>
      rw [bridges, List.map_nil, List.append_nil]
      rfl
  | cons source sources ih =>
      obtain ⟨hsource, hrest⟩ := List.forall_mem_cons.mp hsources
      have hnext := ih (h.connect hsource htarget) (by rwa [size_connect])
        (by rwa [size_connect])
      have hfirst := edges_connect_perm h hsource .epsilon target
      rw [List.foldl_cons]
      refine hnext.trans ((hfirst.append_right _).trans ?_)
      rw [List.append_assoc]
      rfl

/-! ## The transitions that each rule adds -/

theorem edges_symbolFragment_perm (h : b.Sound) (c : Char) :
    (b.symbolFragment c).1.edges.Perm (b.edges ++ [⟨b.size, .char c, b.size + 1⟩]) := by
  have hletter : (b.symbolFragment c).1.edges =
      (b.addState.addState.connect b.size (.char c) (b.size + 1)).edges := rfl
  have hsize : b.size < b.addState.addState.size := by
    simp only [size_addState]
    omega
  have hperm := edges_connect_perm h.addState.addState hsize (.char c) (b.size + 1)
  rwa [edges_addState, edges_addState, ← hletter] at hperm

theorem edges_unionFragment_perm (h : b.Sound) {lhs : Fragment} (hl : lhs.start < b.size)
    (rhs : Fragment) :
    (b.unionFragment lhs rhs).1.edges.Perm
      (b.edges ++ bridges [b.size] lhs.start ++ bridges [b.size] rhs.start) := by
  have hsize : b.size < b.addState.size := by simp
  have hsound := h.addState.connect hsize (by rw [size_addState]; omega : lhs.start < _)
  have hfirst := edges_connect_perm h.addState hsize .epsilon lhs.start
  have hsecond := edges_connect_perm hsound (by simp : b.size < _) .epsilon rhs.start
  rw [edges_addState] at hfirst
  exact hsecond.trans (hfirst.append_right _)

theorem edges_concatFragment_perm (h : b.Sound) {lhs rhs : Fragment}
    (hl : ∀ i ∈ lhs.accepts.toList, i < b.size) (hr : rhs.start < b.size) :
    (b.concatFragment lhs rhs).1.edges.Perm (b.edges ++ bridges lhs.accepts.toList rhs.start) :=
  edges_connectAll_perm h hl hr

theorem edges_starFragment_perm (h : b.Sound) {operand : Fragment}
    (haccepts : ∀ i ∈ operand.accepts.toList, i < b.size) (hstart : operand.start < b.size) :
    (b.starFragment operand).1.edges.Perm
      (b.edges ++ bridges (b.size :: operand.accepts.toList) operand.start) := by
  have hsize : b.size < b.addState.size := by simp
  have hstart' : operand.start < b.addState.size := by
    rw [size_addState]
    omega
  have haccepts' : ∀ i ∈ operand.accepts.toList,
      i < (b.addState.connect b.size .epsilon operand.start).size := by
    intro i hi
    rw [size_connect, size_addState]
    exact Nat.lt_succ_of_lt (haccepts i hi)
  have hfirst := edges_connect_perm h.addState hsize .epsilon operand.start
  have hrest := edges_connectAll_perm (h.addState.connect hsize hstart') haccepts'
    (by rwa [size_connect])
  rw [edges_addState] at hfirst
  refine hrest.trans ((hfirst.append_right _).trans ?_)
  rw [List.append_assoc]
  rfl

/-! ## The transitions of a pattern -/

/-- The transitions that the construction of a pattern adds to a builder,
those of the operands in front of those of the node. -/
def made (b : Builder) : Pattern → List Edge
  | .symbol c => [⟨b.size, .char c, b.size + 1⟩]
  | .union lhs rhs =>
    let l := b.construct lhs
    let r := l.builder.construct rhs
    b.made lhs ++ l.builder.made rhs ++ bridges [r.builder.size] l.fragment.start ++
      bridges [r.builder.size] r.fragment.start
  | .concat lhs rhs =>
    let l := b.construct lhs
    let r := l.builder.construct rhs
    b.made lhs ++ l.builder.made rhs ++ bridges l.fragment.accepts.toList r.fragment.start
  | .star operand =>
    let o := b.construct operand
    b.made operand ++ bridges (o.builder.size :: o.fragment.accepts.toList) o.fragment.start

theorem edges_construct_perm (h : b.Sound) (p : Pattern) :
    (b.construct p).builder.edges.Perm (b.edges ++ b.made p) := by
  induction p generalizing b with
  | symbol c => exact edges_symbolFragment_perm h c
  | union lhs rhs ihl ihr =>
      have hl := adds_construct lhs b
      have hr := adds_construct rhs (b.construct lhs).builder
      have hoperands := (ihr (h.construct lhs)).trans ((ihl h).append_right _)
      have hnode := edges_unionFragment_perm ((h.construct lhs).construct rhs)
        (hl.start_lt hr) ((b.construct lhs).builder.construct rhs).fragment
      refine hnode.trans (((hoperands.append_right _).append_right _).trans ?_)
      simp only [made, List.append_assoc]
      rfl
  | concat lhs rhs ihl ihr =>
      have hl := adds_construct lhs b
      have hr := adds_construct rhs (b.construct lhs).builder
      have hoperands := (ihr (h.construct lhs)).trans ((ihl h).append_right _)
      have hnode := edges_concatFragment_perm ((h.construct lhs).construct rhs)
        (hl.accepts_lt hr) hr.start_mem.2
      refine hnode.trans ((hoperands.append_right _).trans ?_)
      simp only [made, List.append_assoc]
      rfl
  | star operand ih =>
      have ho := adds_construct operand b
      have hnode := edges_starFragment_perm (h.construct operand)
        (fun i hi => (ho.accepts_mem i hi).2) ho.start_mem.2
      refine hnode.trans (((ih h).append_right _).trans ?_)
      rw [made, List.append_assoc]

/-! ## Where they lead -/

/-- Both ends are among the states from `first` on. -/
structure Within (first size : Nat) (e : Edge) : Prop where
  le_source : first ≤ e.source
  source_lt : e.source < size
  le_target : first ≤ e.target
  target_lt : e.target < size

theorem within_bridges {first size target : Nat} {sources : List Nat}
    (hsources : ∀ i ∈ sources, first ≤ i ∧ i < size) (htarget : first ≤ target ∧ target < size) :
    ∀ e ∈ bridges sources target, Within first size e := by
  intro e he
  obtain ⟨hsource, -, rfl⟩ := mem_bridges.mp he
  exact ⟨(hsources _ hsource).1, (hsources _ hsource).2, htarget.1, htarget.2⟩

theorem Within.mono {first size first' size' : Nat} {e : Edge} (h : Within first size e)
    (hfirst : first' ≤ first) (hsize : size ≤ size') : Within first' size' e where
  le_source := Nat.le_trans hfirst h.le_source
  source_lt := Nat.lt_of_lt_of_le h.source_lt hsize
  le_target := Nat.le_trans hfirst h.le_target
  target_lt := Nat.lt_of_lt_of_le h.target_lt hsize

theorem within_made {p : Pattern} :
    ∀ e ∈ b.made p, Within b.size (b.construct p).builder.size e := by
  induction p generalizing b with
  | symbol c =>
      have hsize : (b.construct (.symbol c)).builder.size = b.size + 2 := size_symbolFragment b c
      intro e he
      obtain rfl := List.mem_singleton.mp he
      rw [hsize]
      exact ⟨by simp, by simp, by simp, by simp⟩
  | union lhs rhs ihl ihr =>
      have hl := adds_construct lhs b
      have hr := adds_construct rhs (b.construct lhs).builder
      have hsize : (b.construct (.union lhs rhs)).builder.size =
          ((b.construct lhs).builder.construct rhs).builder.size + 1 := size_unionFragment ..
      have hlsize := hl.size_le
      have hrsize := hr.size_le
      have hlstart := hl.start_mem
      have hrstart := hr.start_mem
      have hnew : ∀ i ∈ [((b.construct lhs).builder.construct rhs).builder.size],
          b.size ≤ i ∧ i < (b.construct (.union lhs rhs)).builder.size := by
        intro i hi
        rw [List.mem_singleton.mp hi]
        omega
      intro e he
      simp only [made, List.mem_append] at he
      rcases he with ((he | he) | he) | he
      · exact (ihl e he).mono (Nat.le_refl _) (by omega)
      · exact (ihr e he).mono hlsize (by omega)
      · exact within_bridges hnew (by omega) e he
      · exact within_bridges hnew (by omega) e he
  | concat lhs rhs ihl ihr =>
      have hl := adds_construct lhs b
      have hr := adds_construct rhs (b.construct lhs).builder
      have hsize : (b.construct (.concat lhs rhs)).builder.size =
          ((b.construct lhs).builder.construct rhs).builder.size := size_concatFragment ..
      have hlsize := hl.size_le
      have hrsize := hr.size_le
      have hrstart := hr.start_mem
      intro e he
      simp only [made, List.mem_append] at he
      rcases he with (he | he) | he
      · exact (ihl e he).mono (Nat.le_refl _) (by omega)
      · exact (ihr e he).mono hlsize (by omega)
      · refine within_bridges (fun i hi => ?_) (by omega) e he
        have := hl.accepts_mem i hi
        omega
  | star operand ih =>
      have ho := adds_construct operand b
      have hsize : (b.construct (.star operand)).builder.size =
          (b.construct operand).builder.size + 1 := size_starFragment ..
      have hosize := ho.size_le
      have hostart := ho.start_mem
      intro e he
      rcases List.mem_append.mp he with he | he
      · exact (ih e he).mono (Nat.le_refl _) (by omega)
      · refine within_bridges (List.forall_mem_cons.mpr ⟨by omega, fun i hi => ?_⟩) (by omega) e he
        have := ho.accepts_mem i hi
        omega

end Builder

theorem Automaton.edges_ofPattern_perm (p : Pattern) (regex : String) :
    (ofPattern p regex).edges.Perm (Builder.fresh.made p) := by
  rw [ofPattern_eq]
  exact Builder.edges_construct_perm Builder.sound_fresh p

end Thompson
