import Mathlib.Tactic.Tauto
import Thompson.Automaton.Path
import Thompson.Automaton.Simulation

/-!
# What a closure finds

`Automaton.close` marks exactly the states that epsilon transitions lead
to from a seed without passing through a state that was marked before,
and lists each of them once (`mem_close`, `nodup_close`,
`contains_close`).

The proof follows the search. `Search.Tracks` says that the marks are
those of the beginning and the states found, each of which was free;
every visit keeps it. `Automaton.Explores` adds what the states found
have to do with paths: each is the end of one, every seed is blocked, and
so is every epsilon target of the states whose turn is over. Once nobody
waits, the last part says that no path leads out of the states found.
-/

namespace Thompson

/-- The states that a search does not enter: those that are marked and
those that cannot be. -/
def StateSet.Blocks (s : StateSet) (i : Nat) : Prop := s.size ≤ i ∨ s.contains i = true

theorem StateSet.blocks_empty {n i : Nat} : (StateSet.empty n).Blocks i ↔ n ≤ i := by
  simp [Blocks]

/-! ## Visits -/

namespace Automaton

namespace Search

/-- The marks are those of `before` and the states found. -/
structure Tracks (before : StateSet) (s : Search) : Prop where
  size_eq : s.marks.size = before.size
  contains_iff : ∀ i, s.marks.contains i = true ↔ before.contains i = true ∨ i ∈ s.found.toList
  nodup : s.found.toList.Nodup
  free : ∀ i ∈ s.found.toList, ¬ before.Blocks i

variable {before : StateSet} {s : Search}

theorem Tracks.blocks_iff (h : s.Tracks before) (i : Nat) :
    s.marks.Blocks i ↔ before.Blocks i ∨ i ∈ s.found.toList := by
  rw [StateSet.Blocks, StateSet.Blocks, h.size_eq, h.contains_iff, or_assoc]

theorem tracks_start (before : StateSet) : Tracks before ⟨before, #[]⟩ where
  size_eq := rfl
  contains_iff i := by simp
  nodup := by simp
  free i hi := by simp at hi

theorem visit_of_blocks {i : Nat} (h : s.marks.Blocks i) : s.visit i = s := by
  rw [visit, if_neg]
  rintro ⟨hlt, hfalse⟩
  rcases h with h | h
  · omega
  · rw [hfalse] at h
    cases h

theorem visit_of_free {i : Nat} (h : ¬ s.marks.Blocks i) :
    s.visit i = ⟨s.marks.insert i, s.found.push i⟩ := by
  rw [StateSet.Blocks, not_or, Nat.not_le, Bool.not_eq_true] at h
  rw [visit, if_pos h]

/-- A visit keeps what is found and blocks the state that is visited. -/
theorem Tracks.visit (h : s.Tracks before) (i : Nat) : (s.visit i).Tracks before := by
  by_cases hi : s.marks.Blocks i
  · rw [visit_of_blocks hi]
    exact h
  · have hnew : i ∉ s.found.toList := fun hmem => hi ((h.blocks_iff i).mpr (Or.inr hmem))
    have hlt : i < s.marks.size := Nat.lt_of_not_le fun hle => hi (Or.inl hle)
    rw [visit_of_free hi]
    refine ⟨by simp [h.size_eq], fun j => ?_, ?_, fun j hj => ?_⟩
    · have := h.contains_iff j
      simp only [StateSet.contains_insert, hlt, decide_true, Bool.and_true, Bool.or_eq_true,
        beq_iff_eq, Array.toList_push, List.mem_append, List.mem_singleton]
      tauto
    · rw [Array.toList_push, List.nodup_append]
      refine ⟨h.nodup, by simp, fun x hx y hy hxy => ?_⟩
      rw [List.mem_singleton.mp hy] at hxy
      exact hnew (hxy ▸ hx)
    · rw [Array.toList_push, List.mem_append, List.mem_singleton] at hj
      rcases hj with hj | rfl
      · exact h.free j hj
      · exact fun hb => hi ((h.blocks_iff j).mpr (Or.inl hb))

theorem found_prefix_visit (s : Search) (i : Nat) :
    s.found.toList <+: (s.visit i).found.toList := by
  by_cases hi : s.marks.Blocks i
  · rewrite [visit_of_blocks hi]
    exact List.prefix_rfl
  · rw [visit_of_free hi, Array.toList_push]
    exact List.prefix_append _ _

theorem mem_found_visit {i j : Nat} (h : j ∈ (s.visit i).found.toList) :
    j ∈ s.found.toList ∨ j = i ∧ ¬ s.marks.Blocks i := by
  by_cases hi : s.marks.Blocks i
  · rw [visit_of_blocks hi] at h
    exact Or.inl h
  · rw [visit_of_free hi, Array.toList_push, List.mem_append, List.mem_singleton] at h
    exact h.imp id fun hj => ⟨hj, hi⟩

theorem Tracks.blocks_visit (h : s.Tracks before) (i : Nat) : (s.visit i).marks.Blocks i := by
  by_cases hi : s.marks.Blocks i
  · rw [visit_of_blocks hi]
    exact hi
  · rw [(h.visit i).blocks_iff, visit_of_free hi, Array.toList_push]
    exact Or.inr (by simp)

/-! ## Several visits -/

theorem Tracks.foldl_visit (h : s.Tracks before) (is : List Nat) :
    (is.foldl Search.visit s).Tracks before := by
  induction is generalizing s with
  | nil => exact h
  | cons i is ih => exact ih (h.visit i)

theorem found_prefix_foldl_visit (s : Search) (is : List Nat) :
    s.found.toList <+: (is.foldl visit s).found.toList := by
  induction is generalizing s with
  | nil => exact List.prefix_rfl
  | cons i is ih => exact (found_prefix_visit s i).trans (ih (s.visit i))

/-- What several visits find was found before or is one of the states
that are visited, and free. -/
theorem Tracks.mem_found_foldl_visit (h : s.Tracks before) {is : List Nat} {j : Nat}
    (hj : j ∈ (is.foldl Search.visit s).found.toList) :
    j ∈ s.found.toList ∨ j ∈ is ∧ ¬ before.Blocks j := by
  induction is generalizing s with
  | nil => exact Or.inl hj
  | cons i is ih =>
      rcases ih (h.visit i) hj with hj | ⟨hj, hfree⟩
      · rcases mem_found_visit hj with hj | ⟨rfl, hfree⟩
        · exact Or.inl hj
        · exact Or.inr ⟨List.mem_cons_self, fun hb =>
            hfree ((h.blocks_iff j).mpr (Or.inl hb))⟩
      · exact Or.inr ⟨List.mem_cons_of_mem i hj, hfree⟩

/-- More is found, so more is blocked. -/
theorem Tracks.blocks_mono {s' : Search} (h : s.Tracks before) (h' : s'.Tracks before)
    (hp : s.found.toList <+: s'.found.toList) {i : Nat} (hi : s.marks.Blocks i) :
    s'.marks.Blocks i := by
  rw [h'.blocks_iff]
  exact ((h.blocks_iff i).mp hi).imp id fun hmem => hp.subset hmem

theorem Tracks.blocks_foldl_visit (h : s.Tracks before) {is : List Nat} {i : Nat} (hi : i ∈ is) :
    (is.foldl Search.visit s).marks.Blocks i := by
  induction is generalizing s with
  | nil => cases hi
  | cons k is ih =>
      rcases List.mem_cons.mp hi with rfl | hi
      · exact (h.visit i).blocks_mono ((h.visit i).foldl_visit is)
          (found_prefix_foldl_visit _ is) (h.blocks_visit i)
      · exact ih (h.visit k) hi

end Search

/-! ## The search -/

variable {a : Automaton} {seeds : List Nat} {before : StateSet}

/-- What holds of a search whose first `next` states have had their
turn. -/
structure Explores (a : Automaton) (seeds : List Nat) (before : StateSet) (next : Nat)
    (s : Search) : Prop extends s.Tracks before where
  sound : ∀ j ∈ s.found.toList, ∃ i ∈ seeds, EpsilonPath a.Leads before.Blocks i j
  seeded : ∀ i ∈ seeds, s.marks.Blocks i
  explored : ∀ j ∈ s.found.toList.take next, ∀ k, a.Leads j .epsilon k → s.marks.Blocks k

theorem explores_start (a : Automaton) (seeds : List Nat) (before : StateSet) :
    a.Explores seeds before 0 (seeds.foldl Search.visit ⟨before, #[]⟩) where
  toTracks := (Search.tracks_start before).foldl_visit seeds
  sound j hj := by
    rcases (Search.tracks_start before).mem_found_foldl_visit hj with hj | ⟨hj, hfree⟩
    · simp at hj
    · exact ⟨j, hj, .nil hfree⟩
  seeded i hi := (Search.tracks_start before).blocks_foldl_visit hi
  explored j hj := by simp at hj

/-- The turn of one state: its targets are blocked afterwards, and those
newly found continue its path. -/
theorem Explores.turn {next : Nat} {s : Search} (h : a.Explores seeds before next s)
    (hlt : next < s.found.size) :
    a.Explores seeds before (next + 1)
      ((a.targets s.found[next] .epsilon).foldl Search.visit s) := by
  have hmem : s.found[next] ∈ s.found.toList := by simp
  have hp := Search.found_prefix_foldl_visit s (a.targets s.found[next] .epsilon)
  have htracks := h.toTracks.foldl_visit (a.targets s.found[next] .epsilon)
  refine ⟨htracks, fun j hj => ?_, fun i hi => ?_, fun j hj k hk => ?_⟩
  · rcases h.toTracks.mem_found_foldl_visit hj with hj | ⟨hj, hfree⟩
    · exact h.sound j hj
    · obtain ⟨i, hi, hpath⟩ := h.sound _ hmem
      exact ⟨i, hi, hpath.snoc hj hfree⟩
  · exact h.toTracks.blocks_mono htracks hp (h.seeded i hi)
  · obtain ⟨more, hmore⟩ := hp
    have hlen : next < s.found.toList.length := hlt
    rw [← hmore, List.take_append_of_le_length hlen, List.take_succ_eq_append_getElem hlen,
      List.mem_append, List.mem_singleton] at hj
    rcases hj with hj | rfl
    · exact h.toTracks.blocks_mono htracks ⟨more, hmore⟩ (h.explored j hj k hk)
    · exact h.toTracks.blocks_foldl_visit hk

theorem explores_search {next : Nat} {s : Search} (h : a.Explores seeds before next s) :
    a.Explores seeds before (a.search next s).found.size (a.search next s) := by
  fun_induction search a next s with
  | case1 next s hlt ih => exact ih (h.turn hlt)
  | case2 next s hge =>
      refine ⟨h.toTracks, h.sound, h.seeded, fun j hj => h.explored j ?_⟩
      rw [List.take_of_length_le (by simp)] at hj
      rwa [List.take_of_length_le (by simpa using Nat.le_of_not_lt hge)]

theorem explores_close (a : Automaton) (seeds : List Nat) (before : StateSet) :
    a.Explores seeds before (a.close seeds before).2.length
      ⟨(a.close seeds before).1, (a.close seeds before).2.toArray⟩ :=
  explores_search (explores_start a seeds before)

/-! ## What a closure gives -/

theorem size_close (a : Automaton) (seeds : List Nat) (before : StateSet) :
    (a.close seeds before).1.size = before.size :=
  (explores_close a seeds before).size_eq

theorem nodup_close (a : Automaton) (seeds : List Nat) (before : StateSet) :
    (a.close seeds before).2.Nodup := by
  simpa using (explores_close a seeds before).nodup

theorem contains_close (a : Automaton) (seeds : List Nat) (before : StateSet) (i : Nat) :
    (a.close seeds before).1.contains i = true ↔
      before.contains i = true ∨ i ∈ (a.close seeds before).2 := by
  simpa using (explores_close a seeds before).contains_iff i

/-- The states that a closure lists are the ends of the epsilon paths
that start in a seed and keep out of the states marked before. -/
theorem mem_close (a : Automaton) (seeds : List Nat) (before : StateSet) (j : Nat) :
    j ∈ (a.close seeds before).2 ↔
      ∃ i ∈ seeds, EpsilonPath a.Leads before.Blocks i j := by
  have h := explores_close a seeds before
  constructor
  · intro hj
    exact h.sound j (by simpa using hj)
  · rintro ⟨i, hi, hpath⟩
    -- an end that is blocked but free at the beginning has been found
    have found : ∀ {k}, (a.close seeds before).1.Blocks k → ¬ before.Blocks k →
        k ∈ (a.close seeds before).2 := fun hb hfree => by
      simpa using ((h.blocks_iff _).mp hb).resolve_left hfree
    have hblocks := h.seeded i hi
    clear hi
    induction hpath with
    | nil hfree => exact found hblocks hfree
    | cons hfree hstep _ ih =>
        exact ih (h.explored _ (by simpa using found hblocks hfree) _ hstep)

end Automaton

end Thompson
