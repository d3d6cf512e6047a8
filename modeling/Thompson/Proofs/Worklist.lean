import Mathlib.Logic.Function.Iterate
import Thompson.Automaton.Worklist
import Thompson.Proofs.Bounds

/-!
# What a closure does to its marks

A closure may begin with any states marked. It gives the states that epsilon
transitions lead to from a seed along unmarked states only, which are not
all unmarked states that can be reached: a mark may cut a state off. Each
of them has one turn, and clearing their marks leaves the marks of the
beginning (`WellFormed.closes_exactly`).

The queue of `Worklist` and the list of `Search` go side by side, turn by
turn (`next_ofSearch`): the states found fall into those that have had
their turn and those that wait. So the queue says how many turns a closure
takes and whose turn each of them is, and the list what it finds.
-/

namespace Thompson

namespace Automaton

variable {a : Automaton}

/-! ## The queue of a search -/

namespace Worklist

/-- The queue of a search whose first `done` states have had their turn. -/
def ofSearch (done : Nat) (s : Search) : Worklist :=
  ⟨s.marks, s.found.toList.drop done, s.found.toList.take done⟩

variable {done : Nat} {s : Search}

@[simp] theorem marks_ofSearch : (ofSearch done s).marks = s.marks := rfl

theorem enqueue_ofSearch (h : done ≤ s.found.size) (i : Nat) :
    (ofSearch done s).enqueue i = ofSearch done (s.visit i) := by
  have hlength : done ≤ s.found.toList.length := h
  rw [enqueue, Search.visit, marks_ofSearch]
  split
  · simp only [ofSearch, Array.toList_push, List.drop_append_of_le_length hlength,
      List.take_append_of_le_length hlength]
  · rfl

theorem foldl_enqueue_ofSearch (h : done ≤ s.found.size) (is : List Nat) :
    is.foldl enqueue (ofSearch done s) = ofSearch done (is.foldl Search.visit s) := by
  induction is generalizing s with
  | nil => rfl
  | cons i is ih =>
      rw [List.foldl_cons, enqueue_ofSearch h]
      exact ih (h.trans (Search.found_prefix_visit s i).length_le)

theorem start_eq_ofSearch (seeds : List Nat) (marks : StateSet) :
    start seeds marks = ofSearch 0 (seeds.foldl Search.visit ⟨marks, #[]⟩) :=
  foldl_enqueue_ofSearch (s := ⟨marks, #[]⟩) (Nat.zero_le _) seeds

/-- A turn of the queue is a turn of the search. -/
theorem next_ofSearch (h : done < s.found.size) :
    (ofSearch done s).next a =
      ofSearch (done + 1) ((a.targets s.found[done] .epsilon).foldl Search.visit s) := by
  have hwaiting : (ofSearch done s).waiting =
      s.found[done] :: s.found.toList.drop (done + 1) :=
    List.drop_eq_getElem_cons (i := done) (l := s.found.toList) h
  have hreached : (ofSearch done s).reached ++ [s.found[done]] =
      s.found.toList.take (done + 1) :=
    (List.take_succ_eq_append_getElem (i := done) (l := s.found.toList) h).symm
  have hdone : done + 1 ≤ s.found.size := h
  rw [next, hwaiting]
  dsimp only
  rw [hreached]
  exact foldl_enqueue_ofSearch hdone _

theorem run_ofSearch (h : done ≤ s.found.size) :
    (ofSearch done s).run a = ofSearch (a.search done s).found.size (a.search done s) := by
  fun_induction search a done s with
  | case1 done s hlt ih =>
      have hnext := next_ofSearch (a := a) hlt
      have hsize := (Search.found_prefix_foldl_visit s
        (a.targets s.found[done] .epsilon)).length_le
      rw [run]
      split
      · next hnil =>
          rw [ofSearch, List.drop_eq_nil_iff] at hnil
          exact absurd hlt (Nat.not_lt.mpr hnil)
      · rw [hnext]
        exact ih (Nat.le_trans hlt hsize)
  | case2 done s hge =>
      obtain rfl : done = s.found.size := Nat.le_antisymm h (Nat.le_of_not_lt hge)
      rw [run]
      split
      · rfl
      · next hcons =>
          have hnil : (ofSearch s.found.size s).waiting = [] := List.drop_length
          rw [hnil] at hcons
          cases hcons

end Worklist

theorem closeByTurns_eq (a : Automaton) (seeds : List Nat) (before : StateSet) :
    a.closeByTurns seeds before = a.close seeds before := by
  rw [closeByTurns, Worklist.start_eq_ofSearch, Worklist.run_ofSearch (Nat.zero_le _)]
  exact congrArg (Prod.mk _) List.take_length

/-! ## The turns of a closure -/

theorem found_prefix_search (a : Automaton) (done : Nat) (s : Search) :
    s.found.toList <+: (a.search done s).found.toList := by
  fun_induction search a done s with
  | case1 done s hlt ih => exact (Search.found_prefix_foldl_visit s _).trans ih
  | case2 done s hge => exact List.prefix_rfl

theorem search_measure (a : Automaton) (done : Nat) (s : Search) :
    (a.search done s).marks.absent + (a.search done s).found.size =
      s.marks.absent + s.found.size := by
  fun_induction search a done s with
  | case1 done s hlt ih => rw [ih, Search.foldl_visit_measure]
  | case2 done s hge => rfl

/-- A search of which no state waits is over. -/
theorem search_of_size_le {done : Nat} {s : Search} (h : s.found.size ≤ done) :
    a.search done s = s := by rw [search, dif_neg (Nat.not_lt.mpr h)]

/-- As long as a search goes on, its turns are those of its queue. -/
theorem exists_iterate_eq_ofSearch {s : Search} {k : Nat}
    (hk : k ≤ (a.search 0 s).found.size) :
    ∃ t : Search, (Worklist.next a)^[k] (.ofSearch 0 s) = .ofSearch k t ∧
      k ≤ t.found.size ∧ a.search k t = a.search 0 s := by
  induction k with
  | zero => exact ⟨s, rfl, Nat.zero_le _, rfl⟩
  | succ k ih =>
      obtain ⟨t, hiterate, -, hsearch⟩ := ih (Nat.le_of_succ_le hk)
      -- otherwise the search is over, and has found no more than `k` states
      have hlt : k < t.found.size := by
        by_contra hge
        rw [search_of_size_le (Nat.le_of_not_lt hge)] at hsearch
        exact hge (hsearch ▸ hk)
      rw [search, dif_pos hlt] at hsearch
      have hsize := (Search.found_prefix_foldl_visit t
        (a.targets t.found[k] .epsilon)).length_le
      refine ⟨_, ?_, Nat.le_trans hlt hsize, hsearch⟩
      rw [Function.iterate_succ_apply', hiterate, Worklist.next_ofSearch hlt]

section Turns

variable {seeds : List Nat} {before : StateSet} {k : Nat}

/-- The search that a closure is after `k` turns. -/
theorem exists_search_of_iterate (hk : k ≤ (a.close seeds before).2.length) :
    ∃ t : Search, (Worklist.next a)^[k] (.start seeds before) = .ofSearch k t ∧
      k ≤ t.found.toList.length ∧
      a.close seeds before = ((a.search k t).marks, (a.search k t).found.toList) := by
  obtain ⟨t, hiterate, ht, hsearch⟩ := exists_iterate_eq_ofSearch (a := a)
    (s := seeds.foldl Search.visit ⟨before, #[]⟩) hk
  rw [← Worklist.start_eq_ofSearch] at hiterate
  exact ⟨t, hiterate, ht, by rw [hsearch, close]⟩

/-- Whose turn it was is told by the order in which a closure lists what
it finds. -/
theorem reached_iterate (hk : k ≤ (a.close seeds before).2.length) :
    ((Worklist.next a)^[k] (.start seeds before)).reached =
      (a.close seeds before).2.take k := by
  obtain ⟨t, hiterate, ht, hclose⟩ := exists_search_of_iterate hk
  obtain ⟨more, hmore⟩ := found_prefix_search a k t
  rw [hiterate, hclose, ← hmore, List.take_append_of_le_length ht]
  rfl

theorem waiting_iterate_ne_nil (hk : k < (a.close seeds before).2.length) :
    ((Worklist.next a)^[k] (.start seeds before)).waiting ≠ [] := by
  obtain ⟨t, hiterate, -, hclose⟩ := exists_search_of_iterate (Nat.le_of_lt hk)
  rw [hiterate, Worklist.ofSearch, Ne, List.drop_eq_nil_iff]
  intro hle
  rw [hclose, search_of_size_le hle] at hk
  exact Nat.not_lt.mpr hle hk

/-- After as many turns as it finds states a closure is done. -/
theorem iterate_length (a : Automaton) (seeds : List Nat) (before : StateSet) :
    (Worklist.next a)^[(a.close seeds before).2.length] (.start seeds before) =
      ⟨(a.close seeds before).1, [], (a.close seeds before).2⟩ := by
  obtain ⟨t, hiterate, -, hclose⟩ :=
    exists_search_of_iterate (Nat.le_refl (a.close seeds before).2.length)
  generalize hn : (a.close seeds before).2.length = n at hiterate hclose
  have hle : t.found.toList.length ≤ n := by
    rw [← hn, hclose]
    exact (found_prefix_search a n t).length_le
  rw [search_of_size_le hle] at hclose
  rw [hiterate, hclose, Worklist.ofSearch, List.drop_eq_nil_iff.mpr hle,
    List.take_of_length_le hle]

end Turns

/-! ## The marks that a closure leaves -/

section Marks

variable {seeds : List Nat} {before : StateSet}

/-- Every state that a closure finds takes away one that was not
marked. -/
theorem absent_close (a : Automaton) (seeds : List Nat) (before : StateSet) :
    (a.close seeds before).1.absent + (a.close seeds before).2.length = before.absent := by
  have hsearch := search_measure a 0 (seeds.foldl Search.visit ⟨before, #[]⟩)
  rw [Search.foldl_visit_measure] at hsearch
  exact hsearch

theorem not_blocks_of_mem_close {j : Nat} (hj : j ∈ (a.close seeds before).2) :
    ¬ before.Blocks j :=
  (explores_close a seeds before).free j (by simpa using hj)

/-- Clearing what a closure has found undoes it. -/
theorem eraseAll_close (a : Automaton) (seeds : List Nat) (before : StateSet) :
    (a.close seeds before).1.eraseAll (a.close seeds before).2 = before := by
  refine StateSet.ext (by rw [StateSet.size_eraseAll, size_close]) ?_
  intro i
  rw [StateSet.contains_eraseAll, contains_close]
  constructor
  · rintro ⟨hbefore | hfound, hnot⟩
    · exact hbefore
    · exact absurd hfound hnot
  · exact fun hbefore => ⟨Or.inl hbefore, fun hfound =>
      not_blocks_of_mem_close hfound (Or.inr hbefore)⟩

/-- Where all targets have a mark, a path is blocked by marks only. -/
theorem WellFormed.epsilonPath_blocks_iff (h : a.WellFormed) (hbefore : before.size = a.size)
    {i j : Nat} (hi : i < a.size) :
    EpsilonPath a.Leads before.Blocks i j ↔
      EpsilonPath a.Leads (fun k => before.contains k = true) i j := by
  have blocks_iff {k : Nat} (hk : k < a.size) : before.Blocks k ↔ before.contains k = true := by
    rw [StateSet.Blocks, hbefore, or_iff_right (Nat.not_le.mpr hk)]
  constructor
  · intro hpath
    induction hpath with
    | nil hfree => exact .nil (mt (blocks_iff hi).mpr hfree)
    | cons hfree hstep _ ih =>
        exact .cons (mt (blocks_iff hi).mpr hfree) hstep (ih (h.lt_of_leads _ _ _ hstep))
  · intro hpath
    induction hpath with
    | nil hfree => exact .nil (mt (blocks_iff hi).mp hfree)
    | cons hfree hstep _ ih =>
        exact .cons (mt (blocks_iff hi).mp hfree) hstep (ih (h.lt_of_leads _ _ _ hstep))

end Marks

/-! ## Between two characters -/

/-- `runFrom` with a new set of marks for each character, in place of one
that is cleared. -/
def runAfreshFrom (a : Automaton) (active : List Nat) (position : Nat) (log : List Event) :
    List Char → Run
  | [] => ⟨active.any a.accepting.contains, log.reverse⟩
  | c :: text =>
    if c ∈ a.alphabet then
      let reached := (a.close (a.moves active c) (.empty a.size)).2
      let log := .advanced c reached.length :: log
      if reached.isEmpty then ⟨false, log.reverse⟩
      else runAfreshFrom a reached (position + 1) log text
    else ⟨false, (.outsideAlphabet c position :: log).reverse⟩

def runAfresh (a : Automaton) (text : String) : Run :=
  a.runAfreshFrom (a.close [a.start] (.empty a.size)).2 0 [] text.toList

theorem runFrom_close (a : Automaton) (seeds : List Nat) (position : Nat) (log : List Event)
    (text : List Char) :
    a.runFrom (a.close seeds (.empty a.size)).2 (a.close seeds (.empty a.size)).1 position log
        text =
      a.runAfreshFrom (a.close seeds (.empty a.size)).2 position log text := by
  induction text generalizing seeds position log with
  | nil => rfl
  | cons c text ih =>
      rw [runFrom, runAfreshFrom, eraseAll_close]
      split
      · dsimp only
        split
        · rfl
        · exact ih _ _ _
      · rfl

theorem run_eq_runAfresh (a : Automaton) (text : String) : a.run text = a.runAfresh text :=
  runFrom_close a [a.start] 0 [] text.toList

/-! ## Exactness -/

/-- What the closure of some seeds gives, whatever is marked before: the
marks and the states found. A path that keeps out of the marks does so at
both of its ends, so no seed on one is marked, and no state found was. -/
structure ClosesExactly (a : Automaton) (seeds : List Nat) (before marks : StateSet)
    (found : List Nat) : Prop where
  checked : a.close? seeds before = some (marks, found)
  queue_eq : a.closeByTurns seeds before = (marks, found)
  turns_eq : (Worklist.next a)^[found.length] (.start seeds before) = ⟨marks, [], found⟩
  turns_needed : ∀ k < found.length, ((Worklist.next a)^[k] (.start seeds before)).waiting ≠ []
  turns_order : ∀ k ≤ found.length,
    ((Worklist.next a)^[k] (.start seeds before)).reached = found.take k
  absent_eq : marks.absent + found.length = before.absent
  nodup : found.Nodup
  mem_iff : ∀ j, j ∈ found ↔
    ∃ i ∈ seeds, EpsilonPath a.Leads (fun k => before.contains k = true) i j
  size_eq : marks.size = before.size
  contains_iff : ∀ i, marks.contains i = true ↔ before.contains i = true ∨ i ∈ found
  cleared : marks.eraseAll found = before

/-- A closure of states that exist ends after one turn for each state that
it finds. It finds the states that were not marked and that epsilon
transitions lead to from a seed along states that were not, lists each of
them once and marks them. Clearing their marks gives those of the
beginning back, so a run that clears its marks for each character is one
with new marks for each. -/
theorem WellFormed.closes_exactly (h : a.WellFormed) {seeds : List Nat} {before : StateSet}
    (hseeds : ∀ i ∈ seeds, i < a.size) (hbefore : before.size = a.size) :
    ClosesExactly a seeds before (a.close seeds before).1 (a.close seeds before).2 ∧
      ∀ text, a.run text = a.runAfresh text where
  left :=
    { checked := h.close?_eq hbefore hseeds
      queue_eq := closeByTurns_eq a seeds before
      turns_eq := iterate_length a seeds before
      turns_needed := fun _ => waiting_iterate_ne_nil
      turns_order := fun _ => reached_iterate
      absent_eq := absent_close a seeds before
      nodup := nodup_close a seeds before
      mem_iff := fun j => by
        rw [mem_close]
        exact exists_congr fun i => and_congr_right fun hi =>
          h.epsilonPath_blocks_iff hbefore (hseeds i hi)
      size_eq := size_close a seeds before
      contains_iff := contains_close a seeds before
      cleared := eraseAll_close a seeds before }
  right := run_eq_runAfresh a

/-- State 2 can be reached from the seed 0, but through the marked state 1
only, so it is not found; 4 is found on the way around. The seed 1 is
marked, 0 is listed twice, and 0 and 3 lead to each other. -/
theorem closes_exactly_around_mark :
    let states : Array State := #[⟨0, ⟨[(.epsilon, #[1, 3, 3])], by decide⟩⟩,
      ⟨1, ⟨[(.epsilon, #[2])], by decide⟩⟩, ⟨2, ⟨[(.epsilon, #[4])], by decide⟩⟩,
      ⟨3, ⟨[(.epsilon, #[0, 4])], by decide⟩⟩, ⟨4, .empty⟩]
    let a : Automaton := ⟨states, 0, .empty 5, .ofList [], ""⟩
    let before : StateSet := ⟨#[false, true, false, false, false]⟩
    let marks : StateSet := ⟨#[true, true, false, true, true]⟩
    a.WellFormed ∧ (∀ i ∈ [0, 1, 0], i < a.size) ∧ before.size = a.size ∧
      ClosesExactly a [0, 1, 0] before marks [0, 3, 4] ∧ ∀ text, a.run text = a.runAfresh text := by
  intro states a before marks
  have hwellFormed : a.WellFormed := wellFormed_of_defect?_eq_none (a := a) (by decide)
  have hseeds : ∀ i ∈ [0, 1, 0], i < a.size := by decide
  have hclose : a.close [0, 1, 0] before = (marks, [0, 3, 4]) := by decide +kernel
  obtain ⟨hexact, hrun⟩ := hwellFormed.closes_exactly hseeds (show before.size = a.size from rfl)
  rw [hclose] at hexact
  exact ⟨hwellFormed, hseeds, rfl, hexact, hrun⟩

end Automaton

end Thompson
