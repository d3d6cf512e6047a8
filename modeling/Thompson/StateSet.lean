/-!
# Sets of states

A set of states holds one flag for each state of an automaton. It has a
size of its own, since a caller may hand over a set that is longer or
shorter than the automaton: a number past the end is never a member, and
inserting it changes nothing.
-/

namespace Thompson

structure StateSet where
  flags : Array Bool
  deriving DecidableEq

namespace StateSet

def size (s : StateSet) : Nat := s.flags.size

/-- The set without members, over states below `n`. -/
def empty (n : Nat) : StateSet := ⟨Array.replicate n false⟩

def contains (s : StateSet) (i : Nat) : Bool := s.flags.getD i false

def insert (s : StateSet) (i : Nat) : StateSet := ⟨s.flags.setIfInBounds i true⟩

def erase (s : StateSet) (i : Nat) : StateSet := ⟨s.flags.setIfInBounds i false⟩

def insertAll (s : StateSet) (is : List Nat) : StateSet := is.foldl insert s

def eraseAll (s : StateSet) (is : List Nat) : StateSet := is.foldl erase s

def toList (s : StateSet) : List Nat := (List.range s.size).filter s.contains

def absent (s : StateSet) : Nat := s.flags.count false

/-! ## Laws of membership -/

@[simp] theorem size_empty (n : Nat) : (empty n).size = n := by simp [empty, size]

@[simp] theorem size_insert (s : StateSet) (i : Nat) : (s.insert i).size = s.size := by
  simp [insert, size]

@[simp] theorem size_erase (s : StateSet) (i : Nat) : (s.erase i).size = s.size := by
  simp [erase, size]

@[simp] theorem contains_empty (n i : Nat) : (empty n).contains i = false := by
  simp [empty, contains, Array.getD_eq_getD_getElem?, Array.getElem?_replicate]
  split <;> rfl

theorem contains_insert (s : StateSet) (i j : Nat) :
    (s.insert i).contains j = (s.contains j || (j == i && decide (i < s.size))) := by
  simp only [insert, contains, size, Array.getD_eq_getD_getElem?, Array.getElem?_setIfInBounds]
  grind

theorem contains_erase (s : StateSet) (i j : Nat) :
    (s.erase i).contains j = (s.contains j && !(j == i)) := by
  simp only [erase, contains, Array.getD_eq_getD_getElem?, Array.getElem?_setIfInBounds]
  grind

theorem ext {s t : StateSet} (hsize : s.size = t.size)
    (h : ∀ i, s.contains i = true ↔ t.contains i = true) : s = t := by
  obtain ⟨f⟩ := s
  obtain ⟨g⟩ := t
  congr 1
  refine Array.ext hsize ?_
  intro i hi hi'
  have := h i
  simp only [contains, Array.getD, hi, hi', dite_true, Array.getInternal_eq_getElem] at this
  rwa [Bool.eq_iff_iff]

@[simp] theorem size_insertAll (s : StateSet) (is : List Nat) :
    (s.insertAll is).size = s.size := by
  rw [insertAll]
  induction is generalizing s with
  | nil => rfl
  | cons i is ih => rw [List.foldl_cons, ih, size_insert]

@[simp] theorem size_eraseAll (s : StateSet) (is : List Nat) : (s.eraseAll is).size = s.size := by
  rw [eraseAll]
  induction is generalizing s with
  | nil => rfl
  | cons i is ih => rw [List.foldl_cons, ih, size_erase]

theorem contains_insertAll (s : StateSet) (is : List Nat) (j : Nat) :
    (s.insertAll is).contains j = true ↔ s.contains j = true ∨ j ∈ is ∧ j < s.size := by
  rw [insertAll]
  induction is generalizing s with
  | nil => simp
  | cons i is ih =>
    rw [List.foldl_cons, ih, contains_insert, size_insert]
    grind

theorem contains_eraseAll (s : StateSet) (is : List Nat) (j : Nat) :
    (s.eraseAll is).contains j = true ↔ s.contains j = true ∧ j ∉ is := by
  rw [eraseAll]
  induction is generalizing s with
  | nil => simp
  | cons i is ih =>
    rw [List.foldl_cons, ih, contains_erase]
    grind

theorem lt_size_of_contains {s : StateSet} {i : Nat} (h : s.contains i = true) : i < s.size := by
  unfold contains at h
  by_cases hi : i < s.flags.size
  · exact hi
  · simp [Array.getD, hi] at h

theorem mem_toList {s : StateSet} {i : Nat} : i ∈ s.toList ↔ s.contains i = true := by
  simp only [toList, List.mem_filter, List.mem_range, and_iff_right_iff_imp]
  exact lt_size_of_contains

theorem nodup_toList (s : StateSet) : s.toList.Nodup := List.nodup_range.filter _

/-- A state that joins the set is one absent state less. -/
theorem absent_insert {s : StateSet} {i : Nat} (hi : i < s.size) (h : s.contains i = false) :
    (s.insert i).absent + 1 = s.absent := by
  have hi' : i < s.flags.size := hi
  have hget : s.flags[i] = false := by
    simpa only [contains, Array.getD, hi', dite_true, Array.getInternal_eq_getElem] using h
  have hpos : 0 < s.flags.count false :=
    Array.count_pos_iff.2 (hget ▸ Array.getElem_mem hi')
  simp only [insert, absent, Array.setIfInBounds, hi', dite_true, Array.count_set]
  simp [hget]
  omega

end StateSet

end Thompson
