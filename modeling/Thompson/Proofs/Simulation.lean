import Thompson.Automaton.WellFormed
import Thompson.Proofs.Closure

/-!
# Running an automaton

The sets that `startSet` and `step` compute are the states at the ends of
paths (`contains_foldl_step`), and the run with a list of active states
and one set of marks agrees with them on every text: it gives the same
verdict and reports the size of each set (`runFrom_spec`). Together, an
automaton matches a text if and only if some path from its start state
to an accept state spells it (`accepts_iff_path`).

`Mirrors` is what the run keeps between two characters: the marks are
the active states, each of which is listed once. The run looks at the
alphabet where `step` does not; that makes no difference because a
character outside of it leads nowhere.
-/

namespace Thompson

/-- How many members a set has. -/
def StateSet.count (s : StateSet) : Nat := s.toList.length

theorem StateSet.count_eq_zero_iff {s : StateSet} :
    s.count = 0 ↔ ∀ i, s.contains i = false := by
  rw [count, List.length_eq_zero_iff, List.eq_nil_iff_forall_not_mem]
  simp only [mem_toList, Bool.not_eq_true]

namespace Automaton

variable {a : Automaton}

/-! ## Sets and paths -/

theorem WellFormed.lt_of_leads (h : a.WellFormed) (i : Nat) (label : Label) (j : Nat)
    (hj : a.Leads i label j) : j < a.size :=
  h.target_lt i label j hj

theorem mem_moves {states : List Nat} {c : Char} {j : Nat} :
    j ∈ a.moves states c ↔ ∃ i ∈ states, a.Leads i (.char c) j := by
  simp [moves, Leads, List.mem_flatMap]

/-- A closure that starts without marks is the states that epsilon
transitions lead to. -/
theorem contains_close_empty (h : a.WellFormed) (seeds : List Nat) (j : Nat) :
    (a.close seeds (.empty a.size)).1.contains j = true ↔
      ∃ i ∈ seeds, i < a.size ∧ Path a.Leads i [] j := by
  rw [contains_close, StateSet.contains_empty, mem_close]
  have hblocks : (StateSet.empty a.size).Blocks = fun k => a.size ≤ k :=
    funext fun k => propext StateSet.blocks_empty
  simp only [Bool.false_eq_true, false_or, hblocks, epsilonPath_iff_path h.lt_of_leads]

/-- Stepping through a text gives the states that paths which spell it
lead to. -/
theorem contains_foldl_step (h : a.WellFormed) (seeds : List Nat) (text : List Char) (j : Nat) :
    (text.foldl a.step (a.close seeds (.empty a.size)).1).contains j = true ↔
      ∃ i ∈ seeds, i < a.size ∧ Path a.Leads i text j := by
  induction text generalizing seeds with
  | nil => exact contains_close_empty h seeds j
  | cons c text ih =>
      refine (ih (a.moves (a.close seeds (.empty a.size)).1.toList c)).trans ?_
      simp only [mem_moves, StateSet.mem_toList, contains_close_empty h]
      constructor
      · rintro ⟨k, ⟨m, ⟨i, hi, hlt, hfront⟩, hchar⟩, -, hback⟩
        exact ⟨i, hi, hlt, hfront.append (.char hchar hback)⟩
      · rintro ⟨i, hi, hlt, hpath⟩
        obtain ⟨m, k, hfront, hchar, hback⟩ := hpath.exists_of_cons
        exact ⟨k, ⟨m, ⟨i, hi, hlt, hfront⟩, hchar⟩, h.lt_of_leads _ _ _ hchar, hback⟩

theorem contains_foldl_step_startSet (h : a.WellFormed) (text : List Char) (j : Nat) :
    (text.foldl a.step a.startSet).contains j = true ↔ Path a.Leads a.start text j := by
  have hstart : ∀ i, ((StateSet.empty a.size).insert a.start).contains i = true ↔ i = a.start :=
    fun i => by simp [StateSet.contains_insert, h.start_lt]
  refine (contains_foldl_step h _ text j).trans ?_
  simp only [StateSet.mem_toList, hstart]
  constructor
  · rintro ⟨i, rfl, -, hpath⟩
    exact hpath
  · exact fun hpath => ⟨a.start, rfl, h.start_lt, hpath⟩

theorem isAccepting_iff {s : StateSet} :
    a.isAccepting s = true ↔ ∃ j, s.contains j = true ∧ a.accepting.contains j = true := by
  simp [isAccepting, List.any_eq_true, StateSet.mem_toList]

/-! ## Characters outside the alphabet -/

/-- Some state lists the character as a label, with or without
targets. -/
def Lists (a : Automaton) (c : Char) : Prop :=
  ∃ s ∈ a.states.toList, .char c ∈ s.transitions.labels

theorem mem_usedAlphabet {c : Char} : c ∈ a.usedAlphabet ↔ a.Lists c := by
  simp only [usedAlphabet, Alphabet.mem_ofList, List.mem_flatMap, List.mem_filterMap, Lists]
  constructor
  · rintro ⟨s, hs, label, hlabel, heq⟩
    cases label with
    | epsilon => cases heq
    | char d =>
        obtain rfl := Option.some.inj heq
        exact ⟨s, hs, hlabel⟩
  · rintro ⟨s, hs, hlabel⟩
    exact ⟨s, hs, .char c, hlabel, rfl⟩

theorem lists_of_leads {i j : Nat} {c : Char} (h : a.Leads i (.char c) j) : a.Lists c := by
  unfold Leads targets at h
  split at h
  · next s hs =>
      refine ⟨s, List.mem_of_getElem? (by simpa using hs), ?_⟩
      rw [← Transitions.isSome_targets?]
      cases ht : s.transitions.targets? (.char c) with
      | none => simp [Transitions.targets, ht] at h
      | some _ => rfl
  · cases h

/-- From a set without members a text leads nowhere. -/
theorem contains_foldl_step_of_count_eq_zero {s : StateSet} (h : s.count = 0)
    (text : List Char) (j : Nat) : (text.foldl a.step s).contains j = false := by
  induction text generalizing s with
  | nil => exact StateSet.count_eq_zero_iff.mp h j
  | cons c text ih =>
      refine ih (StateSet.count_eq_zero_iff.mpr fun i => ?_)
      rw [Bool.eq_false_iff, step, Ne, contains_close, mem_close]
      simp only [StateSet.contains_empty, Bool.false_eq_true, false_or, mem_moves,
        StateSet.mem_toList]
      rintro ⟨_, ⟨k, hk, -⟩, -⟩
      rw [StateSet.count_eq_zero_iff.mp h k] at hk
      cases hk

theorem isAccepting_foldl_step_of_count_eq_zero {s : StateSet} (h : s.count = 0)
    (text : List Char) : a.isAccepting (text.foldl a.step s) = false := by
  rw [Bool.eq_false_iff, Ne, isAccepting_iff]
  rintro ⟨j, hj, -⟩
  rw [contains_foldl_step_of_count_eq_zero h text j] at hj
  cases hj

theorem count_step_of_not_lists {s : StateSet} {c : Char} (h : ¬ a.Lists c) :
    (a.step s c).count = 0 := by
  refine StateSet.count_eq_zero_iff.mpr ?_
  intro i
  rw [Bool.eq_false_iff, step, Ne, contains_close, mem_close]
  simp only [StateSet.contains_empty, Bool.false_eq_true, false_or, mem_moves]
  rintro ⟨_, ⟨_, _, hleads⟩, -⟩
  exact h (lists_of_leads hleads)

/-! ## The run -/

/-- The active states are the marks, each once. -/
structure Mirrors (a : Automaton) (active : List Nat) (marks : StateSet) : Prop where
  nodup : active.Nodup
  contains_iff : ∀ i, marks.contains i = true ↔ i ∈ active
  size_eq : marks.size = a.size

theorem Mirrors.length_eq {active : List Nat} {marks : StateSet} (h : a.Mirrors active marks) :
    active.length = marks.count := by
  refine List.Perm.length_eq ((List.perm_ext_iff_of_nodup h.nodup marks.nodup_toList).mpr ?_)
  intro i
  rw [StateSet.mem_toList, h.contains_iff]

theorem Mirrors.any_accepting {active : List Nat} {marks : StateSet}
    (h : a.Mirrors active marks) : active.any a.accepting.contains = a.isAccepting marks := by
  rw [Bool.eq_iff_iff, isAccepting_iff]
  simp only [List.any_eq_true, h.contains_iff]

/-- Clearing the marks of the active states clears all of them. -/
theorem Mirrors.eraseAll_eq {active : List Nat} {marks : StateSet} (h : a.Mirrors active marks) :
    marks.eraseAll active = .empty a.size := by
  refine StateSet.ext (by simp [h.size_eq]) ?_
  intro i
  rw [StateSet.contains_eraseAll, h.contains_iff, StateSet.contains_empty]
  simp

/-- The marks of a closure depend on which seeds there are only. -/
theorem close_congr {seeds seeds' : List Nat} (before : StateSet)
    (h : ∀ i, i ∈ seeds ↔ i ∈ seeds') : (a.close seeds before).1 = (a.close seeds' before).1 := by
  refine StateSet.ext (by simp [size_close]) ?_
  intro i
  simp only [contains_close, mem_close, h]

theorem mirrors_close (a : Automaton) (seeds : List Nat) :
    a.Mirrors (a.close seeds (.empty a.size)).2 (a.close seeds (.empty a.size)).1 where
  nodup := nodup_close a seeds _
  contains_iff i := by rw [contains_close, StateSet.contains_empty]; simp
  size_eq := by rw [size_close, StateSet.size_empty]

/-- One character of the run is one step of the set. -/
theorem Mirrors.close_eq_step {active : List Nat} {marks : StateSet} (h : a.Mirrors active marks)
    (c : Char) : (a.close (a.moves active c) (marks.eraseAll active)).1 = a.step marks c := by
  rw [h.eraseAll_eq, step]
  refine close_congr _ ?_
  intro i
  simp only [mem_moves, StateSet.mem_toList, h.contains_iff]

theorem Mirrors.advance {active : List Nat} {marks : StateSet} (h : a.Mirrors active marks)
    (c : Char) :
    a.Mirrors (a.close (a.moves active c) (marks.eraseAll active)).2 (a.step marks c) := by
  rw [← h.close_eq_step, h.eraseAll_eq]
  exact mirrors_close a _

/-! ## The log of a run -/

/-- The set after `n` characters of a text, from the set `s`. -/
def after (a : Automaton) (s : StateSet) (text : List Char) (n : Nat) : StateSet :=
  (text.take n).foldl a.step s

/-- What a run has to report that stands in the set `s` at `position` and
has `text` in front of it. It reads some `n` characters, each of which
some state lists and which leave members in all sets before the last; it
goes on as long as it can. Each character read is reported with the size
of the set that it leads to. If members are left and so is a character,
then no state lists this one, and that is reported with its place. -/
def Reports (a : Automaton) (s : StateSet) (position : Nat) (text : List Char)
    (log : List Event) : Prop :=
  ∃ n ≤ text.length,
    (∀ (k : Nat) (hk : k < text.length), k < n →
      a.Lists text[k] ∧ (a.after s text k).count ≠ 0) ∧
    (∀ hn : n < text.length, (a.after s text n).count = 0 ∨ ¬ a.Lists text[n]) ∧
    log = (text.take n).mapIdx (fun k c => .advanced c (a.after s text (k + 1)).count) ++
      (if (a.after s text n).count = 0 then []
        else (text[n]?).toList.map fun c => .outsideAlphabet c (position + n))

theorem reports_nil (s : StateSet) (position : Nat) : a.Reports s position [] [] :=
  ⟨0, by simp, by simp, by simp, by simp⟩

theorem reports_outside {s : StateSet} {c : Char} (hs : s.count ≠ 0) (hc : ¬ a.Lists c)
    (position : Nat) (text : List Char) :
    a.Reports s position (c :: text) [.outsideAlphabet c position] :=
  ⟨0, by simp, by simp, fun _ => Or.inr hc, by simp [after, hs]⟩

/-- The last character read is the one that leaves no member. -/
theorem reports_dead {s : StateSet} {c : Char} (hs : s.count ≠ 0) (hc : a.Lists c)
    (hdead : (a.step s c).count = 0) (position : Nat) (text : List Char) :
    a.Reports s position (c :: text) [.advanced c 0] := by
  refine ⟨1, by simp, fun k _ hk => ?_, fun _ => Or.inl ?_, ?_⟩
  · obtain rfl : k = 0 := by omega
    exact ⟨hc, hs⟩
  · simpa [after] using hdead
  · simp [after, hdead]

/-- A character read in front of a report. -/
theorem Reports.cons {s : StateSet} {c : Char} {position : Nat} {text : List Char}
    {log : List Event} (hs : s.count ≠ 0) (hc : a.Lists c)
    (h : a.Reports (a.step s c) (position + 1) text log) :
    a.Reports s position (c :: text) (.advanced c (a.step s c).count :: log) := by
  obtain ⟨n, hn, hread, hend, rfl⟩ := h
  have hafter : ∀ k, a.after s (c :: text) (k + 1) = a.after (a.step s c) text k := fun k => rfl
  refine ⟨n + 1, by simpa using hn, fun k hk hkn => ?_, fun hlt => ?_, ?_⟩
  · cases k with
    | zero => exact ⟨hc, hs⟩
    | succ k =>
        rw [hafter]
        exact hread k (by simpa using hk) (by omega)
  · rw [hafter]
    exact hend (by simpa using hlt)
  · have hfirst : a.after (a.step s c) text 0 = a.step s c := rfl
    have hplace : position + (n + 1) = position + 1 + n := by omega
    simp only [hafter, hfirst, hplace, List.take_succ_cons, List.mapIdx_cons, List.cons_append,
      List.getElem?_cons_succ]

/-- The run from any point agrees with the sets: in its verdict, and in
what it reports from there on. -/
theorem runFrom_spec (halphabet : a.alphabet = a.usedAlphabet) {active : List Nat}
    {marks : StateSet} (h : a.Mirrors active marks) (hne : marks.count ≠ 0) (position : Nat)
    (log : List Event) (text : List Char) :
    (a.runFrom active marks position log text).accepted =
        a.isAccepting (text.foldl a.step marks) ∧
      ∃ more, (a.runFrom active marks position log text).log = log.reverse ++ more ∧
        a.Reports marks position text more := by
  induction text generalizing active marks position log with
  | nil => exact ⟨h.any_accepting, [], by simp [runFrom], reports_nil marks position⟩
  | cons c text ih =>
      by_cases hc : c ∈ a.alphabet
      · have hlists : a.Lists c := mem_usedAlphabet.mp (halphabet ▸ hc)
        have hnext := h.advance c
        have hlength := hnext.length_eq
        by_cases hdead : (a.step marks c).count = 0
        · have hempty : (a.close (a.moves active c) (marks.eraseAll active)).2 = [] :=
            List.eq_nil_of_length_eq_zero (hlength.trans hdead)
          rw [runFrom, if_pos hc]
          refine ⟨?_, [.advanced c 0], by simp [hempty], reports_dead hne hlists hdead _ _⟩
          simp only [hempty, List.isEmpty_nil, if_true, List.foldl_cons]
          rw [isAccepting_foldl_step_of_count_eq_zero hdead]
        · have hfull : (a.close (a.moves active c) (marks.eraseAll active)).2.isEmpty = false := by
            rw [List.isEmpty_eq_false_iff, Ne, ← List.length_eq_zero_iff, hlength]
            exact hdead
          obtain ⟨haccepted, more, hlog, hmore⟩ := ih hnext hdead (position + 1)
            (.advanced c (a.step marks c).count :: log)
          rw [runFrom, if_pos hc]
          simp only [hfull, hlength, h.close_eq_step, Bool.false_eq_true, if_false]
          exact ⟨haccepted, _, by rw [hlog]; simp, hmore.cons hne hlists⟩
      · have hlists : ¬ a.Lists c := fun hl => hc (halphabet ▸ mem_usedAlphabet.mpr hl)
        rw [runFrom, if_neg hc]
        refine ⟨?_, [.outsideAlphabet c position], by simp, reports_outside hne hlists _ _⟩
        rw [List.foldl_cons, isAccepting_foldl_step_of_count_eq_zero]
        exact count_step_of_not_lists hlists

/-! ## Whole texts -/

theorem mirrors_startSet (h : a.WellFormed) :
    a.Mirrors (a.close [a.start] (.empty a.size)).2 a.startSet := by
  have hstart : a.startSet = (a.close [a.start] (.empty a.size)).1 := by
    refine close_congr _ ?_
    intro i
    simp [StateSet.mem_toList, StateSet.contains_insert, h.start_lt]
  rw [hstart]
  exact mirrors_close a _

/-- The start state is active before anything is read. -/
theorem count_startSet (h : a.WellFormed) : a.startSet.count ≠ 0 := by
  have hstart : a.startSet.contains a.start = true :=
    (contains_foldl_step_startSet h [] a.start).mpr (.nil _)
  intro hzero
  rw [StateSet.count_eq_zero_iff.mp hzero a.start] at hstart
  cases hstart

/-- The run on a text and the sets that stepping through it gives: the
same verdict, and a log that reports the sets. -/
theorem run_spec (h : a.WellFormed) (text : String) :
    a.accepts text = a.isAccepting (text.toList.foldl a.step a.startSet) ∧
      a.Reports a.startSet 0 text.toList (a.run text).log := by
  have hmirrors := mirrors_startSet h
  have hmarks : (a.close [a.start] (.empty a.size)).1 = a.startSet :=
    StateSet.ext (by rw [hmirrors.size_eq, size_close, StateSet.size_empty]) fun i => by
      rw [hmirrors.contains_iff, (mirrors_close a _).contains_iff]
  obtain ⟨haccepted, log, hlog, hreports⟩ :=
    runFrom_spec h.alphabet_eq hmirrors (count_startSet h) 0 [] text.toList
  rw [List.reverse_nil, List.nil_append] at hlog
  have hrun : a.run text =
      a.runFrom (a.close [a.start] (.empty a.size)).2 a.startSet 0 [] text.toList := by
    rw [← hmarks]
    rfl
  rw [accepts, hrun, hlog]
  exact ⟨haccepted, hreports⟩

/-- An automaton matches what its paths from the start to an accept state
spell. -/
theorem accepts_iff_path (h : a.WellFormed) (text : String) :
    a.accepts text = true ↔
      ∃ j, a.accepting.contains j = true ∧ Path a.Leads a.start text.toList j := by
  rw [(run_spec h text).1, isAccepting_iff]
  simp only [contains_foldl_step_startSet h, and_comm]

end Automaton

end Thompson
