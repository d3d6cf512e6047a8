import Thompson.Proofs.Relocation

/-!
# No state in vain

Every state of the automaton of a pattern is on a path from the start
state to an accept state (`Builder.trim_construct`). So a set of states
that is not empty after some characters says that a word of the language
begins with them, and a run that stops where the set is empty stops as
early as it can (`Automaton.stops_earliest`).

Each rule gives a path from the new start to the starts of the operands,
and one from their accept states to those of the node; a concatenation
gives the latter through the right operand, whose start is a state like
any other.
-/

namespace Thompson

/-! ## States on the way through a fragment -/

/-- Each state from `first` on is reached from the start of a fragment,
and leaves it through an accept state. -/
structure Trim (leads : Relation) (first size : Nat) (f : Fragment) : Prop where
  reached : ∀ i, first ≤ i → i < size → ∃ text, Path leads f.start text i
  leaves : ∀ i, first ≤ i → i < size → ∃ text, ∃ j ∈ f.accepts.toList, Path leads i text j

theorem Trim.mono {leads leads' : Relation} {first size : Nat} {f : Fragment}
    (h : Trim leads first size f) (hmono : ∀ i label j, leads i label j → leads' i label j) :
    Trim leads' first size f where
  reached i hi hlt := by
    obtain ⟨text, hpath⟩ := h.reached i hi hlt
    exact ⟨text, hpath.mono hmono⟩
  leaves i hi hlt := by
    obtain ⟨text, j, hj, hpath⟩ := h.leaves i hi hlt
    exact ⟨text, j, hj, hpath.mono hmono⟩

namespace Builder

variable {b b₁ b₂ : Builder} {f l r : Fragment} {p q : Pattern}

/-- A construction takes no transition away. -/
theorem Adds.leads_mono (h : b.Adds b₁ f p) (i : Nat) (label : Label) (j : Nat)
    (hj : b.Leads i label j) : b₁.Leads i label j :=
  (leads_congr (h.same i (lt_size_of_leads hj))).mpr hj

theorem trim_symbolFragment (b : Builder) (c : Char) :
    Trim (b.symbolFragment c).1.Leads b.size (b.symbolFragment c).1.size
      (b.symbolFragment c).2 := by
  have hchar : Path (b.symbolFragment c).1.Leads b.size [c] (b.size + 1) :=
    .char (leads_symbolFragment.mpr (Or.inr ⟨rfl, rfl, rfl⟩)) (.nil _)
  have hsize := size_symbolFragment b c
  refine ⟨fun i hi hlt => ?_, fun i hi hlt => ?_⟩
  · obtain rfl | rfl : i = b.size ∨ i = b.size + 1 := by omega
    · exact ⟨[], .nil _⟩
    · exact ⟨[c], hchar⟩
  · obtain rfl | rfl : i = b.size ∨ i = b.size + 1 := by omega
    · exact ⟨[c], _, List.mem_singleton_self _, hchar⟩
    · exact ⟨[], _, List.mem_singleton_self _, .nil _⟩

theorem trim_unionFragment (hl : b.Adds b₁ l p) (hr : b₁.Adds b₂ r q)
    (hltrim : Trim b₁.Leads b.size b₁.size l) (hrtrim : Trim b₂.Leads b₁.size b₂.size r) :
    Trim (b₂.unionFragment l r).1.Leads b.size (b₂.unionFragment l r).1.size
      (b₂.unionFragment l r).2 := by
  have hold : ∀ i label j, b₂.Leads i label j → (b₂.unionFragment l r).1.Leads i label j :=
    fun i label j hj => leads_unionFragment.mpr (Or.inl hj)
  have hltrim := hltrim.mono fun i label j hj => hold i label j (hr.leads_mono i label j hj)
  have hrtrim := hrtrim.mono hold
  have hltake : (b₂.unionFragment l r).1.Leads b₂.size .epsilon l.start :=
    leads_unionFragment.mpr (Or.inr ⟨rfl, rfl, Or.inl rfl⟩)
  have hrtake : (b₂.unionFragment l r).1.Leads b₂.size .epsilon r.start :=
    leads_unionFragment.mpr (Or.inr ⟨rfl, rfl, Or.inr rfl⟩)
  have haccepts := accepts_unionFragment b₂ l r
  have hsize := size_unionFragment b₂ l r
  have hleave : ∀ i, b.size ≤ i → i < b₁.size → ∃ text,
      ∃ j ∈ (b₂.unionFragment l r).2.accepts.toList,
        Path (b₂.unionFragment l r).1.Leads i text j := by
    intro i hi hlt
    obtain ⟨text, j, hj, hpath⟩ := hltrim.leaves i hi hlt
    exact ⟨text, j, haccepts ▸ List.mem_append_left _ hj, hpath⟩
  refine ⟨fun i hi hlt => ?_, fun i hi hlt => ?_⟩
  · by_cases hl₁ : i < b₁.size
    · obtain ⟨text, hpath⟩ := hltrim.reached i hi hl₁
      exact ⟨text, .epsilon hltake hpath⟩
    · by_cases hr₁ : i < b₂.size
      · obtain ⟨text, hpath⟩ := hrtrim.reached i (Nat.le_of_not_lt hl₁) hr₁
        exact ⟨text, .epsilon hrtake hpath⟩
      · obtain rfl : i = b₂.size := by omega
        exact ⟨[], .nil _⟩
  · by_cases hl₁ : i < b₁.size
    · exact hleave i hi hl₁
    · by_cases hr₁ : i < b₂.size
      · obtain ⟨text, j, hj, hpath⟩ := hrtrim.leaves i (Nat.le_of_not_lt hl₁) hr₁
        exact ⟨text, j, haccepts ▸ List.mem_append_right _ hj, hpath⟩
      · obtain rfl : i = b₂.size := by omega
        obtain ⟨text, j, hj, hpath⟩ := hleave l.start hl.start_mem.1 hl.start_mem.2
        exact ⟨text, j, hj, .epsilon hltake hpath⟩

theorem trim_concatFragment (hl : b.Adds b₁ l p) (hr : b₁.Adds b₂ r q)
    (hltrim : Trim b₁.Leads b.size b₁.size l) (hrtrim : Trim b₂.Leads b₁.size b₂.size r) :
    Trim (b₂.concatFragment l r).1.Leads b.size (b₂.concatFragment l r).1.size
      (b₂.concatFragment l r).2 := by
  have hold : ∀ i label j, b₂.Leads i label j → (b₂.concatFragment l r).1.Leads i label j :=
    fun i label j hj => (hl.leads_concatFragment hr i label j).mpr (Or.inl hj)
  have hltrim := hltrim.mono fun i label j hj => hold i label j (hr.leads_mono i label j hj)
  have hrtrim := hrtrim.mono hold
  -- from any accept state of the left operand the right one is entered
  have hcross : ∀ {i text j}, j ∈ l.accepts.toList →
      Path (b₂.concatFragment l r).1.Leads i text j →
      Path (b₂.concatFragment l r).1.Leads i text r.start := by
    intro i text j hj hpath
    have htake : Path (b₂.concatFragment l r).1.Leads j [] r.start :=
      .epsilon ((hl.leads_concatFragment hr _ _ _).mpr (Or.inr ⟨hj, rfl, rfl⟩)) (.nil _)
    simpa using hpath.append htake
  refine ⟨fun i hi hlt => ?_, fun i hi hlt => ?_⟩
  · by_cases hl₁ : i < b₁.size
    · exact hltrim.reached i hi hl₁
    · obtain ⟨front, j, hj, hfront⟩ := hltrim.leaves l.start hl.start_mem.1 hl.start_mem.2
      obtain ⟨back, hback⟩ := hrtrim.reached i (Nat.le_of_not_lt hl₁) (by
        rwa [size_concatFragment] at hlt)
      exact ⟨front ++ back, (hcross hj hfront).append hback⟩
  · by_cases hl₁ : i < b₁.size
    · obtain ⟨front, j, hj, hfront⟩ := hltrim.leaves i hi hl₁
      obtain ⟨back, k, hk, hback⟩ := hrtrim.leaves r.start hr.start_mem.1 hr.start_mem.2
      exact ⟨front ++ back, k, hk, (hcross hj hfront).append hback⟩
    · exact hrtrim.leaves i (Nat.le_of_not_lt hl₁) (by rwa [size_concatFragment] at hlt)

theorem trim_starFragment (h : b.Adds b₁ f p) (htrim : Trim b₁.Leads b.size b₁.size f) :
    Trim (b₁.starFragment f).1.Leads b.size (b₁.starFragment f).1.size
      (b₁.starFragment f).2 := by
  have htrim := htrim.mono fun i label j hj => (h.leads_starFragment i label j).mpr (Or.inl hj)
  have htake : (b₁.starFragment f).1.Leads b₁.size .epsilon f.start :=
    (h.leads_starFragment _ _ _).mpr (Or.inr ⟨Or.inr rfl, rfl, rfl⟩)
  have hsize := size_starFragment b₁ f
  have haccepts := accepts_starFragment b₁ f
  refine ⟨fun i hi hlt => ?_, fun i hi hlt => ?_⟩
  · by_cases hi₁ : i < b₁.size
    · obtain ⟨text, hpath⟩ := htrim.reached i hi hi₁
      exact ⟨text, .epsilon htake hpath⟩
    · obtain rfl : i = b₁.size := by omega
      exact ⟨[], .nil _⟩
  · by_cases hi₁ : i < b₁.size
    · obtain ⟨text, j, hj, hpath⟩ := htrim.leaves i hi hi₁
      exact ⟨text, j, haccepts ▸ List.mem_append_left _ hj, hpath⟩
    · obtain rfl : i = b₁.size := by omega
      exact ⟨[], _, haccepts ▸ List.mem_append_right _ (List.mem_singleton_self _), .nil _⟩

theorem trim_construct (b : Builder) (p : Pattern) :
    Trim (b.construct p).builder.Leads b.size (b.construct p).builder.size
      (b.construct p).fragment := by
  induction p generalizing b with
  | symbol c => exact trim_symbolFragment b c
  | union lhs rhs ihl ihr =>
      exact trim_unionFragment (adds_construct lhs b) (adds_construct rhs _) (ihl b) (ihr _)
  | concat lhs rhs ihl ihr =>
      exact trim_concatFragment (adds_construct lhs b) (adds_construct rhs _) (ihl b) (ihr _)
  | star operand ih => exact trim_starFragment (adds_construct operand b) (ih b)

end Builder

/-! ## States of an automaton -/

/-- Some word of the language begins with `front`. -/
def Pattern.Begins (p : Pattern) (front : List Char) : Prop := ∃ back, p.Matches (front ++ back)

namespace Automaton

theorem path_start_lt {a : Automaton} (h : a.WellFormed) {text : List Char} {q : Nat}
    (hpath : Path a.Leads a.start text q) : q < a.size :=
  hpath.stays_inside (· < a.size) (fun i label j _ hj => h.lt_of_leads i label j hj) h.start_lt

theorem matches_iff_path (p : Pattern) (regex : String) (text : List Char) :
    p.Matches text ↔ ∃ j, (ofPattern p regex).accepting.contains j = true ∧
      Path (ofPattern p regex).Leads (ofPattern p regex).start text j := by
  have h := accepts_ofPattern p regex (String.ofList text)
  rw [accepts_iff_path (wellFormed_ofPattern p regex), String.toList_ofList] at h
  exact h.symm

theorem exists_path_start (p : Pattern) (regex : String) {q : Nat}
    (hq : q < (ofPattern p regex).size) :
    ∃ text, Path (ofPattern p regex).Leads (ofPattern p regex).start text q := by
  rw [ofPattern_eq] at hq ⊢
  obtain ⟨text, hpath⟩ := (Builder.trim_construct .fresh p).reached q (Nat.zero_le q) hq
  exact ⟨text, hpath.mono fun _ _ _ => Builder.leads_finish.mpr⟩

theorem exists_path_accepting (p : Pattern) (regex : String) {q : Nat}
    (hq : q < (ofPattern p regex).size) :
    ∃ text j, (ofPattern p regex).accepting.contains j = true ∧
      Path (ofPattern p regex).Leads q text j := by
  have hadds := Builder.adds_construct p .fresh
  rw [ofPattern_eq] at hq ⊢
  obtain ⟨text, j, hj, hpath⟩ := (Builder.trim_construct .fresh p).leaves q (Nat.zero_le q) hq
  exact ⟨text, j, Builder.contains_accepting_finish.mpr ⟨hj, (hadds.accepts_mem j hj).2⟩,
    hpath.mono fun _ _ _ => Builder.leads_finish.mpr⟩

/-- Since each state leaves to an accept state, a path that reads
something can be continued to read a word. -/
theorem exists_path_iff_begins (p : Pattern) (regex : String) (front : List Char) :
    (∃ q, Path (ofPattern p regex).Leads (ofPattern p regex).start front q) ↔ p.Begins front := by
  constructor
  · rintro ⟨q, hfront⟩
    have hq := path_start_lt (wellFormed_ofPattern p regex) hfront
    obtain ⟨back, j, hj, hback⟩ := exists_path_accepting p regex hq
    exact ⟨back, (matches_iff_path p regex _).mpr ⟨j, hj, hfront.append hback⟩⟩
  · rintro ⟨back, hmatches⟩
    obtain ⟨j, -, hpath⟩ := (matches_iff_path p regex _).mp hmatches
    obtain ⟨q, hfront, -⟩ := hpath.exists_of_append
    exact ⟨q, hfront⟩

/-! ## Sets of states -/

theorem exists_contains_iff_begins (p : Pattern) (regex : String) (front : List Char) :
    (∃ q, (front.foldl (ofPattern p regex).step (ofPattern p regex).startSet).contains q = true) ↔
      p.Begins front := by
  simp only [contains_foldl_step_startSet (wellFormed_ofPattern p regex)]
  exact exists_path_iff_begins p regex front

theorem count_after_ne_zero_iff (p : Pattern) (regex : String) (text : List Char) (n : Nat) :
    ((ofPattern p regex).after (ofPattern p regex).startSet text n).count ≠ 0 ↔
      p.Begins (text.take n) := by
  rw [← exists_contains_iff_begins p regex, after, Ne, StateSet.count_eq_zero_iff, not_forall]
  simp only [Bool.not_eq_false]

theorem lists_ofPattern_iff (p : Pattern) (regex : String) (c : Char) :
    (ofPattern p regex).Lists c ↔ c ∈ p.symbols := by
  rw [← mem_usedAlphabet, ← (wellFormed_ofPattern p regex).alphabet_eq, ofPattern_eq]
  have h := Builder.mem_alphabet_construct (b := .fresh) (p := p) (c := c)
  exact h.trans (or_iff_right (Alphabet.not_mem_empty c))

/-! ## Runs -/

/-- A log that reports one set of states after the other for as long as
some word of the language begins with what was read. At the first
character behind which there is none, it ends with an empty set, or with
the remark that no pattern symbol is this character. -/
def StopsEarliest (a : Automaton) (p : Pattern) (text : List Char) (log : List Event) : Prop :=
  ∃ n ≤ text.length, p.Begins (text.take n) ∧
    (n < text.length → ¬ p.Begins (text.take (n + 1))) ∧
    log = (text.take n).mapIdx (fun k c => .advanced c (a.after a.startSet text (k + 1)).count) ++
      (text[n]?).toList.map fun c => if c ∈ p.symbols then .advanced c 0 else .outsideAlphabet c n

theorem stopsEarliest_of_reports {p : Pattern} {regex : String} {text : List Char}
    {log : List Event}
    (h : (ofPattern p regex).Reports (ofPattern p regex).startSet 0 text log) :
    (ofPattern p regex).StopsEarliest p text log := by
  obtain ⟨n, hn, hread, hend, rfl⟩ := h
  by_cases hempty : ((ofPattern p regex).after (ofPattern p regex).startSet text n).count = 0
  · -- the last character read is the one that no word goes on with
    cases n with
    | zero => exact absurd hempty (count_startSet (wellFormed_ofPattern p regex))
    | succ n =>
        obtain ⟨hlists, hcount⟩ := hread n hn (Nat.lt_succ_self n)
        have hsymbol := (lists_ofPattern_iff p regex _).mp hlists
        refine ⟨n, Nat.le_of_lt hn, (count_after_ne_zero_iff p regex text n).mp hcount,
          fun _ hbegins => (count_after_ne_zero_iff p regex text (n + 1)).mpr hbegins hempty, ?_⟩
        rw [if_pos hempty, List.append_nil, List.take_succ_eq_append_getElem hn,
          List.mapIdx_concat, List.length_take_of_le (Nat.le_of_lt hn), hempty,
          List.getElem?_eq_getElem hn]
        simp [hsymbol]
  · refine ⟨n, hn, (count_after_ne_zero_iff p regex text n).mp hempty, fun hlt hbegins => ?_, ?_⟩
    · have hlists := (hend hlt).resolve_left hempty
      refine (count_after_ne_zero_iff p regex text (n + 1)).mpr hbegins ?_
      rw [after, List.take_succ_eq_append_getElem hlt, List.foldl_append]
      exact count_step_of_not_lists hlists
    · rw [if_neg hempty, Nat.zero_add]
      refine congrArg _ (List.map_congr_left fun c hc => ?_)
      obtain ⟨hlt, rfl⟩ := List.getElem?_eq_some_iff.mp (Option.mem_toList.mp hc)
      have hsymbol := (hend hlt).resolve_left hempty
      rw [lists_ofPattern_iff] at hsymbol
      rw [if_neg hsymbol]

/-! ## All of it -/

/-- Every state of the automaton of a pattern is reached from the start
and leaves to an accept state. Therefore the states after some characters
are none if and only if no word of the language begins with them, and a
run ends at the first character of which that is true. -/
theorem stops_earliest (p : Pattern) (regex : String) :
    (∀ q < (ofPattern p regex).size,
      (∃ text, Path (ofPattern p regex).Leads (ofPattern p regex).start text q) ∧
        ∃ text j, (ofPattern p regex).accepting.contains j = true ∧
          Path (ofPattern p regex).Leads q text j) ∧
      (∀ front : List Char,
        (∃ q, (front.foldl (ofPattern p regex).step (ofPattern p regex).startSet).contains q =
            true) ↔ p.Begins front) ∧
      ∀ text : String,
        (ofPattern p regex).StopsEarliest p text.toList ((ofPattern p regex).run text).log := by
  refine ⟨fun q hq => ⟨exists_path_start p regex hq, exists_path_accepting p regex hq⟩,
    exists_contains_iff_begins p regex, fun text => ?_⟩
  exact stopsEarliest_of_reports (run_spec (wellFormed_ofPattern p regex) text).2

end Automaton

end Thompson
