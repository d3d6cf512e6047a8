import Mathlib.Data.List.Forall2
import Thompson.Proofs.Fragment
import Thompson.Proofs.Simulation

/-!
# The language of a construction

A fragment matches exactly what its pattern does, however many other
fragments its builder holds (`accepts_finish`). The accept states of a
fragment keep their transitions when a rule adds more to them, so paths
run through accept states; what the proof needs is how a path factors
where it takes a transition that the rule has added
(`path_fork_iff`, `Path.cross`, `Path.star_front`).

`Builder.Adds` is the invariant of the recursion: the states of a
fragment are the ones added, nothing older is changed, no transition
leads out of them, and the paths from the start to an accept state spell
the language of the pattern. Each rule keeps it; what its fragment
matches is a lemma of its own (`matches_symbolFragment`,
`Adds.matches_union`, `Adds.matches_concat`, `Adds.matches_star`).
-/

namespace Thompson

/-! ## Added transitions -/

section Added

variable {leads leads' : Relation} {bridge : Nat → Prop} {t : Nat}

/-- A state has epsilon transitions to two states and no others: a path
from it to another state is one from either of the two. -/
theorem path_fork_iff {i t₁ t₂ k : Nat} {text : List Char}
    (hfork : ∀ label j, leads i label j ↔ label = .epsilon ∧ (j = t₁ ∨ j = t₂)) (hk : k ≠ i) :
    Path leads i text k ↔ Path leads t₁ text k ∨ Path leads t₂ text k := by
  constructor
  · intro h
    cases h with
    | nil => exact absurd rfl hk
    | epsilon hstep hrest =>
        rcases ((hfork _ _).mp hstep).2 with rfl | rfl
        · exact Or.inl hrest
        · exact Or.inr hrest
    | char hstep _ => cases ((hfork _ _).mp hstep).1
  · rintro (h | h)
    · exact .epsilon ((hfork _ _).mpr ⟨rfl, Or.inl rfl⟩) h
    · exact .epsilon ((hfork _ _).mpr ⟨rfl, Or.inr rfl⟩) h

/-- Some states are given an epsilon transition to `t`: a path takes none
of the new transitions, or a first one. -/
theorem Path.cross
    (hadded : ∀ i label j, leads' i label j → leads i label j ∨
      bridge i ∧ label = .epsilon ∧ j = t)
    {i k : Nat} {text : List Char} (h : Path leads' i text k) :
    Path leads i text k ∨ ∃ front back m, text = front ++ back ∧ bridge m ∧
      Path leads i front m ∧ Path leads' t back k := by
  induction h with
  | nil i => exact Or.inl (.nil i)
  | @epsilon i j k text hstep hrest ih =>
      rcases hadded _ _ _ hstep with hold | ⟨hbridge, -, rfl⟩
      · rcases ih with hpath | ⟨front, back, m, rfl, hm, hfront, hback⟩
        · exact Or.inl (.epsilon hold hpath)
        · exact Or.inr ⟨front, back, m, rfl, hm, .epsilon hold hfront, hback⟩
      · exact Or.inr ⟨[], text, i, rfl, hbridge, .nil i, hrest⟩
  | @char i j k c text hstep hrest ih =>
      rcases hadded _ _ _ hstep with hold | ⟨-, hlabel, -⟩
      · rcases ih with hpath | ⟨front, back, m, rfl, hm, hfront, hback⟩
        · exact Or.inl (.char hold hpath)
        · exact Or.inr ⟨c :: front, back, m, rfl, hm, .char hold hfront, hback⟩
      · cases hlabel

variable {p : Pattern}

/-- The bridges lead back to `t`, and the paths from `t` to a bridge
spell `p`. Then a path to a bridge is one without new transitions up to
some bridge, and a repetition of `p` behind it. -/
theorem Path.star_front
    (hadded : ∀ i label j, leads' i label j → leads i label j ∨
      bridge i ∧ label = .epsilon ∧ j = t)
    (hp : ∀ text j, bridge j → Path leads t text j → p.Matches text)
    {i k : Nat} {text : List Char} (h : Path leads' i text k) (hk : bridge k) :
    ∃ front back m, text = front ++ back ∧ bridge m ∧ Path leads i front m ∧
      (Pattern.star p).Matches back := by
  induction h with
  | nil i => exact ⟨[], [], i, rfl, hk, .nil i, .starNil⟩
  | @epsilon i j k text hstep hrest ih =>
      obtain ⟨front, back, m, rfl, hm, hfront, hback⟩ := ih hk
      rcases hadded _ _ _ hstep with hold | ⟨hbridge, -, rfl⟩
      · exact ⟨front, back, m, rfl, hm, .epsilon hold hfront, hback⟩
      · exact ⟨[], front ++ back, i, rfl, hbridge, .nil i, .starCons (hp _ _ hm hfront) hback⟩
  | @char i j k c text hstep hrest ih =>
      obtain ⟨front, back, m, rfl, hm, hfront, hback⟩ := ih hk
      rcases hadded _ _ _ hstep with hold | ⟨-, hlabel, -⟩
      · exact ⟨c :: front, back, m, rfl, hm, .char hold hfront, hback⟩
      · cases hlabel

/-- Conversely every repetition of `p` is spelled from every bridge. -/
theorem exists_path_of_star_matches (leads : Relation) (t : Nat)
    (hold : ∀ i label j, leads i label j → leads' i label j)
    (hback : ∀ i, bridge i → leads' i .epsilon t)
    (hp : ∀ text, p.Matches text → ∃ j, bridge j ∧ Path leads t text j)
    {text : List Char} (h : (Pattern.star p).Matches text) {i : Nat} (hi : bridge i) :
    ∃ k, bridge k ∧ Path leads' i text k := by
  generalize hstar : Pattern.star p = q at h
  induction h generalizing i with
  | symbol | unionLeft | unionRight | concat => cases hstar
  | starNil => exact ⟨i, hi, .nil i⟩
  | starCons hfront _ _ ih =>
      obtain rfl := Pattern.star.inj hstar
      obtain ⟨j, hj, hpath⟩ := hp _ hfront
      obtain ⟨k, hk, hrest⟩ := ih hj rfl
      exact ⟨k, hk, .epsilon (hback i hi) ((hpath.mono hold).append hrest)⟩

end Added

/-! ## The invariant of a construction -/

namespace Builder

variable {b b₁ b₂ : Builder} {f l r : Fragment} {p q : Pattern}

/-- What was made to get from `b` to `b'` is the fragment `f`, which
matches what `p` does. -/
structure Adds (b b' : Builder) (f : Fragment) (p : Pattern) : Prop where
  size_le : b.size ≤ b'.size
  same : ∀ i, i < b.size → b'.states[i]? = b.states[i]?
  start_mem : b.size ≤ f.start ∧ f.start < b'.size
  accepts_mem : ∀ i ∈ f.accepts.toList, b.size ≤ i ∧ i < b'.size
  closed : ∀ i label j, b.size ≤ i → b'.Leads i label j → b.size ≤ j ∧ j < b'.size
  matches_iff : ∀ text,
    (∃ j ∈ f.accepts.toList, Path b'.Leads f.start text j) ↔ p.Matches text

theorem leads_congr {i j : Nat} {label : Label} (h : b₁.states[i]? = b.states[i]?) :
    b₁.Leads i label j ↔ b.Leads i label j := by
  rw [Leads, Leads, h]

/-- The states of a fragment are closed, seen from any builder that has
left them as they were. -/
theorem Adds.closed_of_same (h : b.Adds b₁ f p)
    (hsame : ∀ i, i < b₁.size → b₂.states[i]? = b₁.states[i]?) (i : Nat) (label : Label) (j : Nat)
    (hi : b.size ≤ i ∧ i < b₁.size) (hj : b₂.Leads i label j) : b.size ≤ j ∧ j < b₁.size :=
  h.closed i label j hi.1 ((leads_congr (hsame i hi.2)).mp hj)

/-- What a fragment matches is not changed by transitions that start
elsewhere. -/
theorem Adds.matches_iff_of_agree (h : b.Adds b₁ f p) {leads : Relation}
    (hagree : ∀ i label j, b.size ≤ i ∧ i < b₁.size → (leads i label j ↔ b₁.Leads i label j))
    (text : List Char) :
    (∃ j ∈ f.accepts.toList, Path leads f.start text j) ↔ p.Matches text := by
  rw [← h.matches_iff]
  refine exists_congr fun j => and_congr_right ?_
  intro _
  exact path_congr_inside (fun i => b.size ≤ i ∧ i < b₁.size)
    (fun i label j hi hj => h.closed i label j hi.1 hj) hagree h.start_mem

/-- A path from the start of a fragment ends in one of its states. -/
theorem Adds.end_mem (h : b.Adds b₁ f p) {leads : Relation}
    (hagree : ∀ i label j, b.size ≤ i ∧ i < b₁.size → (leads i label j ↔ b₁.Leads i label j))
    {text : List Char} {j : Nat} (hpath : Path leads f.start text j) :
    b.size ≤ j ∧ j < b₁.size :=
  hpath.stays_inside (fun i => b.size ≤ i ∧ i < b₁.size)
    (fun i label j hi hj => h.closed i label j hi.1 ((hagree i label j hi).mp hj)) h.start_mem

/-- A fragment is among the states that the next one is built behind. -/
theorem Adds.start_lt (hl : b.Adds b₁ l p) (hr : b₁.Adds b₂ r q) : l.start < b₂.size :=
  Nat.lt_of_lt_of_le hl.start_mem.2 hr.size_le

theorem Adds.accepts_lt (hl : b.Adds b₁ l p) (hr : b₁.Adds b₂ r q) :
    ∀ i ∈ l.accepts.toList, i < b₂.size :=
  fun i hi => Nat.lt_of_lt_of_le (hl.accepts_mem i hi).2 hr.size_le

/-- Two constructions one behind the other change nothing that was there
before both. -/
theorem Adds.same_trans (hl : b.Adds b₁ l p) (hr : b₁.Adds b₂ r q) {i : Nat} (hi : i < b.size) :
    b₂.states[i]? = b.states[i]? :=
  (hr.same i (Nat.lt_of_lt_of_le hi hl.size_le)).trans (hl.same i hi)

/-- The states that two constructions have added are closed together. -/
theorem Adds.closed_trans (hl : b.Adds b₁ l p) (hr : b₁.Adds b₂ r q) {i j : Nat} {label : Label}
    (hi : b.size ≤ i) (hj : b₂.Leads i label j) : b.size ≤ j ∧ j < b₂.size := by
  have hsize₁ := hl.size_le
  have hsize₂ := hr.size_le
  by_cases hi₁ : i < b₁.size
  · have := hl.closed_of_same hr.same i label j ⟨hi, hi₁⟩ hj
    omega
  · have := hr.closed i label j (Nat.le_of_not_lt hi₁) hj
    omega

/-! ## The rules -/

/-- The one transition of a symbol leads to a state without transitions. -/
theorem matches_symbolFragment (b : Builder) (c : Char) (text : List Char) :
    (∃ j ∈ (b.symbolFragment c).2.accepts.toList,
      Path (b.symbolFragment c).1.Leads (b.symbolFragment c).2.start text j) ↔
      (Pattern.symbol c).Matches text := by
  have haccepts : (b.symbolFragment c).2.accepts.toList = [b.size + 1] := rfl
  have hstart : (b.symbolFragment c).2.start = b.size := rfl
  have hstuck : ∀ label j, ¬ (b.symbolFragment c).1.Leads (b.size + 1) label j := by
    intro label j hj
    rcases leads_symbolFragment.mp hj with hold | ⟨hi, -, -⟩
    · exact absurd (lt_size_of_leads hold) (by omega)
    · omega
  rw [haccepts, hstart, Pattern.symbol_matches_iff]
  constructor
  · rintro ⟨j, hj, hpath⟩
    have hj := List.mem_singleton.mp hj
    cases hpath with
    | nil => omega
    | epsilon hstep _ =>
        rcases leads_symbolFragment.mp hstep with hold | ⟨-, hlabel, -⟩
        · exact absurd (lt_size_of_leads hold) (Nat.lt_irrefl _)
        · cases hlabel
    | char hstep hrest =>
        rcases leads_symbolFragment.mp hstep with hold | ⟨-, hlabel, rfl⟩
        · exact absurd (lt_size_of_leads hold) (Nat.lt_irrefl _)
        · obtain rfl := Label.char.inj hlabel
          rw [(hrest.eq_of_stuck hstuck).1]
  · rintro rfl
    exact ⟨b.size + 1, List.mem_singleton_self _,
      .char (leads_symbolFragment.mpr (Or.inr ⟨rfl, rfl, rfl⟩)) (.nil _)⟩

theorem adds_symbolFragment (b : Builder) (c : Char) :
    b.Adds (b.symbolFragment c).1 (b.symbolFragment c).2 (.symbol c) where
  size_le := by rw [size_symbolFragment]; omega
  same i hi := by
    have hletter : (b.addState.addState.addLetter c).states = b.addState.addState.states := rfl
    have hsize := size_addState b
    rw [symbolFragment, getElem?_connect, hletter, getElem?_addState, getElem?_addState,
      if_neg (by omega), if_neg (by omega), if_neg (by omega)]
  start_mem := by
    rw [size_symbolFragment]
    exact ⟨Nat.le_refl _, by simp [symbolFragment]⟩
  accepts_mem i hi := by
    obtain rfl : i = b.size + 1 := by simpa [symbolFragment] using hi
    rw [size_symbolFragment]
    omega
  closed i label j hi hj := by
    rw [size_symbolFragment]
    rcases leads_symbolFragment.mp hj with hj | ⟨-, -, rfl⟩
    · exact absurd (lt_size_of_leads hj) (by omega)
    · omega
  matches_iff := matches_symbolFragment b c

theorem leads_unionFragment_of_lt {i j : Nat} {label : Label} (hi : i < b.size) :
    (b.unionFragment l r).1.Leads i label j ↔ b.Leads i label j := by
  rw [leads_unionFragment, or_iff_left]
  rintro ⟨rfl, -⟩
  exact Nat.lt_irrefl _ hi

/-- The new start is a fork into the two fragments, and no path leads
from one of them into the other. -/
theorem Adds.matches_union (hl : b.Adds b₁ l p) (hr : b₁.Adds b₂ r q) (text : List Char) :
    (∃ j ∈ (b₂.unionFragment l r).2.accepts.toList,
      Path (b₂.unionFragment l r).1.Leads (b₂.unionFragment l r).2.start text j) ↔
      (Pattern.union p q).Matches text := by
  have hstart : (b₂.unionFragment l r).2.start = b₂.size := rfl
  have hl_agree : ∀ i label j, b.size ≤ i ∧ i < b₁.size →
      ((b₂.unionFragment l r).1.Leads i label j ↔ b₁.Leads i label j) := fun i label j hi =>
    (leads_unionFragment_of_lt (Nat.lt_of_lt_of_le hi.2 hr.size_le)).trans
      (leads_congr (hr.same i hi.2))
  have hr_agree : ∀ i label j, b₁.size ≤ i ∧ i < b₂.size →
      ((b₂.unionFragment l r).1.Leads i label j ↔ b₂.Leads i label j) :=
    fun i label j hi => leads_unionFragment_of_lt hi.2
  have hfork : ∀ label j, (b₂.unionFragment l r).1.Leads b₂.size label j ↔
      label = .epsilon ∧ (j = l.start ∨ j = r.start) := by
    intro label j
    rw [leads_unionFragment, or_iff_right fun hold => Nat.lt_irrefl _ (lt_size_of_leads hold)]
    exact and_iff_right rfl
  have hnew : ∀ j, j ∈ l.accepts.toList ∨ j ∈ r.accepts.toList → j ≠ b₂.size := by
    rintro j (hj | hj)
    · exact Nat.ne_of_lt (hl.accepts_lt hr j hj)
    · exact Nat.ne_of_lt (hr.accepts_mem j hj).2
  rw [hstart, Pattern.union_matches_iff, ← hl.matches_iff_of_agree hl_agree,
    ← hr.matches_iff_of_agree hr_agree]
  simp only [accepts_unionFragment, List.mem_append]
  constructor
  · rintro ⟨j, hj, hpath⟩
    rcases (path_fork_iff hfork (hnew j hj)).mp hpath with hpath | hpath
    · have hend := hl.end_mem hl_agree hpath
      refine Or.inl ⟨j, hj.resolve_right fun hj => ?_, hpath⟩
      have := hr.accepts_mem j hj
      omega
    · have hend := hr.end_mem hr_agree hpath
      refine Or.inr ⟨j, hj.resolve_left fun hj => ?_, hpath⟩
      have := hl.accepts_mem j hj
      omega
  · rintro (⟨j, hj, hpath⟩ | ⟨j, hj, hpath⟩)
    · exact ⟨j, Or.inl hj, (path_fork_iff hfork (hnew j (Or.inl hj))).mpr (Or.inl hpath)⟩
    · exact ⟨j, Or.inr hj, (path_fork_iff hfork (hnew j (Or.inr hj))).mpr (Or.inr hpath)⟩

theorem Adds.union (hl : b.Adds b₁ l p) (hr : b₁.Adds b₂ r q) :
    b.Adds (b₂.unionFragment l r).1 (b₂.unionFragment l r).2 (.union p q) := by
  have hsize₁ := hl.size_le
  have hsize₂ := hr.size_le
  have hl_start := hl.start_mem
  have hr_start := hr.start_mem
  have hstart : (b₂.unionFragment l r).2.start = b₂.size := rfl
  refine ⟨?_, fun i hi => ?_, ?_, fun i hi => ?_, fun i label j hi hj => ?_, hl.matches_union hr⟩
  · rw [size_unionFragment]
    omega
  · rw [unionFragment, getElem?_connect, getElem?_connect, getElem?_addState,
      if_neg (by omega), if_neg (by omega), if_neg (by omega), hl.same_trans hr hi]
  · rw [size_unionFragment, hstart]
    omega
  · rw [accepts_unionFragment, List.mem_append] at hi
    rw [size_unionFragment]
    rcases hi with hi | hi
    · have := hl.accepts_mem i hi
      omega
    · have := hr.accepts_mem i hi
      omega
  · rw [size_unionFragment]
    rcases leads_unionFragment.mp hj with hj | ⟨-, -, rfl | rfl⟩
    · have := hl.closed_trans hr hi hj
      omega
    · omega
    · omega

theorem Adds.leads_concatFragment (hl : b.Adds b₁ l p) (hr : b₁.Adds b₂ r q) (i : Nat)
    (label : Label) (j : Nat) : (b₂.concatFragment l r).1.Leads i label j ↔
      b₂.Leads i label j ∨ i ∈ l.accepts.toList ∧ label = .epsilon ∧ j = r.start :=
  Builder.leads_concatFragment (hl.accepts_lt hr)

/-- A path into the second fragment crosses into it once, from an accept
state of the first one. -/
theorem Adds.matches_concat (hl : b.Adds b₁ l p) (hr : b₁.Adds b₂ r q) (text : List Char) :
    (∃ j ∈ (b₂.concatFragment l r).2.accepts.toList,
      Path (b₂.concatFragment l r).1.Leads (b₂.concatFragment l r).2.start text j) ↔
      (Pattern.concat p q).Matches text := by
  have haccepts : (b₂.concatFragment l r).2.accepts = r.accepts := rfl
  have hstart : (b₂.concatFragment l r).2.start = l.start := rfl
  have hl_agree : ∀ i label j, b.size ≤ i ∧ i < b₁.size →
      (b₂.Leads i label j ↔ b₁.Leads i label j) :=
    fun i label j hi => leads_congr (hr.same i hi.2)
  have hr_agree : ∀ i label j, b₁.size ≤ i ∧ i < b₂.size →
      ((b₂.concatFragment l r).1.Leads i label j ↔ b₂.Leads i label j) := by
    intro i label j hi
    rw [hl.leads_concatFragment hr, or_iff_left]
    rintro ⟨haccept, -⟩
    have := hl.accepts_mem i haccept
    omega
  rw [haccepts, hstart, Pattern.concat_matches_iff]
  constructor
  · rintro ⟨j, hj, hpath⟩
    rcases hpath.cross fun i label j => (hl.leads_concatFragment hr i label j).mp with
      hpath | ⟨front, back, m, rfl, hm, hfront, hback⟩
    · have hend := hl.end_mem hl_agree hpath
      have := hr.accepts_mem j hj
      omega
    · exact ⟨front, back, rfl, (hl.matches_iff_of_agree hl_agree front).mp ⟨m, hm, hfront⟩,
        (hr.matches_iff_of_agree hr_agree back).mp ⟨j, hj, hback⟩⟩
  · rintro ⟨front, back, rfl, hfront, hback⟩
    obtain ⟨m, hm, hfront⟩ := (hl.matches_iff_of_agree hl_agree front).mpr hfront
    obtain ⟨j, hj, hback⟩ := (hr.matches_iff_of_agree hr_agree back).mpr hback
    have hcross : (b₂.concatFragment l r).1.Leads m .epsilon r.start :=
      (hl.leads_concatFragment hr _ _ _).mpr (Or.inr ⟨hm, rfl, rfl⟩)
    exact ⟨j, hj, (hfront.mono fun i label j h =>
      (hl.leads_concatFragment hr i label j).mpr (Or.inl h)).append (.epsilon hcross hback)⟩

theorem Adds.concat (hl : b.Adds b₁ l p) (hr : b₁.Adds b₂ r q) :
    b.Adds (b₂.concatFragment l r).1 (b₂.concatFragment l r).2 (.concat p q) := by
  have hsize₁ := hl.size_le
  have hsize₂ := hr.size_le
  have hl_start := hl.start_mem
  have hr_start := hr.start_mem
  refine ⟨?_, fun i hi => ?_, ?_, fun i hi => ?_, fun i label j hi hj => ?_, hl.matches_concat hr⟩
  · rw [size_concatFragment]
    omega
  · have hnew : i ∉ l.accepts.toList := fun haccept => by
      have := hl.accepts_mem i haccept
      omega
    rw [concatFragment, getElem?_connectAll_of_not_mem hnew, hl.same_trans hr hi]
  · rw [size_concatFragment]
    exact ⟨hl_start.1, hl.start_lt hr⟩
  · rw [size_concatFragment]
    have := hr.accepts_mem i hi
    omega
  · rw [size_concatFragment]
    rcases (hl.leads_concatFragment hr i label j).mp hj with hj | ⟨-, -, rfl⟩
    · exact hl.closed_trans hr hi hj
    · omega

theorem Adds.leads_starFragment (h : b.Adds b₁ f p) (i : Nat) (label : Label) (j : Nat) :
    (b₁.starFragment f).1.Leads i label j ↔ b₁.Leads i label j ∨
      (i ∈ f.accepts.toList ∨ i = b₁.size) ∧ label = .epsilon ∧ j = f.start :=
  Builder.leads_starFragment fun i hi => (h.accepts_mem i hi).2

/-- The accept states of the star are the bridges to the start of its
operand, and the new start is one of them. -/
theorem Adds.matches_star (h : b.Adds b₁ f p) (text : List Char) :
    (∃ j ∈ (b₁.starFragment f).2.accepts.toList,
      Path (b₁.starFragment f).1.Leads (b₁.starFragment f).2.start text j) ↔
      (Pattern.star p).Matches text := by
  have hstart : (b₁.starFragment f).2.start = b₁.size := rfl
  have hround : ∀ text j, j ∈ f.accepts.toList ∨ j = b₁.size → Path b₁.Leads f.start text j →
      p.Matches text := by
    rintro text j (hj | rfl) hpath
    · exact (h.matches_iff text).mp ⟨j, hj, hpath⟩
    · have := h.end_mem (fun _ _ _ _ => Iff.rfl) hpath
      omega
  rw [hstart]
  simp only [accepts_starFragment, List.mem_append, List.mem_singleton]
  constructor
  · rintro ⟨j, hj, hpath⟩
    obtain ⟨front, back, m, rfl, -, hfront, hback⟩ :=
      hpath.star_front (fun i label j => (h.leads_starFragment i label j).mp) hround hj
    rw [(hfront.eq_of_stuck fun label j hj =>
      absurd (lt_size_of_leads hj) (Nat.lt_irrefl _)).1]
    exact hback
  · intro hmatches
    refine exists_path_of_star_matches b₁.Leads f.start
      (fun i label j hj => (h.leads_starFragment i label j).mpr (Or.inl hj))
      (fun i hi => (h.leads_starFragment _ _ _).mpr (Or.inr ⟨hi, rfl, rfl⟩)) (fun text hp => ?_)
      hmatches (Or.inr rfl)
    obtain ⟨j, hj, hpath⟩ := (h.matches_iff text).mpr hp
    exact ⟨j, Or.inl hj, hpath⟩

theorem Adds.star (h : b.Adds b₁ f p) :
    b.Adds (b₁.starFragment f).1 (b₁.starFragment f).2 (.star p) := by
  have hsize := h.size_le
  have hf_start := h.start_mem
  have hstart : (b₁.starFragment f).2.start = b₁.size := rfl
  refine ⟨?_, fun i hi => ?_, ?_, fun i hi => ?_, fun i label j hi hj => ?_, h.matches_star⟩
  · rw [size_starFragment]
    omega
  · have hnew : i ∉ f.accepts.toList := fun haccept => by
      have := h.accepts_mem i haccept
      omega
    rw [starFragment, getElem?_connectAll_of_not_mem hnew, getElem?_connect, getElem?_addState,
      if_neg (by omega), if_neg (by omega), h.same i hi]
  · rw [size_starFragment, hstart]
    omega
  · rw [accepts_starFragment, List.mem_append, List.mem_singleton] at hi
    rw [size_starFragment]
    rcases hi with hi | rfl
    · have := h.accepts_mem i hi
      omega
    · omega
  · rw [size_starFragment]
    rcases (h.leads_starFragment i label j).mp hj with hj | ⟨-, -, rfl⟩
    · have := h.closed i label j hi hj
      omega
    · omega

/-- Every construction keeps the invariant. -/
theorem adds_construct (p : Pattern) (b : Builder) :
    b.Adds (b.construct p).builder (b.construct p).fragment p := by
  induction p generalizing b with
  | symbol c => exact adds_symbolFragment b c
  | union lhs rhs ihl ihr => exact (ihl b).union (ihr _)
  | concat lhs rhs ihl ihr => exact (ihl b).concat (ihr _)
  | star operand ih => exact (ih b).star

theorem Sound.construct (h : b.Sound) (p : Pattern) : (b.construct p).builder.Sound := by
  induction p generalizing b with
  | symbol c => exact h.symbolFragment c
  | union lhs rhs ihl ihr =>
      have hl := adds_construct lhs b
      have hr := adds_construct rhs (b.construct lhs).builder
      exact (ihr (ihl h)).unionFragment (hl.start_lt hr) hr.start_mem.2
  | concat lhs rhs ihl ihr =>
      have hl := adds_construct lhs b
      have hr := adds_construct rhs (b.construct lhs).builder
      exact (ihr (ihl h)).concatFragment (hl.accepts_lt hr) hr.start_mem.2
  | star operand ih =>
      have ho := adds_construct operand b
      exact (ih h).starFragment (fun i hi => (ho.accepts_mem i hi).2) ho.start_mem.2

/-! ## Several fragments in one builder -/

/-- A builder that may have grown since the fragment was made. -/
structure Holds (b : Builder) (f : Fragment) (p : Pattern) : Prop where
  start_lt : f.start < b.size
  accepts_lt : ∀ i ∈ f.accepts.toList, i < b.size
  matches_iff : ∀ text,
    (∃ j ∈ f.accepts.toList, Path b.Leads f.start text j) ↔ p.Matches text

theorem Adds.holds (h : b.Adds b₁ f p) : b₁.Holds f p :=
  ⟨h.start_mem.2, fun i hi => (h.accepts_mem i hi).2, h.matches_iff⟩

/-- A fragment stays valid while its builder grows. -/
theorem Holds.grow (h : b.Holds f p) (hb : b.Sound) (hsize : b.size ≤ b₁.size)
    (hsame : ∀ i, i < b.size → b₁.states[i]? = b.states[i]?) : b₁.Holds f p where
  start_lt := Nat.lt_of_lt_of_le h.start_lt hsize
  accepts_lt i hi := Nat.lt_of_lt_of_le (h.accepts_lt i hi) hsize
  matches_iff text := by
    rw [← h.matches_iff]
    refine exists_congr fun j => and_congr_right ?_
    intro _
    exact path_congr_inside (· < b.size) (fun i label j _ hj => hb.lt_of_leads i label j hj)
      (fun i label j hi => leads_congr (hsame i hi)) h.start_lt

/-- Building more patterns changes nothing that is there. -/
theorem buildAll_same (ps : List Pattern) (b : Builder) :
    b.size ≤ (b.buildAll ps).1.size ∧
      ∀ i, i < b.size → (b.buildAll ps).1.states[i]? = b.states[i]? := by
  induction ps generalizing b with
  | nil => exact ⟨Nat.le_refl _, fun i _ => rfl⟩
  | cons p ps ih =>
      have hadds := adds_construct p b
      rw [← build_eq] at hadds
      obtain ⟨hsize, hsame⟩ := ih (b.build p).builder
      refine ⟨Nat.le_trans hadds.size_le hsize, fun i hi => ?_⟩
      exact (hsame i (Nat.lt_of_lt_of_le hi hadds.size_le)).trans (hadds.same i hi)

theorem Sound.buildAll (h : b.Sound) (ps : List Pattern) : (b.buildAll ps).1.Sound := by
  induction ps generalizing b with
  | nil => exact h
  | cons p ps ih =>
      refine ih ?_
      rw [build_eq]
      exact h.construct p

theorem holds_buildAll (h : b.Sound) (ps : List Pattern) :
    List.Forall₂ (fun p f => (b.buildAll ps).1.Holds f p) ps (b.buildAll ps).2 := by
  induction ps generalizing b with
  | nil => exact .nil
  | cons p ps ih =>
      have hadds := adds_construct p b
      have hsound := h.construct p
      rw [← build_eq] at hadds hsound
      obtain ⟨hsize, hsame⟩ := buildAll_same ps (b.build p).builder
      exact .cons (hadds.holds.grow hsound hsize hsame) (ih hsound)

theorem exists_holds_of_mem (h : b.Sound) {ps : List Pattern}
    (hf : f ∈ (b.buildAll ps).2) : ∃ p, (b.buildAll ps).1.Holds f p := by
  have hall := holds_buildAll h ps
  obtain ⟨i, hi, rfl⟩ := List.mem_iff_getElem.mp hf
  exact ⟨ps.get ⟨i, hall.length_eq ▸ hi⟩, hall.get (hall.length_eq ▸ hi) hi⟩

/-! ## Finished automata -/

variable {regex : String}

theorem leads_finish {i j : Nat} {label : Label} :
    (b.finish f regex).Leads i label j ↔ b.Leads i label j := by
  unfold Automaton.Leads Automaton.targets Leads
  rw [finish]
  cases b.states[i]? with
  | none => simp
  | some s => simp

theorem lists_finish {c : Char} : (b.finish f regex).Lists c ↔ b.Lists (.char c) := by
  simp only [Automaton.Lists, Lists, List.mem_iff_getElem?]
  constructor
  · rintro ⟨s, ⟨i, hi⟩, hc⟩
    rw [Array.getElem?_toList] at hi
    exact ⟨i, s, hi, hc⟩
  · rintro ⟨i, s, hi, hc⟩
    rw [← Array.getElem?_toList] at hi
    exact ⟨s, ⟨i, hi⟩, hc⟩

theorem contains_accepting_finish {j : Nat} :
    (b.finish f regex).accepting.contains j = true ↔ j ∈ f.accepts.toList ∧ j < b.size := by
  rw [finish, StateSet.contains_insertAll, StateSet.contains_empty, StateSet.size_empty]
  simp

theorem Holds.wellFormed_finish (h : b.Holds f p) (hb : b.Sound) (regex : String) :
    (b.finish f regex).WellFormed where
  start_lt := h.start_lt
  size_accepting := by
    rw [finish, StateSet.size_insertAll, StateSet.size_empty]
    rfl
  id_eq := hb.id_eq
  target_lt i label j hj := hb.lt_of_leads i label j (leads_finish.mp hj)
  alphabet_eq := Alphabet.ext fun c => by
    rw [Automaton.mem_usedAlphabet, lists_finish]
    exact hb.mem_alphabet_iff c

theorem Holds.accepts_finish (h : b.Holds f p) (hb : b.Sound) (regex text : String) :
    (b.finish f regex).accepts text = true ↔ p.Matches text.toList := by
  rw [Automaton.accepts_iff_path (h.wellFormed_finish hb regex), ← h.matches_iff]
  have hpaths : ∀ j, Path (b.finish f regex).Leads f.start text.toList j ↔
      Path b.Leads f.start text.toList j := fun j =>
    ⟨Path.mono fun _ _ _ => leads_finish.mp, Path.mono fun _ _ _ => leads_finish.mpr⟩
  refine exists_congr ?_
  intro j
  rw [contains_accepting_finish]
  refine and_congr ⟨And.left, fun hj => ⟨hj, h.accepts_lt j hj⟩⟩ (hpaths j)

end Builder

namespace Automaton

theorem ofPattern_eq (p : Pattern) (regex : String) :
    ofPattern p regex =
      (Builder.fresh.construct p).builder.finish (Builder.fresh.construct p).fragment regex := by
  rw [ofPattern, construct, Builder.build_eq]

theorem wellFormed_ofPattern (p : Pattern) (regex : String) : (ofPattern p regex).WellFormed := by
  rw [ofPattern_eq]
  exact (Builder.adds_construct p .fresh).holds.wellFormed_finish (Builder.sound_fresh.construct p)
    regex

theorem accepts_ofPattern (p : Pattern) (regex text : String) :
    (ofPattern p regex).accepts text = true ↔ p.Matches text.toList := by
  rw [ofPattern_eq]
  exact (Builder.adds_construct p .fresh).holds.accepts_finish (Builder.sound_fresh.construct p)
    regex text

end Automaton

/-- However many patterns one builder has been given, the automaton that
is finished from one of their fragments matches exactly the language of
its pattern, and so does the automaton of a single pattern. -/
theorem accepts_iff_matches :
    (∀ ps : List Pattern,
      List.Forall₂ (fun p f => ∀ regex text : String,
          ((Builder.fresh.buildAll ps).1.finish f regex).accepts text = true ↔
            p.Matches text.toList)
        ps (Builder.fresh.buildAll ps).2) ∧
      ∀ (p : Pattern) (regex text : String),
        (Automaton.ofPattern p regex).accepts text = true ↔ p.Matches text.toList := by
  constructor
  · intro ps
    have hsound := Builder.sound_fresh.buildAll ps
    exact (Builder.holds_buildAll Builder.sound_fresh ps).imp fun p f h regex text =>
      h.accepts_finish hsound regex text
  · intro p regex text
    exact Automaton.accepts_ofPattern p regex text

end Thompson
