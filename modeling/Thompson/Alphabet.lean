/-!
# Alphabets

A finite set of characters, held as its elements in strictly ascending
order. The order makes the list of elements a canonical form: two
alphabets with the same elements are equal, and `toList` is the order in
which an alphabet is written.
-/

namespace Thompson

structure Alphabet where
  /-- The elements, by code point. -/
  toList : List Char
  ascending : toList.Pairwise fun a b => a.toNat < b.toNat
  deriving DecidableEq

namespace Alphabet

def empty : Alphabet := ⟨[], .nil⟩

instance : Membership Char Alphabet := ⟨fun a c => c ∈ a.toList⟩

instance (c : Char) (a : Alphabet) : Decidable (c ∈ a) :=
  inferInstanceAs (Decidable (c ∈ a.toList))

theorem mem_toList {a : Alphabet} {c : Char} : c ∈ a.toList ↔ c ∈ a := Iff.rfl

@[simp] theorem not_mem_empty (c : Char) : ¬ c ∈ empty := List.not_mem_nil

/-! ## Insertion -/

/-- Put `c` at its place in an ascending list, unless it is there. -/
def place (c : Char) : List Char → List Char
  | [] => [c]
  | d :: ds =>
    if c.toNat < d.toNat then c :: d :: ds
    else if c = d then d :: ds
    else d :: place c ds

theorem mem_place {c x : Char} {ds : List Char} : x ∈ place c ds ↔ x = c ∨ x ∈ ds := by
  fun_induction place c ds <;> grind

theorem place_pairwise {c : Char} {ds : List Char}
    (h : ds.Pairwise fun a b => a.toNat < b.toNat) :
    (place c ds).Pairwise fun a b => a.toNat < b.toNat := by
  fun_induction place c ds with
  | case1 => simp
  | case2 d ds hlt =>
    refine List.pairwise_cons.2 ⟨fun x hx => ?_, h⟩
    rcases List.mem_cons.1 hx with rfl | hx
    · exact hlt
    · exact Nat.lt_trans hlt ((List.pairwise_cons.1 h).1 x hx)
  | case3 => exact h
  | case4 d ds hlt hne ih =>
    have ⟨hd, hds⟩ := List.pairwise_cons.1 h
    refine List.pairwise_cons.2 ⟨fun x hx => ?_, ih hds⟩
    rcases mem_place.1 hx with rfl | hx
    · have : x.toNat ≠ d.toNat := fun e => hne (Char.toNat_inj.1 e)
      omega
    · exact hd x hx

def insert (a : Alphabet) (c : Char) : Alphabet := ⟨place c a.toList, place_pairwise a.ascending⟩

@[simp] theorem mem_insert {a : Alphabet} {c x : Char} : x ∈ a.insert c ↔ x = c ∨ x ∈ a :=
  mem_place

/-- The alphabet with the given elements, in any order and with repeats. -/
def ofList (cs : List Char) : Alphabet := cs.foldl insert empty

theorem mem_foldl_insert {x : Char} (cs : List Char) (a : Alphabet) :
    x ∈ cs.foldl insert a ↔ x ∈ cs ∨ x ∈ a := by
  induction cs generalizing a with
  | nil => simp
  | cons c cs ih => simp [ih]; grind

@[simp] theorem mem_ofList {cs : List Char} {x : Char} : x ∈ ofList cs ↔ x ∈ cs := by
  simp [ofList, mem_foldl_insert]

/-- Two alphabets with the same elements are equal. -/
theorem ext {a b : Alphabet} (h : ∀ c, c ∈ a ↔ c ∈ b) : a = b := by
  have sorted : ∀ {l : List Char}, l.Pairwise (fun a b => a.toNat < b.toNat) → l.Nodup :=
    fun hl => hl.imp fun hlt e => by subst e; omega
  have perm : a.toList.Perm b.toList :=
    (List.perm_ext_iff_of_nodup (sorted a.ascending) (sorted b.ascending)).2 h
  have : a.toList = b.toList :=
    perm.eq_of_pairwise (fun x y _ _ hxy hyx => absurd hxy (by omega)) a.ascending b.ascending
  cases a; cases b; simp_all

end Alphabet

end Thompson
