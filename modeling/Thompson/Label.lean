/-!
# Labels of transitions

A transition reads one character or nothing. Labels are ordered with
epsilon in front and characters by code point, which is the order in
which a state lists its transitions.
-/

namespace Thompson

inductive Label where
  | epsilon
  | char (c : Char)
  deriving DecidableEq

namespace Label

/-- The place of a label in the order of labels. -/
def rank : Label → Nat
  | .epsilon => 0
  | .char c => c.toNat + 1

instance : LT Label := ⟨fun a b => a.rank < b.rank⟩

theorem lt_iff {a b : Label} : a < b ↔ a.rank < b.rank := Iff.rfl

instance (a b : Label) : Decidable (a < b) := inferInstanceAs (Decidable (a.rank < b.rank))

theorem rank_inj {a b : Label} : a.rank = b.rank ↔ a = b := by
  cases a <;> cases b <;> simp [rank, Char.toNat_inj]

theorem lt_of_not_lt_of_ne {a b : Label} (h : ¬ a < b) (hne : a ≠ b) : b < a := by
  have : a.rank ≠ b.rank := fun e => hne (rank_inj.1 e)
  rw [lt_iff] at *
  omega

/-- How a label is written on a drawing. -/
def text : Label → String
  | .epsilon => "ε"
  | .char c => c.toString

end Label

end Thompson
