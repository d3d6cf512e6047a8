import Thompson.Automaton.WellFormed
import Thompson.Files

/-!
# Saved automata

A document is an automaton together with the place of its first accept
flag. Accept flags are saved as the bits of bytes, the lowest bit first,
and the first flag need not stand in the lowest bit of the first byte. A
document read from a file keeps that offset and is saved with it again;
no other question about the automaton depends on it.
-/

namespace Thompson

structure Document where
  automaton : Automaton
  /-- The bit of the first byte that holds the first accept flag. -/
  offset : Fin 8
  deriving DecidableEq

inductive LoadError where
  | file (cause : FileError)
  /-- The text is not JSON, or it is JSON of something else. -/
  | form
  | duplicate (label : Label)
  | malformed (defect : Defect)
  deriving DecidableEq

def LoadError.message : LoadError → String
  | .file cause => cause.message
  | .form => "Error: Not a saved NFA"
  | .duplicate label => "Duplicate transition list for symbol " ++ label.text
  | .malformed defect => defect.message

namespace Document

/-- The document of an automaton that comes from no file. -/
def ofAutomaton (a : Automaton) : Document := ⟨a, 0⟩

/-! ## Flags in bytes -/

/-- The number whose binary digits are given, the lowest first. -/
def ofBits (bits : List Bool) : Nat := bits.foldr (fun bit n => bit.toNat + 2 * n) 0

/-- The flags of a set as bytes, as many as hold a flag. Bits outside
the flags are clear. -/
def pack (offset : Nat) (s : StateSet) : List Nat :=
  (List.range ((offset + s.size + 7) / 8)).map fun byte =>
    ofBits <| (List.range 8).map fun bit =>
      decide (offset ≤ 8 * byte + bit) && s.contains (8 * byte + bit - offset)

/-- The set whose flags are `count` bits of some bytes. -/
def unpack (offset count : Nat) (bytes : Array Nat) : StateSet :=
  ⟨Array.ofFn fun i : Fin count =>
    (bytes.getD ((offset + i) / 8) 0).testBit ((offset + i) % 8)⟩

end Document

end Thompson
