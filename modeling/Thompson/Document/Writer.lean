import Thompson.Document.Basic
import Thompson.Event
import Thompson.Json.Printer

/-!
# Writing a document

The JSON of a document: the states with their transitions as pairs of a
label and its targets, the start state, the accept flags as bytes with
the offset of the first one, the alphabet, and the text of the pattern.
-/

namespace Thompson

namespace Document

/-- The bit order that the bytes of accept flags are saved with. -/
def bitOrder : String := "bitvec::order::Lsb0"

def labelJson : Label → Json
  | .epsilon => .ofText "Epsilon"
  | .char c => .record [("Char", .ofText c.toString)]

def transitionsJson (t : Transitions) : Json :=
  .array <| t.entries.map fun (label, targets) =>
    .array [labelJson label, .array (targets.toList.map .ofNat)]

def stateJson (s : State) : Json :=
  .record [("id", .ofNat s.id), ("transitions", transitionsJson s.transitions)]

def flagsJson (offset : Nat) (s : StateSet) : Json :=
  .record [
    ("order", .ofText bitOrder),
    ("head", .record [("width", .ofNat 8), ("index", .ofNat offset)]),
    ("bits", .ofNat s.size),
    ("data", .array ((pack offset s).map .ofNat))]

def lettersJson (letters : List Char) : Json := .array (letters.map fun c => .ofText c.toString)

/-! ## Documents

An alphabet is a set, so its letters may be listed in any order. What is
written here lists them as they are given. -/

/-- The JSON of a document that lists the letters of its alphabet like
this. -/
def jsonListing (d : Document) (letters : List Char) : Json :=
  .record [
    ("states", .array (d.automaton.states.toList.map stateJson)),
    ("start_state", .ofNat d.automaton.start),
    ("accept_states", flagsJson d.offset d.automaton.accepting),
    ("alphabet", lettersJson letters),
    ("regex", .ofText d.automaton.regex)]

def textListing (d : Document) (letters : List Char) : String :=
  (d.jsonListing letters).print ++ "\n"

def saveListing (d : Document) (letters : List Char) (files : Directory) (file : String) :
    Except FileError (Directory × List Event) := do
  return (← files.create file (d.textListing letters), [.saved d.automaton.regex file])

/-- The text of a document, the alphabet in ascending order. -/
def text (d : Document) : String := d.textListing d.automaton.alphabet.toList

/-- Write a document to a file, the alphabet in ascending order. -/
def save (d : Document) (files : Directory) (file : String) :
    Except FileError (Directory × List Event) :=
  d.saveListing d.automaton.alphabet.toList files file

theorem save_eq (d : Document) (files : Directory) (file : String) :
    d.save files file =
      (files.create file d.text).map fun created => (created, [.saved d.automaton.regex file]) := by
  rw [save, saveListing, text]
  cases files.create file (d.textListing d.automaton.alphabet.toList) <;> rfl

end Document

end Thompson
