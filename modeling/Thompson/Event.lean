import Thompson.Document.Basic
import Thompson.Pattern.Basic
import Thompson.Text.Quoted

/-!
# Log events

What the library reports about its work, in the order in which it
happens: the fragments of a construction, the steps of a match, and
what became of files. An event keeps the facts; `Event.level` and
`Event.text` give its line in a log.
-/

namespace Thompson

inductive Level where
  | debug
  | info
  | warn
  deriving DecidableEq

def Level.name : Level → String
  | .debug => "DEBUG"
  | .info => "INFO"
  | .warn => "WARN"

inductive Event where
  /-- A node was turned into a fragment with this start and so many
  accept states and states. -/
  | built (node : Pattern.Node) (start accepts states : Nat)
  | constructed (regex : String) (states : Nat)
  /-- A match ended at a character that labels no transition. -/
  | outsideAlphabet (c : Char) (position : Nat)
  /-- A match read a character and this many states are active. -/
  | advanced (c : Char) (active : Nat)
  /-- The alphabet of a file is not the one its transitions use. -/
  | alphabetReplaced (found used : Alphabet)
  | refused (file : String) (cause : LoadError)
  | saved (regex file : String)
  | drawn (file : String)
  deriving DecidableEq

namespace Event

def level : Event → Level
  | .built .. | .constructed .. | .outsideAlphabet .. | .advanced .. => .debug
  | .saved .. | .drawn .. => .info
  | .alphabetReplaced .. | .refused .. => .warn

/-- The characters of an alphabet between braces. -/
def braced (a : Alphabet) : String :=
  "\x7b" ++ ", ".intercalate (a.toList.map Quoted.char) ++ "\x7d"

def text : Event → String
  | .built node start accepts states =>
    "Built " ++ node.kind ++ " fragment: start " ++ toString start ++ ", " ++ toString accepts ++
      " accepts, " ++ toString states ++ " states"
  | .constructed regex states =>
    "Constructed NFA for " ++ regex ++ " with " ++ toString states ++ " states"
  | .outsideAlphabet c position =>
    "'" ++ c.toString ++ "' at position " ++ toString position ++ " is outside the alphabet"
  | .advanced c active => "After '" ++ c.toString ++ "': " ++ toString active ++ " active states"
  | .alphabetReplaced found used =>
    "Saved alphabet " ++ braced found ++ " does not match the transitions, using " ++ braced used
  | .refused file cause => "Refusing to load " ++ file ++ ": " ++ cause.message
  | .saved regex file => "NFA for " ++ regex ++ " saved to " ++ file
  | .drawn file => "NFA visualization saved as " ++ file

def line (e : Event) : String := e.level.name ++ " " ++ e.text

end Event

end Thompson
