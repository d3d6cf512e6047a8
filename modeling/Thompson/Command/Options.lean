/-!
# Options of the command line

The arguments of a run as a user gives them. An option has a short name
of one letter and a long name; some take a value, which is attached or
is the next argument. Short names may share one dash, the last of them
taking what is left as its value. Arguments are read from left to right:
the first mistake decides, and so does a question for the version.

Two options that only show something are left out: the window of the
viewer (`-v`, `--visualize`) and the help text (`-h`, `--help`). Their
names count as mistakes here, like every other name that is none of an
option.
-/

namespace Thompson

namespace Command

inductive Valued where
  | pattern
  | subject
  | output
  | drawing
  | save
  | load
  deriving DecidableEq

inductive Name where
  | valued (v : Valued)
  | dot
  | version
  deriving DecidableEq

def Name.ofShort? : Char → Option Name
  | 'p' => some (.valued .pattern)
  | 's' => some (.valued .subject)
  | 'o' => some (.valued .output)
  | 'n' => some (.valued .drawing)
  | 'j' => some (.valued .save)
  | 'l' => some (.valued .load)
  | 'd' => some .dot
  | 'V' => some .version
  | _ => none

def Name.ofLong? : String → Option Name
  | "pattern" => some (.valued .pattern)
  | "subject" => some (.valued .subject)
  | "output" => some (.valued .output)
  | "save-nfa" => some (.valued .drawing)
  | "save-json" => some (.valued .save)
  | "load-json" => some (.valued .load)
  | "dot" => some .dot
  | "version" => some .version
  | _ => none

/-! ## Options given so far -/

structure Given where
  pattern : Option String
  subjects : List String
  dot : Bool
  output : Option String
  drawing : Option String
  save : Option String
  load : Option String
  deriving DecidableEq

def Given.nothing : Given := ⟨none, [], false, none, none, none, none⟩

/-- Give an option its value. Only subjects may be given again, and the
name of an output file may not be empty. -/
def Given.set? (g : Given) (value : String) : Valued → Option Given
  | .pattern => if g.pattern.isSome then none else some { g with pattern := some value }
  | .subject => some { g with subjects := g.subjects ++ [value] }
  | .output =>
    if g.output.isSome || value = "" then none else some { g with output := some value }
  | .drawing => if g.drawing.isSome then none else some { g with drawing := some value }
  | .save => if g.save.isSome then none else some { g with save := some value }
  | .load => if g.load.isSome then none else some { g with load := some value }

def Given.setDot? (g : Given) : Option Given :=
  if g.dot then none else some { g with dot := true }

/-! ## One argument -/

inductive Reading where
  | given (g : Given)
  /-- The next argument is the value of an option. -/
  | wants (g : Given) (v : Valued)
  | version
  | mistake
  deriving DecidableEq

def Reading.ofGiven? : Option Given → Reading
  | some g => .given g
  | none => .mistake

/-- The value attached to a short name: an equals sign in front of it
does not belong to it. -/
def attached (text : List Char) : String :=
  match text with
  | '=' :: value => String.ofList value
  | value => String.ofList value

def readShort (g : Given) : List Char → Reading
  | [] => .given g
  | c :: rest =>
    match Name.ofShort? c with
    | none => .mistake
    | some .version => .version
    | some .dot =>
      match g.setDot? with
      | some g => readShort g rest
      | none => .mistake
    | some (.valued v) =>
      if rest.isEmpty then .wants g v else .ofGiven? (g.set? (attached rest) v)

/-- Read a long name, with the value behind an equals sign if there is
one. -/
def readLong (g : Given) (text : List Char) : Reading :=
  let name := String.ofList (text.takeWhile (· ≠ '='))
  let value :=
    match text.dropWhile (· ≠ '=') with
    | [] => none
    | _ :: value => some (String.ofList value)
  match Name.ofLong? name, value with
  | some .version, none => .version
  | some .dot, none => .ofGiven? g.setDot?
  | some (.valued v), none => .wants g v
  | some (.valued v), some value => .ofGiven? (g.set? value v)
  | _, _ => .mistake

/-- Whether an argument may be the value of the option in front of it:
what starts with a dash is an option, a lone dash apart. -/
def isValue (argument : String) : Bool := argument = "-" || !argument.startsWith "-"

/-- Read one argument. Two dashes end the options; as nothing but
options is expected, they can only come last. -/
def readArgument (g : Given) (last : Bool) (argument : String) : Reading :=
  match argument.toList with
  | ['-', '-'] => if last then .given g else .mistake
  | '-' :: '-' :: text => readLong g text
  | '-' :: c :: text => readShort g (c :: text)
  | _ => .mistake

/-! ## All arguments -/

inductive Source where
  | pattern (text : String)
  | file (path : String)
  deriving DecidableEq

structure Options where
  source : Source
  subjects : List String
  dot : Bool
  output : Option String
  drawing : Option String
  save : Option String
  deriving DecidableEq

inductive Request where
  | run (options : Options)
  | version
  | misuse
  deriving DecidableEq

/-- The request once all arguments are read: there has to be exactly one
source. -/
def Given.request (g : Given) : Request :=
  match g.pattern, g.load with
  | some text, none => .run ⟨.pattern text, g.subjects, g.dot, g.output, g.drawing, g.save⟩
  | none, some path => .run ⟨.file path, g.subjects, g.dot, g.output, g.drawing, g.save⟩
  | _, _ => .misuse

def readArguments (g : Given) : List String → Request
  | [] => g.request
  | argument :: rest =>
    match readArgument g rest.isEmpty argument, rest with
    | .given g, rest => readArguments g rest
    | .wants g v, value :: rest =>
      if isValue value then
        match g.set? value v with
        | some g => readArguments g rest
        | none => .misuse
      else .misuse
    | .wants _ _, [] => .misuse
    | .version, _ => .version
    | .mistake, _ => .misuse
termination_by arguments => arguments.length

def Request.ofArguments (arguments : List String) : Request := readArguments .nothing arguments

end Command

end Thompson
