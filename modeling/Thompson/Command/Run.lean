import Thompson.Automaton.Simulation
import Thompson.Command.Options
import Thompson.Construction
import Thompson.Document.Reader
import Thompson.Drawing.Dot
import Thompson.Drawing.Render
import Thompson.Text.Quoted

/-!
# A run of the command

A run gets its automaton and then takes its steps in a fixed order:
verdicts on the subjects, the DOT text on standard output, the DOT text
in a file, the drawing, and the saved document. The first step that
fails ends the run. Output and files of the steps before it stay.
-/

namespace Thompson

namespace Command

inductive Failure where
  | pattern (cause : PatternError)
  | load (cause : LoadError)
  | file (cause : FileError)
  | drawing (cause : DrawError)
  deriving DecidableEq

def Failure.message : Failure → String
  | .pattern cause => cause.message
  | .load cause => cause.message
  | .file cause => cause.message
  | .drawing cause => cause.message

structure Progress where
  stdout : String
  files : Directory
  failure : Option Failure

/-- A step is taken only if none has failed. -/
def Progress.andThen (p : Progress) (step : Progress → Progress) : Progress :=
  match p.failure with
  | none => step p
  | some _ => p

def obtain (source : Source) (files : Directory) : Except Failure Document :=
  match source with
  | .pattern text =>
    match Automaton.compile text with
    | .ok (a, _) => .ok (.ofAutomaton a)
    | .error cause => .error (.pattern cause)
  | .file path =>
    match (Document.load files path).1 with
    | .ok d => .ok d
    | .error cause => .error (.load cause)

/-! ## Steps -/

def verdict (a : Automaton) (subject : String) : String :=
  Quoted.text subject ++ ": " ++ (if a.accepts subject then "accepted" else "rejected") ++ "\n"

def printVerdicts (a : Automaton) (subjects : List String) (p : Progress) : Progress :=
  { p with stdout := p.stdout ++ String.join (subjects.map (verdict a)) }

/-- Whether the DOT text goes to standard output: if that was asked for,
or if nothing else was. -/
def Options.printsDot (o : Options) : Bool :=
  o.dot || (o.subjects.isEmpty && o.output.isNone && o.drawing.isNone && o.save.isNone)

def printDot (a : Automaton) (wanted : Bool) (p : Progress) : Progress :=
  if wanted then { p with stdout := p.stdout ++ a.dot } else p

def writeDot (a : Automaton) (output : Option String) (p : Progress) : Progress :=
  match output with
  | none => p
  | some path =>
    match p.files.create path a.dot with
    | .ok files => { p with files }
    | .error cause => { p with failure := some (.file cause) }

def draw (a : Automaton) (renderer : Renderer) (drawing : Option String) (p : Progress) :
    Progress :=
  match drawing with
  | none => p
  | some name =>
    let drawn := a.draw renderer p.files name
    match drawn.result with
    | .ok _ => { p with files := drawn.files }
    | .error cause => { p with files := drawn.files, failure := some (.drawing cause) }

def save (d : Document) (path : Option String) (p : Progress) : Progress :=
  match path with
  | none => p
  | some path =>
    match d.save p.files path with
    | .ok (files, _) => { p with files }
    | .error cause => { p with failure := some (.file cause) }

def steps (o : Options) (renderer : Renderer) (d : Document) (files : Directory) : Progress :=
  ((((printVerdicts d.automaton o.subjects ⟨"", files, none⟩).andThen
    (printDot d.automaton o.printsDot)).andThen
    (writeDot d.automaton o.output)).andThen
    (draw d.automaton renderer o.drawing)).andThen
    (save d o.save)

/-! ## Whole runs -/

structure Result where
  exit : Nat
  stdout : String
  files : Directory
  failure : Option Failure

def perform (o : Options) (renderer : Renderer) (files : Directory) : Result :=
  match obtain o.source files with
  | .error cause => ⟨1, "", files, some cause⟩
  | .ok d =>
    let p := steps o renderer d files
    ⟨if p.failure.isSome then 1 else 0, p.stdout, p.files, p.failure⟩

/-- A run with some arguments in a directory. -/
def run (arguments : List String) (renderer : Renderer) (files : Directory) : Result :=
  match Request.ofArguments arguments with
  | .run o => perform o renderer files
  | .version => ⟨0, "nfaviz 1.0\n", files, none⟩
  | .misuse => ⟨2, "", files, none⟩

theorem run_of_request {arguments : List String} {o : Options}
    (h : Request.ofArguments arguments = .run o) (renderer : Renderer) (files : Directory) :
    run arguments renderer files = perform o renderer files := by
  rw [run, h]

end Command

end Thompson
