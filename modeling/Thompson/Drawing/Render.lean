import Thompson.Drawing.Dot
import Thompson.Event
import Thompson.Files
import Thompson.Text.Buffer

/-!
# Rendering a drawing

An automaton is drawn into two files: the graph is written to the first,
and a renderer is started that turns it into a picture in the second.
What the renderer does is not known here. It is a function on the
directory, given the arguments it is started with; three simple ones
stand for a renderer that is not installed, that fails, and that leaves
its arguments in place of a picture.
-/

namespace Thompson

/-- How the start of a renderer ends if there is no picture. -/
inductive RenderError where
  | notStarted (cause : FileError)
  | failed (complaint : List UInt8)
  deriving DecidableEq

/-- The directory that a renderer leaves when it is started with some
arguments. -/
abbrev Renderer := List String → Directory → Except RenderError Directory

namespace Renderer

def absent : Renderer := fun _ _ => .error (.notStarted .notFound)

def failing (complaint : List UInt8) : Renderer := fun _ _ => .error (.failed complaint)

/-- Writes its arguments to the file that is the fourth of them. -/
def echoing : Renderer := fun arguments files =>
  match arguments[3]? with
  | none => .error (.failed [])
  | some picture =>
    match files.create picture (" ".intercalate arguments ++ "\n") with
    | .ok files => .ok files
    | .error _ => .error (.failed [])

end Renderer

inductive DrawError where
  | file (cause : FileError)
  | renderer (complaint : String)
  deriving DecidableEq

def DrawError.message : DrawError → String
  | .file cause => cause.message
  | .renderer complaint => "Error: Failed to render the NFA with Graphviz: " ++ complaint

/-- The directory after an attempt to draw, and how it ended. -/
structure Drawn where
  files : Directory
  result : Except DrawError (List Event)

namespace Automaton

/-- Draw an automaton into the files called `name`. The graph stays in
its file if the renderer fails. -/
def draw (a : Automaton) (renderer : Renderer) (files : Directory) (name : String) : Drawn :=
  let graph := name ++ ".dot"
  let picture := name ++ ".jpg"
  match files.create graph (Graphviz.graph a) with
  | .error cause => ⟨files, .error (.file cause)⟩
  | .ok files =>
    match renderer ["-Tjpg", graph, "-o", picture] files with
    | .ok files => ⟨files, .ok [.drawn picture]⟩
    | .error (.notStarted cause) => ⟨files, .error (.file cause)⟩
    | .error (.failed complaint) => ⟨files, .error (.renderer (Utf8.decodeLossy complaint))⟩

end Automaton

end Thompson
