import Thompson.Command.Run

/-!
# The program

Runs the command in the folder it is started in. The file to load is
read beforehand, and files that the run has written are stored
afterwards; what is in them is decided by `Thompson.Command.run`. No
other program is started, so a drawing stays without its picture.
-/

namespace Thompson

namespace Program

/-- What there is at a path. A file that holds no text counts as a
folder: neither can be loaded. -/
def present (path : String) : IO (Option Entry) := do
  try
    match String.fromUTF8? (← IO.FS.readBinFile path) with
    | some text => return some (.file text)
    | none => return some .folder
  catch
    | .inappropriateType _ 21 _ => return some .folder
    | _ => return none

/-- The paths that a run reads or writes. -/
def paths (o : Command.Options) : List String :=
  (match o.source with
    | .pattern _ => []
    | .file path => [path]) ++ o.output.toList ++ (o.drawing.map (· ++ ".dot")).toList ++
    o.save.toList

/-- The paths of what is on the way to a path, and of what it leads to
as the last. -/
def way (path : String) : List String :=
  let steps := Directory.steps path
  ((List.range (steps.length + 1)).drop 1).map fun n =>
    (if path.startsWith "/" then "/" else "") ++ "/".intercalate (steps.take n)

/-- The directory that a run starts in, as far as it matters: what is on
the way to its files, those that are folders, and the file to load. -/
def directory (o : Command.Options) : IO Directory := do
  let loaded :=
    match o.source with
    | .pattern _ => []
    | .file path => way path
  let mut d : Directory := ⟨[], []⟩
  for path in (paths o).flatMap (fun p => (way p).dropLast ++ [p ++ "/."]) ++ loaded do
    match ← present path with
    | some (.file text) => d := d.put (Directory.place path) text
    | some .folder => d := { d with folders := Directory.place path :: d.folders }
    | none => pure ()
  return d

/-- Store the files that are not as they were. -/
def store (o : Command.Options) (before after : Directory) : IO Unit := do
  for path in paths o do
    match after.text? (Directory.place path) with
    | some text =>
      if before.text? (Directory.place path) ≠ some text then IO.FS.writeFile path text
    | none => pure ()

def run (arguments : List String) : IO UInt32 := do
  let request := Command.Request.ofArguments arguments
  let before ←
    match request with
    | .run o => directory o
    | _ => pure (Directory.ofFiles [])
  let result := Command.run arguments Renderer.absent before
  IO.print result.stdout
  match request with
  | .run o => store o before result.files
  | _ => pure ()
  match result.failure with
  | some failure => IO.eprintln failure.message
  | none => pure ()
  return UInt32.ofNat result.exit

end Program

end Thompson

def main (arguments : List String) : IO UInt32 := Thompson.Program.run arguments
