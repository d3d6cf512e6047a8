/-!
# Files

The files that a run can see, by their places: the names on the way from
the folder that everything starts in, or from the root. A path is
followed name by name to a place, and `FileError` lists what may go wrong
on the way, with the wording of the operating system.
-/

namespace Thompson

inductive FileError where
  | notFound
  | notFolder
  | isFolder
  | nameTooLong
  | nulInName
  /-- A buffer is full before everything is written. -/
  | bufferFull
  deriving DecidableEq

def FileError.message : FileError → String
  | .notFound => "No such file or directory (os error 2)"
  | .notFolder => "Not a directory (os error 20)"
  | .isFolder => "Is a directory (os error 21)"
  | .nameTooLong => "File name too long (os error 36)"
  | .nulInName => "file name contained an unexpected NUL byte"
  | .bufferFull => "failed to write whole buffer"

inductive Entry where
  | file (text : String)
  | folder
  deriving DecidableEq

/-- Files with their texts, and the folders beside the one everything
starts in. A place is the list of the names on the way to it; it begins
with an empty name if the way starts at the root, and with a name `..`
for every folder that it leaves upwards. -/
structure Directory where
  files : List (List String × String)
  folders : List (List String)
  deriving DecidableEq

namespace Directory

/-! ## Looking up -/

def text? (d : Directory) (place : List String) : Option String :=
  (d.files.find? fun f => f.1 = place).map Prod.snd

/-- Replace the text of a file, or add the file behind the others. -/
def put (d : Directory) (place : List String) (text : String) : Directory :=
  { d with
    files :=
      if (d.text? place).isSome then
        d.files.map fun f => if f.1 = place then (place, text) else f
      else d.files ++ [(place, text)] }

/-- The folder everything starts in, the folders above it and the root
are always there. -/
def isFolder (d : Directory) (place : List String) : Bool :=
  place.all (· = "..") || place = [""] || d.folders.contains place

def entry? (d : Directory) (place : List String) : Option Entry :=
  match d.text? place with
  | some text => some (.file text)
  | none => if d.isFolder place then some .folder else none

/-- Look for what is at a place. No name is longer than 255 bytes. -/
def find (d : Directory) (place : List String) : Except FileError Entry :=
  if place.any (255 < ·.utf8ByteSize) then .error .nameTooLong
  else
    match d.entry? place with
    | some entry => .ok entry
    | none => .error .notFound

/-! ## Paths -/

/-- The names between the slashes of a path, without empty ones. -/
def steps (path : String) : List String :=
  (path.split '/').toList.map (·.toString) |>.filter (· ≠ "")

def origin (path : String) : List String := if path.startsWith "/" then [""] else []

/-- One folder up. The root has nothing above it. -/
def above (here : List String) : List String :=
  if here.all (· = "..") then here ++ [".."]
  else if here = [""] then here
  else here.dropLast

def enter (here : List String) (name : String) : List String :=
  if name = "." then here
  else if name = ".." then above here
  else here ++ [name]

/-- The place that a path leads to if every name on the way is that of a
folder. -/
def place (path : String) : List String := (steps path).foldl enter (origin path)

/-- Follow names from a folder. Every name but the last has to be that
of a folder. -/
def follow (d : Directory) (here : List String) : List String → Except FileError (List String)
  | [] => .ok here
  | [name] => .ok (enter here name)
  | name :: rest =>
    match d.find (enter here name) with
    | .ok .folder => d.follow (enter here name) rest
    | .ok (.file _) => .error .notFolder
    | .error cause => .error cause

def resolve (d : Directory) (path : String) : Except FileError (List String) :=
  if path.toList.contains '\x00' then .error .nulInName
  else if path = "" then .error .notFound
  else if 4096 ≤ path.utf8ByteSize then .error .nameTooLong
  else d.follow (origin path) (steps path)

/-! ## Reading and writing -/

/-- What there is to read at a path. A path that ends in a slash leads
to folders only. -/
def read (d : Directory) (path : String) : Except FileError Entry := do
  match ← d.find (← d.resolve path) with
  | .folder => .ok .folder
  | .file text => if path.endsWith "/" then .error .notFolder else .ok (.file text)

/-- Write a file, anew if it exists. What a path that ends in a slash
leads to is not looked for. -/
def create (d : Directory) (path : String) (text : String) : Except FileError Directory := do
  let place ← d.resolve path
  if path.endsWith "/" then .error .isFolder
  else
    match d.find place with
    | .ok .folder => .error .isFolder
    | .ok (.file _) | .error .notFound => .ok (d.put place text)
    | .error cause => .error cause

def foldersTo (path : String) : List (List String) :=
  (List.range (steps path).length).map fun n => ((steps path).take n).foldl enter (origin path)

/-- The directory that holds just some files, by path. -/
def ofFiles (files : List (String × String)) : Directory where
  files := files.map fun (path, text) => (place path, text)
  folders := files.flatMap fun (path, _) => foldersTo path

/-- The files in and below the folder that everything starts in, by
path. -/
def listing (d : Directory) : List (String × String) :=
  (d.files.filter fun f => f.1.head? ≠ some "" ∧ f.1.head? ≠ some "..").map
    fun (place, text) => ("/".intercalate place, text)

end Directory

end Thompson
