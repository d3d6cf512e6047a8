import Thompson.Document.Writer
import Thompson.Json.Reader
import Thompson.Text.Buffer

/-!
# Reading a document

A document is read from its JSON in the order of the text, and the first
mistake decides what is reported. Each record may also be written as an
array of its fields. A state that lists a label twice is reported when
its list of transitions ends, that is, in front of any mistake behind
that list. Whether the parts make an automaton (`Automaton.defect?`) is
asked once the whole text is read, and the alphabet is derived from the
transitions, whatever the file says.
-/

namespace Thompson

namespace Document

abbrev Parsed (α : Type) := Except LoadError α

/-! ## Plain values -/

def natural (limit : Nat) (j : Json) : Parsed Nat :=
  match j.natural? with
  | some n => if n ≤ limit then .ok n else .error .form
  | none => .error .form

def byte (j : Json) : Parsed Nat := natural 255 j

/-- The numbers of states are machine words, and this is the largest. -/
def largestWord : Nat := 0xFFFFFFFFFFFFFFFF

def word (j : Json) : Parsed Nat := natural largestWord j

def string (j : Json) : Parsed String :=
  match j.text? with
  | some text => .ok text
  | none => .error .form

def letter (j : Json) : Parsed Char :=
  match j.text?.map String.toList with
  | some [c] => .ok c
  | _ => .error .form

/-- An array whose items are all read by `item`. -/
def listOf {α : Type} (item : Json → Parsed α) : Json → Parsed (List α)
  | .array items => items.mapM item
  | _ => .error .form

/-! ## Records -/

/-- Read the fields of a record in the order of the text, each one by
`field`. An array stands for the record with its items as the fields
`names`, in that order. -/
def foldFields {σ : Type} (names : List String) (field : σ → String → Json → Parsed σ)
    (start : σ) : Json → Parsed σ
  | .object members =>
    members.foldlM (fun s m =>
      match Glyph.text? m.1 with
      | some name => field s name m.2
      | none => .error .form) start
  | .array items => do
    let s ← (names.zip items).foldlM (fun s (name, value) => field s name value) start
    if items.length ≤ names.length then .ok s else .error .form
  | _ => .error .form

/-- The value of a field that has had none so far. -/
def once {α : Type} (before : Option α) (value : Parsed α) : Parsed (Option α) :=
  match before with
  | some _ => .error .form
  | none => value.map some

/-- A field that no record knows is passed over. -/
def ignore {σ : Type} (s : σ) (value : Json) : Parsed σ :=
  if value.intact then .ok s else .error .form

/-! ## States -/

def label : Json → Parsed Label
  | .object [(key, value)] =>
    match Glyph.text? key, value with
    | some "Epsilon", .null => .ok .epsilon
    | some "Char", value => (letter value).map .char
    | _, _ => .error .form
  | j => if j.text? = some "Epsilon" then .ok .epsilon else .error .form

def transition : Json → Parsed (Label × Array Nat)
  | .array [l, targets] => do
    return (← label l, (← listOf word targets).toArray)
  | _ => .error .form

/-- List the label of an entry, which must not be listed yet. -/
def listEntry (t : Transitions) (entry : Label × Array Nat) : Parsed Transitions :=
  match t.insertNew? entry.1 entry.2 with
  | some t => .ok t
  | none => .error (.duplicate entry.1)

/-- Collect the entries of a state, in any order; the first label that
comes again is reported. -/
def collect (entries : List (Label × Array Nat)) : Parsed Transitions :=
  entries.foldlM listEntry .empty

def transitions (j : Json) : Parsed Transitions := do
  collect (← listOf transition j)

structure StateFields where
  id : Option Nat
  transitions : Option Transitions

def StateFields.read (s : StateFields) (name : String) (value : Json) : Parsed StateFields := do
  if name = "id" then return { s with id := ← once s.id (word value) }
  else if name = "transitions" then
    return { s with transitions := ← once s.transitions (Document.transitions value) }
  else ignore s value

def state (j : Json) : Parsed State := do
  match ← foldFields ["id", "transitions"] StateFields.read ⟨none, none⟩ j with
  | ⟨some id, some transitions⟩ => .ok ⟨id, transitions⟩
  | _ => .error .form

/-! ## Accept flags -/

structure HeadFields where
  width : Option Nat
  index : Option Nat

def HeadFields.read (h : HeadFields) (name : String) (value : Json) : Parsed HeadFields := do
  if name = "width" then return { h with width := ← once h.width (byte value) }
  else if name = "index" then return { h with index := ← once h.index (byte value) }
  else .error .form

/-- The offset of the first flag in a byte of eight bits. -/
def head (j : Json) : Parsed (Fin 8) := do
  match ← foldFields ["width", "index"] HeadFields.read ⟨none, none⟩ j with
  | ⟨some 8, some index⟩ => if h : index < 8 then .ok ⟨index, h⟩ else .error .form
  | _ => .error .form

structure FlagFields where
  order : Option String
  head : Option (Fin 8)
  bits : Option Nat
  data : Option (List Nat)

def FlagFields.read (f : FlagFields) (name : String) (value : Json) : Parsed FlagFields := do
  if name = "order" then return { f with order := ← once f.order (string value) }
  else if name = "head" then return { f with head := ← once f.head (Document.head value) }
  else if name = "bits" then return { f with bits := ← once f.bits (word value) }
  else if name = "data" then return { f with data := ← once f.data (listOf byte value) }
  else .error .form

/-- The accept flags and the offset of the first one. The bytes have to
hold every flag. -/
def flags (j : Json) : Parsed (StateSet × Fin 8) := do
  match ← foldFields ["order", "head", "bits", "data"] FlagFields.read
      ⟨none, none, none, none⟩ j with
  | ⟨some order, some offset, some bits, some data⟩ =>
    if order = bitOrder ∧ offset + bits ≤ 8 * data.length then
      .ok (unpack offset bits data.toArray, offset)
    else .error .form
  | _ => .error .form

/-! ## Documents -/

structure Fields where
  states : Option (List State)
  start : Option Nat
  accepting : Option (StateSet × Fin 8)
  alphabet : Option (List Char)
  regex : Option String

def Fields.read (f : Fields) (name : String) (value : Json) : Parsed Fields := do
  if name = "states" then return { f with states := ← once f.states (listOf state value) }
  else if name = "start_state" then return { f with start := ← once f.start (word value) }
  else if name = "accept_states" then
    return { f with accepting := ← once f.accepting (flags value) }
  else if name = "alphabet" then
    return { f with alphabet := ← once f.alphabet (listOf letter value) }
  else if name = "regex" then return { f with regex := ← once f.regex (string value) }
  else ignore f value

/-- The document that a JSON value spells, with the alphabet of the
file. -/
def ofJson (j : Json) : Parsed Document := do
  match ← foldFields ["states", "start_state", "accept_states", "alphabet", "regex"] Fields.read
      ⟨none, none, none, none, none⟩ j with
  | ⟨some states, some start, some (accepting, offset), some alphabet, some regex⟩ =>
    .ok ⟨⟨states.toArray, start, accepting, .ofList alphabet, regex⟩, offset⟩
  | _ => .error .form

/-- The document that a text spells: there is one value, and nothing
behind it. -/
def ofText (text : List (Option Char)) : Parsed Document :=
  match Json.read text with
  | [] => .error .form
  | [value] => ofJson value
  | value :: _ => do
    let _ ← ofJson value
    .error .form

/-! ## Loading -/

/-- Derive the alphabet from the transitions, and report if that changes
it. -/
def rebuild (d : Document) : Document × List Event :=
  let used := d.automaton.usedAlphabet
  if used = d.automaton.alphabet then (d, [])
  else ({ d with automaton.alphabet := used }, [.alphabetReplaced d.automaton.alphabet used])

def refuse (file : String) (e : LoadError) : Parsed Document × List Event :=
  (.error e, [.refused file e])

def loadText (file : String) (text : List (Option Char)) : Parsed Document × List Event :=
  match ofText text with
  | .error e => refuse file e
  | .ok d =>
    match d.automaton.defect? with
    | some defect => refuse file (.malformed defect)
    | none =>
      let (d, log) := d.rebuild
      (.ok d, log)

/-- Load what a path leads to. A folder can be opened, but not read. -/
def loadEntry (file : String) : Entry → Parsed Document × List Event
  | .file text => loadText file (text.toList.map some)
  | .folder => refuse file .form

/-- Load a document from a file. Nothing is reported if it cannot be
opened. -/
def load (files : Directory) (file : String) : Parsed Document × List Event :=
  match files.read file with
  | .error e => (.error (.file e), [])
  | .ok entry => loadEntry file entry

end Document

end Thompson
