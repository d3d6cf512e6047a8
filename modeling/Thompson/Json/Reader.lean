import Thompson.Json.Scanner

/-!
# Reading JSON

Tokens are fed one at a time to a reader, which keeps the arrays and
objects that are still open. `Json.read` gives the values of a text in
order. A JSON text has exactly one value, and it is intact; any other
text has a value that is broken, or something broken behind its value.
-/

namespace Thompson

namespace Json

/-- An array or object that is still open, with the items or members
read so far, the latest first. In an object a key may be waiting for its
value. -/
inductive Frame where
  | array (items : List Json)
  | object (members : List (List Glyph × Json))
  | member (members : List (List Glyph × Json)) (key : List Glyph)

inductive Expected where
  | value
  /-- A first item or member, or the closing bracket. -/
  | first
  | key
  | colon
  /-- A comma or the closing bracket, once a value is complete. -/
  | next
  /-- The end of the text, once its value is complete. -/
  | finished (value : Json)
  /-- Nothing: a token came that may not come. -/
  | nothing (values : List Json)

/-- The open arrays and objects, the innermost first, and what may come
next. -/
structure Reader where
  frames : List Frame
  expected : Expected

namespace Reader

/-- Put a complete value into the innermost frame. -/
def complete (value : Json) : List Frame → Reader
  | [] => ⟨[], .finished value⟩
  | .array items :: frames => ⟨.array (value :: items) :: frames, .next⟩
  | .object members :: frames => ⟨.object (([], value) :: members) :: frames, .next⟩
  | .member members key :: frames => ⟨.object ((key, value) :: members) :: frames, .next⟩

/-- Close all frames around a value. -/
def enclose (value : Json) : List Frame → Json
  | [] => value
  | .array items :: frames => enclose (.array (value :: items).reverse) frames
  | .object members :: frames => enclose (.object (([], value) :: members).reverse) frames
  | .member members key :: frames => enclose (.object ((key, value) :: members).reverse) frames

/-- Stop at something that may not come here. -/
def stop (r : Reader) : Reader :=
  match r.expected with
  | .finished value => ⟨[], .nothing [value, .broken]⟩
  | .nothing values => ⟨[], .nothing values⟩
  | _ => ⟨[], .nothing [enclose .broken r.frames]⟩

/-- Read a token where a value may come. -/
def feedValue (r : Reader) : Token → Reader
  | .leaf value => complete value r.frames
  | .openArray => ⟨.array [] :: r.frames, .first⟩
  | .openObject => ⟨.object [] :: r.frames, .first⟩
  | _ => r.stop

def feed (r : Reader) (t : Token) : Reader :=
  match r.expected, r.frames, t with
  | .value, _, _ => r.feedValue t
  | .first, .array [] :: frames, .closeArray => complete (.array []) frames
  | .first, .array _ :: _, _ => r.feedValue t
  | .first, .object [] :: frames, .closeObject => complete (.object []) frames
  | .first, .object members :: frames, .leaf (.string key) =>
    ⟨.member members key :: frames, .colon⟩
  | .key, .object members :: frames, .leaf (.string key) =>
    ⟨.member members key :: frames, .colon⟩
  | .colon, frames, .colon => ⟨frames, .value⟩
  | .next, .array items :: frames, .comma => ⟨.array items :: frames, .value⟩
  | .next, .object members :: frames, .comma => ⟨.object members :: frames, .key⟩
  | .next, .array items :: frames, .closeArray => complete (.array items.reverse) frames
  | .next, .object members :: frames, .closeObject => complete (.object members.reverse) frames
  | _, _, _ => r.stop

/-- The values of a text that ends here. -/
def finish (r : Reader) : List Json :=
  match r.expected with
  | .finished value => [value]
  | .nothing values => values
  | _ => [enclose .broken r.frames]

end Reader

def ofTokens (tokens : List Token) : List Json :=
  (tokens.foldl Reader.feed ⟨[], .value⟩).finish

def read (text : List (Option Char)) : List Json := ofTokens (tokens text)

end Json

end Thompson
