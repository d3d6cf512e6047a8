import Thompson.Files

/-!
# Texts as bytes

`Utf8.decode` reads bytes as characters. Bytes that are no character
give `none`, once for each part that is as long as it can be while it
still begins a character. So a text is exactly what decodes without
`none`, and replacing each `none` by the replacement character gives the
usual lossy reading.

The reader keeps what it knows about an unfinished character: how many
bytes are missing, between which bounds the next one must lie, and the
value of those read. The bounds after the first byte are what shuts out
overlong forms, surrogates, and values past the last code point.

`writeWithin` writes a text into a buffer that has room for some bytes
only. Either the whole text fits, or the buffer is filled as far as it
goes, be it inside a character, and the write fails.
-/

namespace Thompson

/-! ## UTF-8 -/

namespace Utf8

structure Unfinished where
  missing : Nat
  low : Nat
  high : Nat
  value : Nat

/-- The characters read so far, the latest first, and the unfinished one
behind them. -/
structure Decoder where
  read : List (Option Char)
  unfinished : Option Unfinished

/-- Read a byte that starts a character. -/
def startByte (read : List (Option Char)) (b : Nat) : Decoder :=
  if b < 0x80 then ⟨some (Char.ofNat b) :: read, none⟩
  else if b < 0xC2 then ⟨none :: read, none⟩
  else if b < 0xE0 then ⟨read, some ⟨1, 0x80, 0xBF, b % 0x20⟩⟩
  else if b = 0xE0 then ⟨read, some ⟨2, 0xA0, 0xBF, b % 0x10⟩⟩
  else if b = 0xED then ⟨read, some ⟨2, 0x80, 0x9F, b % 0x10⟩⟩
  else if b < 0xF0 then ⟨read, some ⟨2, 0x80, 0xBF, b % 0x10⟩⟩
  else if b = 0xF0 then ⟨read, some ⟨3, 0x90, 0xBF, b % 0x08⟩⟩
  else if b < 0xF4 then ⟨read, some ⟨3, 0x80, 0xBF, b % 0x08⟩⟩
  else if b = 0xF4 then ⟨read, some ⟨3, 0x80, 0x8F, b % 0x08⟩⟩
  else ⟨none :: read, none⟩

/-- Read one byte. A byte that does not continue the unfinished
character ends it and starts anew. -/
def Decoder.feed (d : Decoder) (byte : UInt8) : Decoder :=
  let b := byte.toNat
  match d.unfinished with
  | none => startByte d.read b
  | some u =>
    if u.low ≤ b ∧ b ≤ u.high then
      let value := u.value * 0x40 + b % 0x40
      if u.missing ≤ 1 then ⟨some (Char.ofNat value) :: d.read, none⟩
      else ⟨d.read, some ⟨u.missing - 1, 0x80, 0xBF, value⟩⟩
    else startByte (none :: d.read) b

def Decoder.finish (d : Decoder) : List (Option Char) :=
  match d.unfinished with
  | none => d.read.reverse
  | some _ => (none :: d.read).reverse

def decode (bytes : List UInt8) : List (Option Char) :=
  (bytes.foldl Decoder.feed ⟨[], none⟩).finish

/-- The characters that bytes stand for, with the replacement character
for each part that is none. -/
def decodeLossy (bytes : List UInt8) : String :=
  String.ofList ((decode bytes).map fun c => c.getD '\uFFFD')

def encode (text : String) : List UInt8 := text.toList.flatMap String.utf8EncodeChar

end Utf8

/-! ## Buffers of fixed size -/

/-- The bytes in a buffer after a write, and why it is not the whole
text. -/
structure Written where
  bytes : List UInt8
  failure : Option FileError
  deriving DecidableEq

/-- Write a text into a buffer of `room` bytes. -/
def writeWithin (room : Nat) (text : String) : Written :=
  let bytes := Utf8.encode text
  if bytes.length ≤ room then ⟨bytes, none⟩ else ⟨bytes.take room, some .bufferFull⟩

end Thompson
