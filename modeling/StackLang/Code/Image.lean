import StackLang.Code.Stream
import StackLang.Code.StringPool
import StackLang.Code.Varint

/-!
# Images

A compiled program in bytes: a number that marks the format, the code, the strings and the addresses
of the functions, each list with its length in front.  The index of the strings is not written, and
is made anew when they are read.  What follows the addresses is not read.  The code of an image that
is read must be sound.
-/

namespace StackLang

/-- A compiled program as it is kept in a file. -/
structure Image where
  code : Array Word
  strings : StringPool
  /-- Where the functions start. -/
  symbols : List (String × Nat)
  deriving DecidableEq, Repr

/-- Why bytes are no image. -/
inductive ImageError where
  | badMagic (found : Nat)
  | decode (e : DecodeError)
  | code (e : CodeError)
  deriving DecidableEq, Repr

namespace ImageError

def message : ImageError → String
  | badMagic found => "not a cinder image (bad magic 0x" ++ Text.zeroPaddedHex 8 found ++ ")"
  | decode e => "image decode failed: " ++ e.message
  | code e => e.message

end ImageError

namespace Image

/-- The number that marks the format: the letters "CNB1". -/
def magic : Nat := 0x434E4231

/-- Writes a list, its length first. -/
def writeList {α : Type} (write : α → Bytes) (xs : List α) : Bytes :=
  Varint.write xs.length ++ xs.flatMap write

/-- Writes a text, the number of its bytes first. -/
def writeText (s : String) : Bytes :=
  Varint.write (Text.utf8 s).length ++ Text.utf8 s

def writeWord (w : Word) : Bytes :=
  Varint.write (Varint.zigzag w)

def writeSymbol (symbol : String × Nat) : Bytes :=
  writeText symbol.1 ++ Varint.write symbol.2

/-- The bytes of an image. -/
def toBytes (i : Image) : Bytes :=
  Varint.write magic ++ writeList writeWord i.code.toList ++
    writeList writeText i.strings.toList ++ writeList writeSymbol i.symbols

/-- Reads the given number of elements. -/
def readMany {α : Type} (read : Reader α) : Nat → Reader (List α)
  | 0, bytes => .ok ([], bytes)
  | n + 1, bytes => do
    let (x, bytes) ← read bytes
    let (xs, bytes) ← readMany read n bytes
    return (x :: xs, bytes)

/-- Reads a list, its length first. -/
def readList {α : Type} (read : Reader α) : Reader (List α) := fun bytes => do
  let (n, bytes) ← Varint.read64 bytes
  readMany read n bytes

/-- Reads a text. -/
def readText : Reader String := fun bytes => do
  let (n, bytes) ← Varint.read64 bytes
  if bytes.length < n then throw .endOfData
  match Text.ofUtf8? (bytes.take n) with
  | some s => return (s, bytes.drop n)
  | none => throw .badText

def readWord : Reader Word := fun bytes => do
  let (n, bytes) ← Varint.read64 bytes
  return (Varint.unzigzag n, bytes)

def readSymbol : Reader (String × Nat) := fun bytes => do
  let (name, bytes) ← readText bytes
  let (address, bytes) ← Varint.read64 bytes
  return ((name, address), bytes)

/-- Reads the mark and an image, without looking at what they say; its strings have no index yet. -/
def read : Reader (Nat × Image) := fun bytes => do
  let (mark, bytes) ← Varint.read32 bytes
  let (code, bytes) ← readList readWord bytes
  let (strings, bytes) ← readList readText bytes
  let (symbols, bytes) ← readList readSymbol bytes
  return ((mark, ⟨code.toArray, ⟨strings.toArray, []⟩, symbols⟩), bytes)

/-- The image that bytes begin with, if it has the right mark and sound code. -/
def ofBytes (bytes : Bytes) : Except ImageError Image :=
  match read bytes with
  | .error e => .error (.decode e)
  | .ok ((mark, image), _) =>
    if mark = magic then
      match Code.verify image.code.toList with
      | .ok _ => .ok { image with strings := image.strings.reindex }
      | .error e => .error (.code e)
    else .error (.badMagic mark)

end Image

end StackLang
