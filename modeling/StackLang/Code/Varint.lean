import StackLang.Text.Utf8
import StackLang.Word

/-!
# Numbers as bytes

A natural number is written in groups of seven bits, the lowest first, each in one byte; all bytes
but the last have their highest bit set.  A reader is told how many bytes there may be and how large
the last of these may be, so that the number fits its width; a number may be written with more bytes
than it needs.  A signed word is first folded into a natural number, with the sign as the lowest
bit.
-/

namespace StackLang

/-- Why bytes cannot be read. -/
inductive DecodeError where
  | endOfData
  | badVarint
  | badText
  deriving DecidableEq, Repr

namespace DecodeError

def message : DecodeError → String
  | endOfData => "Hit the end of buffer, expected more data"
  | badVarint => "Found a varint that didn't terminate. Is the usize too big for this platform?"
  | badText => "Tried to parse invalid utf-8"

end DecodeError

/-- A reader takes what it reads off the front of the bytes. -/
abbrev Reader (α : Type) := Bytes → Except DecodeError (α × Bytes)

namespace Varint

/-- Writes a number. -/
def write (n : Nat) : Bytes :=
  if n < 128 then [UInt8.ofNat n] else UInt8.ofNat (n % 128 + 128) :: write (n / 128)

/-- Reads a number of at most `count` bytes, the last of which is at most `last` if all are used. -/
def read (last : Nat) : (count : Nat) → Reader Nat
  | 0, _ => .error .badVarint
  | _ + 1, [] => .error .endOfData
  | count + 1, b :: rest =>
    if b.toNat < 128 then
      if count = 0 ∧ last < b.toNat then .error .badVarint else .ok (b.toNat, rest)
    else
      match read last count rest with
      | .ok (n, rest) => .ok (b.toNat % 128 + 128 * n, rest)
      | .error e => .error e

/-- Reads a number of 32 bits. -/
def read32 : Reader Nat :=
  read 15 5

/-- Reads a number of 64 bits. -/
def read64 : Reader Nat :=
  read 1 10

/-- Folds a signed word into a number: 0, -1, 1, -2, 2 and so on. -/
def zigzag (w : Word) : Nat :=
  let n := w.toInt
  if n < 0 then (-2 * n - 1).toNat else (2 * n).toNat

/-- Undoes `zigzag`. -/
def unzigzag (n : Nat) : Word :=
  Int64.ofInt (if n % 2 = 0 then (n / 2 : Nat) else -((n / 2 : Nat) : Int) - 1)

theorem unzigzag_zigzag (w : Word) : unzigzag (zigzag w) = w := by
  have h : Int64.ofInt w.toInt = w := w.ofInt_toInt
  unfold unzigzag zigzag
  conv => rhs; rw [← h]
  congr 1
  dsimp only
  split <;> split <;> omega

end Varint

end StackLang
