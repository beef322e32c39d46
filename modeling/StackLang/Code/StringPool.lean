import StackLang.Word

/-!
# String pools

The strings of a program, by key.  Keys count from zero in the order in which strings are added; a
string that is there already is not added again.  An index leads from a string back to its key.  It
grows with the pool and is made anew for a pool that comes from elsewhere; if such a pool repeats a
string, its last key stands for it.
-/

namespace StackLang

/-- Strings by key, and keys by string. -/
structure StringPool where
  strings : Array String
  /-- Strings with their keys, the latest first; the first entry of a string counts. -/
  index : List (String × Nat)
  deriving DecidableEq, Repr

namespace StringPool

def empty : StringPool := ⟨#[], []⟩

def size (p : StringPool) : Nat :=
  p.strings.size

/-- The key that stands for a string of the pool. -/
def key? (p : StringPool) (s : String) : Option Nat :=
  p.index.lookup s

/-- The key of a string, which is added if it is new. -/
def intern (p : StringPool) (s : String) : Word × StringPool :=
  match p.key? s with
  | some k => (Word.ofNat k, p)
  | none => (Word.ofNat p.size, ⟨p.strings.push s, (s, p.size) :: p.index⟩)

/-- The string of a key. -/
def get? (p : StringPool) (key : Word) : Option String :=
  key.toIndex?.bind fun i => p.strings[i]?

/-- The pool with an index that is made anew: every string is entered under its key, in order. -/
def reindex (p : StringPool) : StringPool :=
  { p with index := p.strings.toList.zipIdx.foldl (fun index entry => entry :: index) [] }

/-- The pool of the given strings, without repetitions. -/
def ofList (strings : List String) : StringPool :=
  strings.foldl (fun p s => (p.intern s).2) empty

def toList (p : StringPool) : List String :=
  p.strings.toList

end StringPool

end StackLang
