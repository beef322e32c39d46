/-!
# Classes of characters

A class of characters is given by the code points at which membership changes: it starts outside,
enters at the first boundary, leaves at the second, and so on.  The boundaries ascend, so that a
look-up ends at the first boundary above the character.  A large class is written down by the
lengths of its runs: of the one outside before the first boundary, of the one inside up to the
second, and so on.
-/

namespace StackLang.Text

/-- A class of characters, as the ascending list of code points at which membership changes. -/
structure CharClass where
  boundaries : List Nat

namespace CharClass

/-- The boundaries of runs of the given lengths, of which the first begins at `start`. -/
def boundariesFrom (start : Nat) : List Nat → List Nat
  | [] => []
  | length :: rest => (start + length) :: boundariesFrom (start + length) rest

/-- The class with runs of the given lengths. -/
def ofRuns (lengths : List Nat) : CharClass :=
  ⟨boundariesFrom 0 lengths⟩

/-- Membership of the code point `n`, when `inside` holds before the first of the boundaries. -/
def inside (n : Nat) : Bool → List Nat → Bool
  | side, [] => side
  | side, b :: rest => if n < b then side else inside n (!side) rest

/-- Whether the character belongs to the class. -/
def contains (k : CharClass) (c : Char) : Bool :=
  inside c.toNat false k.boundaries

end CharClass

end StackLang.Text
