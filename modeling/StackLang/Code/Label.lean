import StackLang.Word

/-!
# Labels

A label stands for an address that may not be known yet.  Words that refer to a label before it is
placed are remembered and filled in when it is; words that refer to it later are filled in at once.
-/

namespace StackLang

abbrev LabelId := Nat

/-- A label: its address, if it has been placed, and the words that were waiting for it. -/
structure Label where
  value : Option Nat := none
  sites : List Nat := []
  deriving DecidableEq, Repr

namespace Label

def isPlaced (l : Label) : Bool :=
  l.value.isSome

end Label

/-- Code under construction, with its labels. -/
structure Assembly where
  code : Array Word := #[]
  labels : Array Label := #[]
  deriving DecidableEq, Repr

namespace Assembly

/-- Adds a label that is not placed. -/
def fresh (a : Assembly) : LabelId × Assembly :=
  (a.labels.size, { a with labels := a.labels.push {} })

/-- Appends words. -/
def emit (a : Assembly) (ws : List Word) : Assembly :=
  { a with code := a.code ++ ws }

/-- Lets the word at `site` refer to a label. -/
def reference (a : Assembly) (l : LabelId) (site : Nat) : Assembly :=
  match (a.labels.getD l {}).value with
  | some v => { a with code := a.code.setIfInBounds site (Word.ofNat v) }
  | none => { a with labels := a.labels.modify l fun x => { x with sites := x.sites ++ [site] } }

/-- Writes an address into all the given words. -/
def patch (code : Array Word) (v : Nat) (sites : List Nat) : Array Word :=
  sites.foldl (fun code site => code.setIfInBounds site (Word.ofNat v)) code

/-- Places a label at the end of the code. -/
def place (a : Assembly) (l : LabelId) : Assembly :=
  let v := a.code.size
  { code := patch a.code v (a.labels.getD l {}).sites
    labels := a.labels.modify l ({ · with value := some v }) }

/-- The labels that are referred to and not placed. -/
def unplaced (a : Assembly) : List LabelId :=
  (List.range a.labels.size).filter fun l =>
    let label := a.labels.getD l {}
    !label.isPlaced && !label.sites.isEmpty

end Assembly

end StackLang
