import StackLang.Code.Op
import StackLang.Code.StringPool
import StackLang.Text.Padding
import StackLang.Text.Quoted

/-!
# Listings

Code as text, one instruction a line.  A listing can be made of any words: what is no operation and
what lacks its operand is shown as such.  Lines to which the code jumps are marked, functions have
a heading, and operands that stand for a function or a string are explained.
-/

namespace StackLang

/-- What a line of a listing shows. -/
inductive ListingEntry where
  | unknown (w : Word)
  | plain (op : Op)
  | truncated (op : Op)
  | applied (op : Op) (operand : Word)
  deriving DecidableEq, Repr

namespace ListingEntry

/-- The operation, if there is one. -/
def op? : ListingEntry → Option Op
  | unknown _ => none
  | plain op | truncated op | applied op _ => some op

end ListingEntry

namespace Listing

/-- The entries of the words from `address` on, with their addresses. -/
def entriesFrom (address : Nat) : List Word → List (Nat × ListingEntry)
  | [] => []
  | w :: rest =>
    match Op.ofWord? w with
    | none => (address, .unknown w) :: entriesFrom (address + 1) rest
    | some op =>
      if op.arity = 0 then
        (address, .plain op) :: entriesFrom (address + 1) rest
      else
        match rest with
        | [] => [(address, .truncated op)]
        | operand :: rest => (address, .applied op operand) :: entriesFrom (address + 2) rest

def entries (code : List Word) : List (Nat × ListingEntry) :=
  entriesFrom 0 code

/-- The function that starts at an address; of several, the last. -/
def functionAt? (symbols : List (String × Nat)) (address : Nat) : Option String :=
  (symbols.reverse.find? (·.2 == address)).map Prod.fst

/-- What the operand means, if something is known about it.  The operand of a push is a string if
the string is written next, and else a function if one starts there. -/
def note? (strings : StringPool) (symbols : List (String × Nat)) (next : Option Op) (op : Op)
    (operand : Word) : Option String :=
  match op with
  | .push =>
    if next = some .outString then (strings.get? operand).map Text.quote
    else (operand.toIndex?.bind (functionAt? symbols)).map fun name => "<" ++ name ++ ">"
  | .jump | .jumpZero => some ("-> " ++ Text.zeroPaddedInt 4 operand.toInt)
  | .call => some (toString operand.toInt ++ " arg(s)")
  | _ => none

/-- The entry itself, where `next` is the operation that comes after it. -/
def body (strings : StringPool) (symbols : List (String × Nat)) (next : Option Op) :
    ListingEntry → String
  | .unknown w => "??? " ++ toString w.toInt
  | .plain op => op.mnemonic
  | .truncated op => Text.padRight 11 op.mnemonic ++ " <truncated>"
  | .applied op operand =>
    Text.padRight 11 op.mnemonic ++ " " ++
      match note? strings symbols next op operand with
      | some note => Text.padRight 6 (toString operand.toInt) ++ " ; " ++ note
      | none => toString operand.toInt

/-- The rule above and below the heading of a function. -/
def rule : String :=
  String.ofList (List.replicate 40 '═')

/-- The lines above the first instruction of a function. -/
def heading (name : String) : List String :=
  ["", rule, " " ++ name, rule]

/-- The line of an entry. -/
def line (strings : StringPool) (symbols : List (String × Nat)) (targets : List Nat)
    (next : Option Op) (address : Nat) (entry : ListingEntry) : String :=
  Text.zeroPadded 4 address ++ " " ++ (if targets.contains address then "► " else "  ") ++
    body strings symbols next entry

/-- The lines of all entries, with the headings. -/
def linesOf (strings : StringPool) (symbols : List (String × Nat)) (targets : List Nat) :
    List (Nat × ListingEntry) → List String
  | [] => []
  | (address, entry) :: rest =>
    ((functionAt? symbols address).map heading).getD [] ++
      line strings symbols targets (rest.head?.bind (·.2.op?)) address entry ::
        linesOf strings symbols targets rest

/-- The addresses to which the code jumps, in a walk over its words that skips what is no
operation. -/
def targets : List Word → List Nat
  | [] => []
  | w :: rest =>
    match Op.ofWord? w with
    | none => targets rest
    | some op =>
      if op.arity = 0 then targets rest
      else
        match rest with
        | [] => []
        | operand :: rest =>
          (if op.isJump then operand.toIndex?.toList else []) ++ targets rest

/-- The lines of the listing of a program. -/
def lines (code : List Word) (strings : StringPool) (symbols : List (String × Nat)) :
    List String :=
  "=== BYTECODE PROGRAM ===" ::
    (" " ++ toString code.length ++ " words, " ++ toString strings.size ++ " strings") ::
      linesOf strings symbols (targets code) (entries code)

/-- The listing of a program. -/
def render (code : List Word) (strings : StringPool) (symbols : List (String × Nat)) : String :=
  String.join ((lines code strings symbols).map (· ++ "\n"))

end Listing

end StackLang
