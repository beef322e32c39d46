/-!
# Outlines

Structured values as indented text.  A group that is not empty takes a line for each of its items,
indented by four more blanks than the group and followed by a comma.
-/

namespace StackLang.Text

/-- A structured value as it is to be shown. -/
inductive Outline where
  | leaf (text : String)
  | labelled (label value : Outline)
  | group (opening closing : String) (items : List Outline)

namespace Outline

mutual

/-- The text of an outline whose first line is indented by `indent` already. -/
def render (indent : String) : Outline → String
  | leaf text => text
  | labelled label value => render indent label ++ ": " ++ render indent value
  | group opening closing [] => opening ++ closing
  | group opening closing (item :: items) =>
    opening ++ "\n" ++ renderItems (indent ++ "    ") (item :: items) ++ indent ++ closing

/-- The lines of the items of a group. -/
def renderItems (indent : String) : List Outline → String
  | [] => ""
  | item :: items =>
    indent ++ render indent item ++ ",\n" ++ renderItems indent items

end

/-- Named fields. -/
def record (name : String) (fields : List (String × Outline)) : Outline :=
  group (name ++ " \x7b") "\x7d" (fields.map fun (label, value) => labelled (leaf label) value)

/-- Values under a name. -/
def wrap (name : String) (values : List Outline) : Outline :=
  group (name ++ "(") ")" values

/-- A list of values. -/
def sequence (values : List Outline) : Outline :=
  group "[" "]" values

/-- A table from keys to values. -/
def table (entries : List (Outline × Outline)) : Outline :=
  group "\x7b" "\x7d" (entries.map fun (key, value) => labelled key value)

/-- A value that may be missing. -/
def optional {α : Type} (f : α → Outline) : Option α → Outline
  | some a => wrap "Some" [f a]
  | none => leaf "None"

def ofNat (n : Nat) : Outline :=
  leaf (toString n)

def ofInt (n : Int) : Outline :=
  leaf (toString n)

end Outline

end StackLang.Text
