/-!
# Outlines

A tree is shown as an outline: a node is an opening line, its parts indented below, and a closing line.
Every part ends with a comma. A node without parts is shown on one line.
-/

namespace Jaf

/-- A tree to be shown, as text. -/
inductive Outline where
  | atom (text : String)
  | field (name : String) (value : Outline)
  | node (opening : String) (parts : List Outline) (closing : String)

namespace Outline

/-- A named node with unnamed parts. -/
def tuple (name : String) (parts : List Outline) : Outline := node (name ++ "(") parts ")"

/-- A named node with named parts. -/
def record (name : String) (fields : List (String × Outline)) : Outline :=
  node (name ++ " \x7b") (fields.map fun (name, value) => field name value) "\x7d"

/-- A list of parts. -/
def list (parts : List Outline) : Outline := node "[" parts "]"

/-- A number. -/
def number (n : Nat) : Outline := atom (toString n)

/-- A part that may be missing. -/
def option : Option Outline → Outline
  | some part => tuple "Some" [part]
  | none => atom "None"

/-- Parts are indented by this many columns. -/
def step : Nat := 4

/-- The blanks a line at a given depth begins with. -/
def blanks (depth : Nat) : String := String.ofList (List.replicate (depth * step) ' ')

mutual

/-- The text of an outline at a given depth; the first line has its blanks already. -/
def textAt (depth : Nat) : Outline → String
  | atom text => text
  | field name value => name ++ ": " ++ textAt depth value
  | node opening [] closing => opening ++ closing
  | node opening parts closing =>
    opening ++ "\n" ++ textOf (depth + 1) parts ++ blanks depth ++ closing

/-- The text of the parts of a node, each on lines of its own. -/
def textOf (depth : Nat) : List Outline → String
  | [] => ""
  | part :: parts => blanks depth ++ textAt depth part ++ ",\n" ++ textOf depth parts

end

/-- The text of an outline. -/
def text (o : Outline) : String := textAt 0 o

end Outline

end Jaf
