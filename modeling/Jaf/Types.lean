/-!
# Types, written and derived

A script writes types in declarations and casts; analysis derives types for expressions. A written
type can be a mere name or an enumeration, which no expression ever has, and a derived struct type
is known by its number in the struct table.
-/

namespace Jaf

/-- How a type is written; `typedef` is a name whose meaning is not yet known. -/
inductive TypeKind where
  | void
  | int
  | float
  | string
  | struct
  | enum
  | typedef
deriving DecidableEq, Repr

namespace TypeKind

/-- The word for the kind. -/
def text : TypeKind → String
  | void => "void"
  | int => "int"
  | float => "float"
  | string => "string"
  | struct => "struct"
  | enum => "enum"
  | typedef => "typedef"

/-- The name the tree dump gives the kind: the word with a capital. -/
def tag (k : TypeKind) : String := k.text.capitalize

end TypeKind

/-- The type of an expression; a struct is known by its number. -/
inductive ValueType where
  | void
  | int
  | float
  | string
  | struct (number : Nat)
deriving DecidableEq, Repr

namespace ValueType

/-- How messages speak of the type. -/
def text : ValueType → String
  | void => "void"
  | int => "int"
  | float => "float"
  | string => "string"
  | struct n => "struct#" ++ toString n

/-- The types that arithmetic is defined on. -/
def isNumeric : ValueType → Bool
  | int | float => true
  | void | string | struct _ => false

end ValueType

end Jaf
