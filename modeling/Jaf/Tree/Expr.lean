import Jaf.Operator
import Jaf.Span
import Jaf.Types

/-!
# Expressions

Every expression carries a note: its place in the source and, once analysed, its type. Names, calls
and member accesses also have room for what analysis finds out about them: the slot a name is bound
to, the number of the function called, the position of the member in its struct.
-/

namespace Jaf

/-- The storage a name refers to: a slot of the enclosing function, or one of the global table. -/
inductive VarRef where
  | local (slot : Nat)
  | global (slot : Nat)
deriving DecidableEq, Repr

/-- The place of an expression and, once analysed, its type. -/
structure Note where
  span : Span
  type : Option ValueType
deriving DecidableEq, Repr

namespace Note

/-- The note of an expression that has not been analysed. -/
def ofSpan (s : Span) : Note := ⟨s, none⟩

/-- The note with the derived type. -/
def typed (n : Note) (t : ValueType) : Note := ⟨n.span, some t⟩

end Note

/-- Expressions. -/
inductive Expr where
  | int (note : Note) (value : Int32)
  | float (note : Note) (value : Float32)
  | string (note : Note) (value : String)
  | ident (note : Note) (name : String) (binding : Option VarRef)
  | unary (note : Note) (op : UnaryOp) (operand : Expr)
  | binary (note : Note) (op : BinaryOp) (left right : Expr)
  | assign (note : Note) (op : AssignOp) (target value : Expr)
  | ternary (note : Note) (condition yes no : Expr)
  | call (note : Note) (name : String) (args : List Expr) (number : Option Nat)
  | cast (note : Note) (target : TypeKind) (operand : Expr)
  | member (note : Note) (object : Expr) (field : String) (position : Option Nat)
  | comma (note : Note) (items : List Expr)

namespace Expr

/-- The note an expression carries. -/
def note : Expr → Note
  | int n _ | float n _ | string n _ | ident n _ _ | unary n _ _ | binary n _ _ _ | assign n _ _ _
  | ternary n _ _ _ | call n _ _ _ | cast n _ _ | member n _ _ _ | comma n _ => n

/-- The same expression with another note. -/
def withNote (n : Note) : Expr → Expr
  | int _ v => int n v
  | float _ v => float n v
  | string _ v => string n v
  | ident _ name b => ident n name b
  | unary _ op e => unary n op e
  | binary _ op l r => binary n op l r
  | assign _ op t v => assign n op t v
  | ternary _ c y o => ternary n c y o
  | call _ name args k => call n name args k
  | cast _ t e => cast n t e
  | member _ o f p => member n o f p
  | comma _ es => comma n es

/-- The place of an expression. -/
def span (e : Expr) : Span := e.note.span

/-- The type analysis has derived for an expression, if any. -/
def type? (e : Expr) : Option ValueType := e.note.type

/-- The same expression at another place. -/
def moveTo (s : Span) (e : Expr) : Expr := e.withNote ⟨s, e.type?⟩

/-- Whether an expression is a literal. -/
def isLiteral : Expr → Bool
  | int _ _ | float _ _ | string _ _ => true
  | _ => false

/-- Whether an expression names storage, so that it can be assigned to. -/
def isPlace : Expr → Bool
  | ident _ _ _ | member _ _ _ _ => true
  | _ => false

@[simp] theorem note_withNote (n : Note) (e : Expr) : (e.withNote n).note = n := by cases e <;> rfl

@[simp] theorem span_moveTo (s : Span) (e : Expr) : (e.moveTo s).span = s := by simp [moveTo, span]

end Expr

end Jaf
