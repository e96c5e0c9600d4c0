import Jaf.Tree.Expr

/-!
# Written types and variable declarations

The two depend on each other: a declaration has a type, and a struct type may list declarations as
its members. A declaration without a name declares no variable; it is there for its type alone, as in
`struct S { int x; };`. A parameter and a struct member are declarations too.
-/

namespace Jaf

mutual

/-- A type as written; `structNo` is known once the struct is registered or its name is bound. -/
structure TypeSpec where
  kind : TypeKind
  name : Option String
  structNo : Option Nat
  members : Option (List VarDecl)
  span : Span

/-- The declaration of a variable, parameter or member; `slot` is known once it is numbered. -/
structure VarDecl where
  name : Option String
  type : TypeSpec
  init : Option Expr
  slot : Option Nat
  span : Span

end

namespace TypeSpec

/-- A type that is one word. -/
def simple (kind : TypeKind) (span : Span) : TypeSpec := ⟨kind, none, none, none, span⟩

/-- A reference to a type by its name. -/
def named (name : String) (span : Span) : TypeSpec := ⟨.typedef, some name, none, none, span⟩

/-- A struct type with its body. -/
def body (name : Option String) (members : List VarDecl) (span : Span) : TypeSpec :=
  ⟨.struct, name, none, some members, span⟩

/-- A struct with a body that is not in the struct table yet. -/
def isUnregistered (t : TypeSpec) : Bool :=
  t.kind = .struct && t.members.isSome && t.structNo.isNone

/--
The type of the declarators after the first one. A body belongs to the first declarator alone, and
the others refer to it by name.
-/
def forNext (t : TypeSpec) : TypeSpec :=
  match t.members, t.name with
  | some _, some name => named name t.span
  | _, _ => t

end TypeSpec

/-- A declaration as the parser leaves it. -/
def VarDecl.plain (name : Option String) (type : TypeSpec) (span : Span) : VarDecl :=
  ⟨name, type, none, none, span⟩

/-- A type name and nothing else: it announces a type and declares nothing. -/
def VarDecl.isForward (d : VarDecl) : Bool := d.name.isNone && d.type.kind = .typedef

end Jaf
