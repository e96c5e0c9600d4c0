import Jaf.Container

/-!
# The table dump

One line for the version and one for each struct, function and global, in table order. A struct type
is written by the struct's name where the number means one. The line of a function lists its
parameters in parentheses and its locals after them with their slots; the line of a global ends with
its initial value, if it has one.
-/

namespace Jaf

namespace Container

/-- A type as the dump shows it. -/
def typeName (c : Container) (t : TypeCode) : String :=
  match t.structNo >>= (c.structs[·]?) with
  | some s => "struct " ++ s.name
  | none => t.text

/-- A variable as the dump shows it. -/
def variableText (c : Container) (v : Variable) : String := c.typeName v.type ++ " " ++ v.name

/-- The line of a struct. -/
def structLine (c : Container) (n : Nat) (s : Struct) : String :=
  "struct " ++ toString n ++ " " ++ s.name ++ " \x7b"
    ++ String.join (s.members.map fun m => " " ++ c.variableText m ++ ";") ++ " \x7d\n"

/-- The locals of a function with their slots, and nothing if there are none. -/
def localsText (c : Container) (f : Function) : String :=
  match f.locals with
  | [] => ""
  | locals => " locals:" ++ String.join ((locals.zipIdx f.argCount).map fun (v, slot) =>
      " [" ++ toString slot ++ "] " ++ c.variableText v)

/-- The line of a function. -/
def functionLine (c : Container) (n : Nat) (f : Function) : String :=
  "function " ++ toString n ++ " " ++ c.typeName f.result ++ " " ++ f.name ++ "("
    ++ ", ".intercalate (f.params.map c.variableText) ++ ")" ++ c.localsText f ++ "\n"

/-- The line of a global. -/
def globalLine (c : Container) (n : Nat) (g : Variable) : String :=
  "global " ++ toString n ++ " " ++ c.variableText g
    ++ (match c.initialValue? n with
      | some v => " = " ++ v.text
      | none => "") ++ "\n"

/-- The text of all tables. -/
def dump (c : Container) : String :=
  "; ain version " ++ toString c.version ++ "\n"
    ++ String.join (c.structs.zipIdx.map fun (s, n) => c.structLine n s)
    ++ String.join (c.functions.zipIdx.map fun (f, n) => c.functionLine n f)
    ++ String.join (c.globals.zipIdx.map fun (g, n) => c.globalLine n g)

end Container

end Jaf
