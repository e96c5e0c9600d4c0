import Jaf.Types
import Jaf.Value

/-!
# The container

Analysis fills a container with four tables: structs with their members, functions with their
variables, globals, and the initial values of globals. An entry is known by its position, and entries
are only ever added at the end, so a number handed out once keeps its meaning.

Containers of version 12 and later have room for a second name in every variable record. It is always
empty, and older containers do not have it.
-/

namespace Jaf

/-- What kind of value a slot holds. -/
inductive DataKind where
  | void
  | int
  | float
  | string
  | struct
deriving DecidableEq, Repr

/-- The word for the kind. -/
def DataKind.text : DataKind → String
  | void => "void"
  | int => "int"
  | float => "float"
  | string => "string"
  | struct => "struct"

/-- The type of a slot as the tables hold it; analysis gives a number to structs and nothing else. -/
structure TypeCode where
  data : DataKind
  structNo : Option Nat
deriving DecidableEq, Repr

namespace TypeCode

/-- The type code of a type that is not a struct. -/
def scalar (data : DataKind) : TypeCode := ⟨data, none⟩

/-- The type code of a struct. -/
def struct (n : Nat) : TypeCode := ⟨.struct, some n⟩

/-- How a type code is written where struct names are not known. -/
def text (t : TypeCode) : String :=
  match t.structNo with
  | some n => "struct#" ++ toString n
  | none => t.data.text

/-- The type that expressions of this type code have. -/
def valueType (t : TypeCode) : ValueType :=
  match t.data, t.structNo with
  | .void, _ | .struct, none => .void
  | .int, _ => .int
  | .float, _ => .float
  | .string, _ => .string
  | .struct, some n => .struct n

end TypeCode

/-- A named slot: a global, a local, a parameter or a struct member. -/
structure Variable where
  name : String
  secondName : Option String
  type : TypeCode
deriving DecidableEq, Repr

/-- A struct and its members. -/
structure Struct where
  name : String
  members : List Variable
deriving DecidableEq, Repr

/-- A function; the first `argCount` of its variables are its parameters, the others its locals. -/
structure Function where
  name : String
  result : TypeCode
  argCount : Nat
  vars : List Variable
deriving DecidableEq, Repr

/-- The value that a global, given by its position, starts with. -/
structure Initval where
  global : Nat
  value : Value
deriving DecidableEq

/-- The tables. -/
structure Container where
  version : Nat
  structs : List Struct
  functions : List Function
  globals : List Variable
  initvals : List Initval
deriving DecidableEq

/-- The parameters of a function. -/
def Function.params (f : Function) : List Variable := f.vars.take f.argCount

/-- The variables of a function after its parameters. -/
def Function.locals (f : Function) : List Variable := f.vars.drop f.argCount

/-- The first member of a given name, with its position. -/
def Struct.member? (s : Struct) (name : String) : Option (Nat × Variable) :=
  (s.members.zipIdx.find? (·.1.name = name)).map fun (m, i) => (i, m)

namespace Container

/-- A container with nothing in it. -/
def empty (version : Nat) : Container := ⟨version, [], [], [], []⟩

/-- Whether variable records have a second name. -/
def hasSecondNames (c : Container) : Bool := 12 ≤ c.version

/-- The record of a variable, as the version wants it. -/
def newVariable (c : Container) (name : String) (type : TypeCode) : Variable :=
  ⟨name, if c.hasSecondNames then some "" else none, type⟩

/-- The number of the first struct of a given name. -/
def structNo? (c : Container) (name : String) : Option Nat := c.structs.findIdx? (·.name = name)

/-- The number of the first function of a given name. -/
def functionNo? (c : Container) (name : String) : Option Nat := c.functions.findIdx? (·.name = name)

/-- The position of the first global of a given name. -/
def globalNo? (c : Container) (name : String) : Option Nat := c.globals.findIdx? (·.name = name)

/-- The first initial value recorded for a global. -/
def initialValue? (c : Container) (global : Nat) : Option Value :=
  (c.initvals.find? (·.global = global)).map (·.value)

/-- Adds a struct without members; its number is the number of structs before. -/
def addStruct (c : Container) (name : String) : Container :=
  { c with structs := c.structs ++ [⟨name, []⟩] }

/-- Replaces the members of a struct. -/
def setMembers (c : Container) (n : Nat) (members : List Variable) : Container :=
  { c with structs := c.structs.modify n fun s => { s with members } }

/-- Adds a function; its number is the number of functions before. -/
def addFunction (c : Container) (f : Function) : Container :=
  { c with functions := c.functions ++ [f] }

/-- Adds a global; its position is the number of globals before. -/
def addGlobal (c : Container) (name : String) (type : TypeCode) : Container :=
  { c with globals := c.globals ++ [c.newVariable name type] }

/-- Records an initial value. -/
def addInitval (c : Container) (v : Initval) : Container :=
  { c with initvals := c.initvals ++ [v] }

end Container

end Jaf
