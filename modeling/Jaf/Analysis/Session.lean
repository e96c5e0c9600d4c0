import Jaf.Container

/-!
# Sessions

An analysis works on a container and keeps a log of what it does. What can be logged is an inductive
type, so that the level, the origin and the wording of a record are each given in one place.
-/

namespace Jaf

/-- How important a log record is. -/
inductive LogLevel where
  | error
  | warn
  | info
  | debug
  | trace
deriving DecidableEq, Repr

namespace LogLevel

/-- The word for the level. -/
def text : LogLevel → String
  | error => "ERROR"
  | warn => "WARN"
  | info => "INFO"
  | debug => "DEBUG"
  | trace => "TRACE"

/-- The more there is to read at a level, the greater its rank. -/
def rank : LogLevel → Nat
  | error => 1
  | warn => 2
  | info => 3
  | debug => 4
  | trace => 5

end LogLevel

/-- What analysis writes into the log. -/
inductive LogEvent where
  | structAdded (name : String) (number : Nat)
  | membersSet (number count : Nat)
  | functionAdded (name : String) (number vars : Nat)
  | globalAdded (name : String) (position : Nat)
  | functionEntered (name : String)
  | initvalAdded (name : String) (value : Value)
  | typesDone (structs : Nat)
  | declarationsDone (functions globals : Nat)
  | checksDone (initvals : Nat)
deriving DecidableEq

namespace LogEvent

/-- The level an event is logged at. -/
def level : LogEvent → LogLevel
  | membersSet _ _ | functionEntered _ => .trace
  | _ => .debug

/-- The part of the program an event is logged for. -/
def origin : LogEvent → String
  | structAdded _ _ => "jaf_compiler::frontend::sema::structs"
  | membersSet _ _ => "jaf_compiler::frontend::sema::resolve"
  | functionAdded _ _ _ | globalAdded _ _ => "jaf_compiler::frontend::sema::decls"
  | functionEntered _ | initvalAdded _ _ => "jaf_compiler::frontend::sema::analyzer"
  | typesDone _ | declarationsDone _ _ | checksDone _ => "jaf_compiler::frontend::sema"

/-- The wording of an event. -/
def message : LogEvent → String
  | structAdded name n => "defined struct '" ++ name ++ "' as #" ++ toString n
  | membersSet n count => "struct #" ++ toString n ++ " has " ++ toString count ++ " members"
  | functionAdded name n vars =>
    "function '" ++ name ++ "' -> #" ++ toString n ++ " (" ++ toString vars ++ " vars)"
  | globalAdded name n => "global '" ++ name ++ "' -> #" ++ toString n
  | functionEntered name => "analyzing function '" ++ name ++ "'"
  | initvalAdded name v => "initval for global '" ++ name ++ "': " ++ v.text
  | typesDone n => "type resolution done: " ++ toString n ++ " structs"
  | declarationsDone f g =>
    "declarations done: " ++ toString f ++ " functions, " ++ toString g ++ " globals"
  | checksDone n => "analysis done: " ++ toString n ++ " initvals"

end LogEvent

/-- The container an analysis works on and its log, oldest record first. -/
structure Session where
  container : Container
  log : List LogEvent

namespace Session

/-- A session on a container, with nothing logged. -/
def ofContainer (c : Container) : Session := ⟨c, []⟩

/-- Adds a record to the log. -/
def note (s : Session) (e : LogEvent) : Session := { s with log := s.log ++ [e] }

/-- Adds a struct without members. -/
def addStruct (s : Session) (name : String) : Session :=
  { s with container := s.container.addStruct name }.note
    (.structAdded name s.container.structs.length)

/-- Writes the members of a struct. -/
def setMembers (s : Session) (n : Nat) (members : List Variable) : Session :=
  { s with container := s.container.setMembers n members }.note (.membersSet n members.length)

/-- Adds a function. -/
def addFunction (s : Session) (f : Function) : Session :=
  { s with container := s.container.addFunction f }.note
    (.functionAdded f.name s.container.functions.length f.vars.length)

/-- Adds a global. -/
def addGlobal (s : Session) (name : String) (type : TypeCode) : Session :=
  { s with container := s.container.addGlobal name type }.note
    (.globalAdded name s.container.globals.length)

/-- Records the initial value of the global of a given name and position. -/
def addInitval (s : Session) (name : String) (v : Initval) : Session :=
  { s with container := s.container.addInitval v }.note (.initvalAdded name v.value)

end Session

end Jaf
