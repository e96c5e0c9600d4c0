import Jaf.Compilation

/-!
# What the command line asks for

Arguments are read from left to right, and options may stand on either side of the one input. The first
argument that is wrong, or that asks for help or for the version, decides; nothing after it matters. No
option may be given twice, and none may be shortened. After `--` every argument is an input.
-/

namespace Jaf

/-- The options that are on or off. -/
inductive Switch where
  | verbose
  | tokens
  | tree
  | tables
deriving DecidableEq, Repr

/-- The options of a compilation. -/
structure Options where
  input : String
  settings : Settings
  tables : Bool
deriving DecidableEq, Repr

/-- What the command line asks for. -/
inductive Request where
  | compile (options : Options)
  | showVersion
  | showHelp
  | misuse
deriving DecidableEq, Repr

namespace Request

/-- The greatest container version. -/
def maxVersion : Nat := 4294967295

/-- Reads a container version: a whole number with a sign or none in front. -/
def versionNumber? (text : String) : Option Nat := do
  let n ← signedValue? text.toList
  if 0 ≤ n ∧ n ≤ maxVersion then some n.toNat else none

/-- What the arguments read so far have given. -/
structure Given where
  input : Option String
  version : Option Nat
  switches : List Switch

namespace Given

/-- Nothing is given yet. -/
def nothing : Given := ⟨none, none, []⟩

/-- Takes the input. -/
def takeInput (g : Given) (text : String) : Except Request Given :=
  if g.input.isSome ∨ text = "" then .error .misuse else .ok { g with input := some text }

/-- Takes the version. -/
def takeVersion (g : Given) (text : String) : Except Request Given :=
  match g.version, versionNumber? text with
  | none, some n => .ok { g with version := some n }
  | _, _ => .error .misuse

/-- Turns a switch on. -/
def turnOn (g : Given) (s : Switch) : Except Request Given :=
  if s ∈ g.switches then .error .misuse else .ok { g with switches := s :: g.switches }

/-- Takes the letters after a single dash. -/
def takeLetters : List Char → Given → Except Request Given
  | [], g => .ok g
  | c :: cs, g =>
    match c with
    | 'v' => do takeLetters cs (← g.turnOn .verbose)
    | 'V' => .error .showVersion
    | 'h' => .error .showHelp
    | _ => .error .misuse

/-- Takes an option that starts with two dashes. -/
def takeLong (g : Given) (arg : String) : Except Request Given :=
  match arg with
  | "--verbose" => g.turnOn .verbose
  | "--dump-tokens" => g.turnOn .tokens
  | "--dump-ast" => g.turnOn .tree
  | "--dump-tables" => g.turnOn .tables
  | "--version" => .error .showVersion
  | "--help" => .error .showHelp
  | _ =>
    match arg.toList.splitAt "--ain-version=".length with
    | (name, value) =>
      if String.ofList name = "--ain-version=" then g.takeVersion (String.ofList value)
      else .error .misuse

/-- Takes one argument that needs no other. -/
def take (g : Given) (arg : String) : Except Request Given :=
  match arg.toList with
  | '-' :: '-' :: _ => g.takeLong arg
  | '-' :: c :: cs => takeLetters (c :: cs) g
  | _ => g.takeInput arg

/-- Takes all arguments. -/
def takeAll : List String → Given → Except Request Given
  | [], g => .ok g
  | arg :: args, g =>
    if arg = "--" then args.foldlM takeInput g
    else if arg = "--ain-version" then
      match args with
      | value :: rest =>
        if value.toList.head? = some '-' then .error .misuse
        else do takeAll rest (← g.takeVersion value)
      | [] => .error .misuse
    else do takeAll args (← g.take arg)

/-- The compilation asked for; there must be an input. -/
def request (g : Given) : Request :=
  match g.input with
  | none => .misuse
  | some input =>
    .compile {
      input
      settings := {
        version := g.version.getD Settings.defaultVersion
        tokens := .tokens ∈ g.switches
        tree := .tree ∈ g.switches
        verbose := .verbose ∈ g.switches }
      tables := .tables ∈ g.switches }

end Given

/-- Reads the command line. -/
def ofArgs (args : List String) : Request :=
  match Given.takeAll args .nothing with
  | .ok g => g.request
  | .error r => r

/-- The file that a request needs. -/
def input? : Request → Option String
  | compile o => some o.input
  | _ => none

end Request

end Jaf
