import Jaf.Analysis
import Jaf.Diagnostic
import Jaf.Parser.Block
import Jaf.Token.Dump
import Jaf.Tree.Outline

/-!
# Compiling a script

A script is parsed and then analysed. On the way, and depending on the settings, there are things to
tell: listings of tokens and of the tree, progress lines, the log, and in the end the diagnostic of a
script that cannot be compiled. What is told is a list of reports in the order in which they come about.

A token listing needs all tokens of the script, and it comes before parsing. So with a token listing
the first bad text of the script is the error, even if parsing would have stopped before it.
-/

namespace Jaf

/-- What to tell on the way, and the version of the container to fill. -/
structure Settings where
  version : Nat
  tokens : Bool
  tree : Bool
  verbose : Bool
deriving DecidableEq, Repr

/-- The container version if none is asked for. -/
def Settings.defaultVersion : Nat := 4

/-- Something told on the way: text, or a log record. -/
inductive Report where
  | text (s : String)
  | log (e : LogEvent)
deriving DecidableEq

/-- Why a source file cannot be read. -/
inductive ReadError where
  | missing
  | denied
  /-- The path goes on after something that is no directory. -/
  | notDirectory
  /-- The path leads to a directory. -/
  | directory
  | longName
  | notText
  | other (description : String)
deriving DecidableEq, Repr

/-- The wording of a reading error. -/
def ReadError.message : ReadError → String
  | missing => "No such file or directory (os error 2)"
  | denied => "Permission denied (os error 13)"
  | notDirectory => "Not a directory (os error 20)"
  | directory => "Is a directory (os error 21)"
  | longName => "File name too long (os error 36)"
  | notText => "stream did not contain valid UTF-8"
  | other description => description

/-- Why a file cannot be compiled. -/
inductive CompileError where
  | unreadable (e : ReadError)
  | malformed (e : ParseError)
  | rejected (e : SemanticError)
deriving DecidableEq, Repr

/-- What the user is told about an error. -/
def CompileError.diagnostic : CompileError → Diagnostic
  | unreadable e => .unreadable e.message
  | malformed e => .ofParseError e
  | rejected e => .ofSemanticError e

/-- A compiled script: the filled container and the analysed tree. -/
structure Program where
  container : Container
  tree : Block

/-- All that was told while compiling a script, and how it ended. -/
structure Compilation where
  reports : List Report
  result : Except CompileError Program

namespace Compilation

/-- A piece of text that is told only under some setting. -/
def telling (setting : Bool) (s : String) : List Report := if setting then [.text s] else []

/-- Text between two ruled lines. -/
def framed (title listing : String) : String :=
  "=== JAF " ++ title ++ " ===\n" ++ listing ++ "=== End " ++ title ++ " ===\n\n"

/-- Tells the token listing, if it is wanted. -/
def listTokens (cfg : Settings) (source : String) : Except BadText (List Report) :=
  if cfg.tokens then do
    let tokens ← Lexeme.tokens source
    return [.text (framed "Tokens" (Token.dump tokens))]
  else
    return []

/-- The end of a compilation that failed: the diagnostic is the last thing told. -/
def failed (name source : String) (reports : List Report) (e : CompileError) : Compilation :=
  ⟨reports ++ [.text (e.diagnostic.render name source)], .error e⟩

/-- Compiles a script of a given name. -/
def ofSource (cfg : Settings) (name source : String) : Compilation :=
  match listTokens cfg source with
  | .error b => failed name source [] (.malformed (.badText b))
  | .ok listing =>
    let reports := listing ++ telling cfg.verbose ("Parsing " ++ name ++ "...\n")
    match Block.parse source with
    | .error e => failed name source reports (.malformed e)
    | .ok tree =>
      let ⟨tree, session, result⟩ := tree.analyse (.ofContainer (.empty cfg.version))
      let reports := reports
        ++ telling cfg.verbose ("Analyzing (ain version " ++ toString cfg.version ++ ")...\n")
        ++ session.log.map .log
      match result with
      | .error e => failed name source reports (.rejected e)
      | .ok () =>
        ⟨reports ++ telling cfg.tree (framed "AST" (tree.outline.text ++ "\n")),
          .ok ⟨session.container, tree⟩⟩

/-- Compiles a file, given what reading it gave. A file that cannot be read is only an error. -/
def ofFile (cfg : Settings) (name : String) (content : Except ReadError String) : Compilation :=
  match content with
  | .ok source => ofSource cfg name source
  | .error e => ⟨[], .error (.unreadable e)⟩

end Compilation

end Jaf
