import Jaf.Analysis.Error
import Jaf.Diagnostic.Excerpt
import Jaf.Parser.Error

/-!
# Diagnostics

What a user is told about a script that cannot be compiled: what kind of fault it is, where it is, and
a message. A diagnostic has a one-line text and a rendering with an excerpt of the source. A file that
cannot be read has no place to point to.
-/

namespace Jaf

/-- The kinds of fault a script can have. -/
inductive Fault where
  | lexical
  | grammatical
  | typing
  | semantic
deriving DecidableEq, Repr

namespace Fault

/-- The heading of a rendered diagnostic. -/
def title : Fault → String
  | lexical => "Lexer error"
  | grammatical => "Syntax error"
  | typing => "Type error"
  | semantic => "Semantic error"

/-- What the one-line text of a diagnostic calls the fault. -/
def label : Fault → String
  | lexical => "Lexer error"
  | grammatical => "Parser error"
  | typing | semantic => "Semantic error"

end Fault

/-- What a user is told about a script that cannot be compiled. -/
inductive Diagnostic where
  | inSource (fault : Fault) (span : Span) (message : String)
  | unreadable (message : String)
deriving DecidableEq, Repr

namespace Diagnostic

/-- The diagnostic for text that is no token. -/
def ofBadText (b : BadText) : Diagnostic := .inSource .lexical b.span b.message

/-- The diagnostic for a script that cannot be parsed. -/
def ofParseError : ParseError → Diagnostic
  | .badText b => ofBadText b
  | .grammar span cause => .inSource .grammatical span cause.message

/-- The diagnostic for a program that analysis rejects. -/
def ofSemanticError (e : SemanticError) : Diagnostic :=
  .inSource (if e.cause.isTypeError then .typing else .semantic) e.span e.cause.message

/-- A diagnostic in one line. -/
def text : Diagnostic → String
  | inSource fault span message => fault.label ++ " at " ++ span.text ++ ": " ++ message
  | unreadable message => "IO error: " ++ message

/-- A diagnostic with an excerpt of the source it is about, and a blank line after it. -/
def render (name source : String) : Diagnostic → String
  | inSource fault span message =>
    "error: " ++ fault.title ++ "\n" ++ Excerpt.render name source span message ++ "\n"
  | unreadable message => "error: IO error: " ++ message ++ "\n\n"

end Diagnostic

end Jaf
