import Jaf.Lexeme

/-!
# Why a script does not parse

Either the scanner met text that starts no token, or the tokens do not follow the grammar. An error of
the second sort is a place and a cause; the wording of every cause is in `SyntaxCause.message`.
-/

namespace Jaf

/-- What the parser was looking for. -/
inductive Expected where
  | token (kind : Token.Kind)
  | identifier
  | declaration
  | type
  | structNameOrBody
  | expression
deriving DecidableEq, Repr

/-- How messages speak of what was looked for. -/
def Expected.text : Expected → String
  | token k => k.describe
  | identifier => "identifier"
  | declaration => "declaration"
  | type => "type"
  | structNameOrBody => "struct name or body"
  | expression => "expression"

/-- Why tokens do not follow the grammar. -/
inductive SyntaxCause where
  | expected (what : Expected) (found : Token.Kind)
  | unterminatedStruct
  | unterminatedBlock
  | notAFunctionName
  | integerOutOfRange (text : String)
  | malformedFloat (text : String)
  | unknownEscape (char : Char)
  | danglingEscape
  | tooDeep
deriving DecidableEq, Repr

/-- The wording of a cause. -/
def SyntaxCause.message : SyntaxCause → String
  | expected what found => "expected " ++ what.text ++ ", found " ++ found.describe
  | unterminatedStruct => "unterminated struct body"
  | unterminatedBlock => "unterminated block"
  | notAFunctionName => "called object is not a function name"
  | integerOutOfRange text => "integer literal '" ++ text ++ "' out of range"
  | malformedFloat text => "invalid float literal '" ++ text ++ "'"
  | unknownEscape c => "unknown escape sequence '\\" ++ String.singleton c ++ "'"
  | danglingEscape => "dangling escape"
  | tooDeep => "nesting too deep"

/-- Why a script does not parse. -/
inductive ParseError where
  | badText (bad : BadText)
  | grammar (span : Span) (cause : SyntaxCause)
deriving DecidableEq, Repr

end Jaf
