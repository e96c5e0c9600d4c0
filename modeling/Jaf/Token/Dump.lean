import Jaf.Text.Quoted
import Jaf.Token

/-!
# Tokens as text

Token listings have one token on a line, with its kind, its spelling where the kind does not tell it,
and its place.
-/

namespace Jaf

/-- A token kind with its spelling. -/
def Token.Kind.text (k : Token.Kind) : String :=
  match k.payload? with
  | some spelling => k.tag ++ "(" ++ quote spelling ++ ")"
  | none => k.tag

/-- A token in one line. -/
def Token.text (t : Token) : String :=
  "Token \x7b kind: " ++ t.kind.text ++ ", span: " ++ t.span.text ++ " \x7d"

/-- The listing of tokens. -/
def Token.dump (tokens : List Token) : String := String.join (tokens.map (·.text ++ "\n"))

end Jaf
