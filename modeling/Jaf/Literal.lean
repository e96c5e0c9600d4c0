import Jaf.Decimal
import Jaf.Parser.Error

/-!
# The values of literals

The scanner keeps the text of a literal; here it gets its value. A decimal integer must fit in 32
bits with a sign. A hexadecimal one spells out a bit pattern, so it may use all 32 bits and the
highest is the sign. A string literal loses its quotes, and its escapes are replaced.
-/

namespace Jaf

/-- The value of a decimal integer literal, unless it is out of range. -/
def intLiteral? (text : String) : Option Int32 :=
  let n := digitsValue 10 text.toList
  if n < 0x80000000 then some (Int32.ofNat n) else none

/-- The value of a hexadecimal literal, mark included, unless it takes more than 32 bits. -/
def hexLiteral? (text : String) : Option Int32 :=
  let n := digitsValue 16 (text.toList.drop 2)
  if n < 0x100000000 then some (UInt32.ofNat n).toInt32 else none

/-- The value of a float literal; the letter that may close it has no meaning. -/
def floatLiteral? (text : String) : Option Float32 :=
  let digits := (text.toList.reverse.dropWhile fun c => c == 'f' || c == 'F').reverse
  (Decimal.ofChars? digits).map Decimal.toFloat32

/-- The character an escape stands for. -/
def unescapeChar? : Char → Option Char
  | 'n' => some '\n'
  | 't' => some '\t'
  | 'r' => some '\r'
  | '0' => some '\x00'
  | '\\' => some '\\'
  | '"' => some '"'
  | '\'' => some '\''
  | _ => none

/-- The characters between the quotes of a string literal, with their escapes replaced. -/
def unescape : List Char → Except SyntaxCause (List Char)
  | [] => .ok []
  | ['\\'] => .error .danglingEscape
  | '\\' :: c :: cs =>
    match unescapeChar? c with
    | some d => (unescape cs).map (d :: ·)
    | none => .error (.unknownEscape c)
  | c :: cs => (unescape cs).map (c :: ·)

/-- The value of a string literal, quotes included. -/
def stringLiteral (text : String) : Except SyntaxCause String :=
  (unescape (text.toList.drop 1).dropLast).map String.ofList

end Jaf
