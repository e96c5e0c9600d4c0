import Jaf.Operator
import Jaf.Span

/-!
# Tokens

A token is a word of the language with its place. Keywords and symbols are fixed words; names and
literals carry their text exactly as written, since turning a literal into a value can fail and is
the business of whoever reads the token.
-/

namespace Jaf

/-- The reserved words. -/
inductive Keyword where
  | kwBreak
  | kwCase
  | kwContinue
  | kwDefault
  | kwDo
  | kwElse
  | kwEnum
  | kwFloat
  | kwFor
  | kwGoto
  | kwIf
  | kwInt
  | kwReturn
  | kwString
  | kwStruct
  | kwSwitch
  | kwVoid
  | kwWhile
deriving DecidableEq, Repr

namespace Keyword

/-- Every reserved word. -/
def all : List Keyword :=
  [kwBreak, kwCase, kwContinue, kwDefault, kwDo, kwElse, kwEnum, kwFloat, kwFor, kwGoto, kwIf,
    kwInt, kwReturn, kwString, kwStruct, kwSwitch, kwVoid, kwWhile]

/-- The word as it is written. -/
def text : Keyword → String
  | kwBreak => "break"
  | kwCase => "case"
  | kwContinue => "continue"
  | kwDefault => "default"
  | kwDo => "do"
  | kwElse => "else"
  | kwEnum => "enum"
  | kwFloat => "float"
  | kwFor => "for"
  | kwGoto => "goto"
  | kwIf => "if"
  | kwInt => "int"
  | kwReturn => "return"
  | kwString => "string"
  | kwStruct => "struct"
  | kwSwitch => "switch"
  | kwVoid => "void"
  | kwWhile => "while"

/-- The reserved word a text spells, if any. -/
def ofText? (s : String) : Option Keyword := all.find? (·.text = s)

/-- The name the token dump gives the word: the word with a capital. -/
def tag (k : Keyword) : String := k.text.capitalize

/-- The words that can begin a type. -/
def startsType : Keyword → Bool
  | kwVoid | kwInt | kwFloat | kwString | kwStruct | kwEnum => true
  | _ => false

end Keyword

/-- The words made of punctuation. -/
inductive Symbol where
  | plus
  | minus
  | star
  | slash
  | percent
  | plusPlus
  | minusMinus
  | eqEq
  | bangEq
  | lt
  | gt
  | ltEq
  | gtEq
  | ampAmp
  | barBar
  | bang
  | amp
  | bar
  | caret
  | tilde
  | ltLt
  | gtGt
  | eq
  | plusEq
  | minusEq
  | starEq
  | slashEq
  | percentEq
  | ampEq
  | barEq
  | caretEq
  | ltLtEq
  | gtGtEq
  | leftParen
  | rightParen
  | leftBracket
  | rightBracket
  | leftBrace
  | rightBrace
  | semicolon
  | comma
  | dot
  | colon
  | question
deriving DecidableEq, Repr

namespace Symbol

/-- Every symbol. -/
def all : List Symbol :=
  [plus, minus, star, slash, percent, plusPlus, minusMinus, eqEq, bangEq, lt, gt, ltEq, gtEq,
    ampAmp, barBar, bang, amp, bar, caret, tilde, ltLt, gtGt, eq, plusEq, minusEq, starEq, slashEq,
    percentEq, ampEq, barEq, caretEq, ltLtEq, gtGtEq, leftParen, rightParen, leftBracket,
    rightBracket, leftBrace, rightBrace, semicolon, comma, dot, colon, question]

/-- The symbol as it is written. -/
def text : Symbol → String
  | plus => "+"
  | minus => "-"
  | star => "*"
  | slash => "/"
  | percent => "%"
  | plusPlus => "++"
  | minusMinus => "--"
  | eqEq => "=="
  | bangEq => "!="
  | lt => "<"
  | gt => ">"
  | ltEq => "<="
  | gtEq => ">="
  | ampAmp => "&&"
  | barBar => "||"
  | bang => "!"
  | amp => "&"
  | bar => "|"
  | caret => "^"
  | tilde => "~"
  | ltLt => "<<"
  | gtGt => ">>"
  | eq => "="
  | plusEq => "+="
  | minusEq => "-="
  | starEq => "*="
  | slashEq => "/="
  | percentEq => "%="
  | ampEq => "&="
  | barEq => "|="
  | caretEq => "^="
  | ltLtEq => "<<="
  | gtGtEq => ">>="
  | leftParen => "("
  | rightParen => ")"
  | leftBracket => "["
  | rightBracket => "]"
  | leftBrace => "\x7b"
  | rightBrace => "\x7d"
  | semicolon => ";"
  | comma => ","
  | dot => "."
  | colon => ":"
  | question => "?"

/-- The name the token dump gives the symbol. -/
def tag : Symbol → String
  | plus => "Plus"
  | minus => "Minus"
  | star => "Star"
  | slash => "Slash"
  | percent => "Percent"
  | plusPlus => "PlusPlus"
  | minusMinus => "MinusMinus"
  | eqEq => "EqEq"
  | bangEq => "NotEq"
  | lt => "Lt"
  | gt => "Gt"
  | ltEq => "LtEq"
  | gtEq => "GtEq"
  | ampAmp => "AmpAmp"
  | barBar => "PipePipe"
  | bang => "Bang"
  | amp => "Amp"
  | bar => "Pipe"
  | caret => "Caret"
  | tilde => "Tilde"
  | ltLt => "LtLt"
  | gtGt => "GtGt"
  | eq => "Eq"
  | plusEq => "PlusEq"
  | minusEq => "MinusEq"
  | starEq => "StarEq"
  | slashEq => "SlashEq"
  | percentEq => "PercentEq"
  | ampEq => "AmpEq"
  | barEq => "PipeEq"
  | caretEq => "CaretEq"
  | ltLtEq => "LtLtEq"
  | gtGtEq => "GtGtEq"
  | leftParen => "LParen"
  | rightParen => "RParen"
  | leftBracket => "LBracket"
  | rightBracket => "RBracket"
  | leftBrace => "LBrace"
  | rightBrace => "RBrace"
  | semicolon => "Semi"
  | comma => "Comma"
  | dot => "Dot"
  | colon => "Colon"
  | question => "Question"

/-- The symbol whose text is exactly the given characters, if any. -/
def ofChars? (cs : List Char) : Option Symbol := all.find? (·.text.toList = cs)

/-- The binary operator a symbol stands for between two operands. -/
def binary? : Symbol → Option BinaryOp
  | plus => some .add
  | minus => some .sub
  | star => some .mul
  | slash => some .div
  | percent => some .mod
  | amp => some .bitAnd
  | bar => some .bitOr
  | caret => some .bitXor
  | ltLt => some .shl
  | gtGt => some .shr
  | ampAmp => some .logAnd
  | barBar => some .logOr
  | eqEq => some .eq
  | bangEq => some .ne
  | lt => some .lt
  | ltEq => some .le
  | gt => some .gt
  | gtEq => some .ge
  | _ => none

/-- The assignment a symbol stands for. -/
def assign? : Symbol → Option AssignOp
  | eq => some .set
  | plusEq => some .add
  | minusEq => some .sub
  | starEq => some .mul
  | slashEq => some .div
  | percentEq => some .mod
  | ampEq => some .bitAnd
  | barEq => some .bitOr
  | caretEq => some .bitXor
  | ltLtEq => some .shl
  | gtGtEq => some .shr
  | _ => none

end Symbol

/-- What a token is; names and literals keep the text they were written with. -/
inductive Token.Kind where
  | keyword (word : Keyword)
  | symbol (sign : Symbol)
  | name (text : String)
  | int (text : String)
  | hex (text : String)
  | float (text : String)
  | string (text : String)
  | eof
deriving DecidableEq, Repr

/-- A token and its place. -/
structure Token where
  kind : Token.Kind
  span : Span
deriving DecidableEq, Repr

namespace Token.Kind

/-- How messages speak of the token. -/
def describe : Kind → String
  | keyword k => "'" ++ k.text ++ "'"
  | symbol s => "'" ++ s.text ++ "'"
  | name s => "identifier '" ++ s ++ "'"
  | int s => "integer '" ++ s ++ "'"
  | hex s => "hex '" ++ s ++ "'"
  | float s => "float '" ++ s ++ "'"
  | string s => "string " ++ s
  | eof => "end of file"

/-- The name the token dump gives the kind. -/
def tag : Kind → String
  | keyword k => k.tag
  | symbol s => s.tag
  | name _ => "Identifier"
  | int _ => "IntLiteral"
  | hex _ => "HexLiteral"
  | float _ => "FloatLiteral"
  | string _ => "StringLiteral"
  | eof => "Eof"

/-- The text a name or literal carries. -/
def payload? : Kind → Option String
  | name s | int s | hex s | float s | string s => some s
  | keyword _ | symbol _ | eof => none

/-- The binary operator the token stands for between two operands. -/
def binary? : Kind → Option BinaryOp
  | symbol s => s.binary?
  | _ => none

/-- The assignment the token stands for. -/
def assign? : Kind → Option AssignOp
  | symbol s => s.assign?
  | _ => none

/-- How tightly the token binds as a binary operator. -/
def precedence? (k : Kind) : Option Nat := k.binary?.map BinaryOp.precedence

/-- Whether the token is a keyword that can begin a type. -/
def isTypeKeyword : Kind → Bool
  | keyword k => k.startsType
  | _ => false

end Token.Kind

end Jaf
