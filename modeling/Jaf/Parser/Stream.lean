import Jaf.Parser.Error
import Jaf.Reader

/-!
# The parser's view of the lexemes

Parsers take their tokens from a feed, which hands out lexemes one at a time and can look one token
ahead. A stream has one current token, which is always good: bad text is an error as soon as it would
become current, or is looked at ahead. So whichever of the two happens first, a parser never gets past
bad text. Besides that, a stream knows the place of the token consumed last, where the node being built
ends, and the struct names seen so far, which are what tells a declaration from an expression.

Parsers never consume the end of file, and they recurse only after consuming a token. Recursion and
repetition are therefore bounded by the number of lexemes left, which is what `depth` and `loop` use.
-/

namespace Jaf

/-- What a parser reads from: a source of lexemes that can look one token ahead. -/
class Feed (φ : Type) where
  /-- Hands out the next lexeme. -/
  next : φ → Lexeme × φ
  /-- Looks at the next lexeme. A token that was looked at is handed out next. -/
  peek : φ → Lexeme × φ
  /-- A bound on the lexemes before the end of file repeats. -/
  left : φ → Nat

instance : Feed Reader := ⟨Reader.next, Reader.peek, Reader.left⟩

/-- The current token, where those after it come from, the place of the one before, the struct names seen. -/
structure Stream (φ : Type) where
  current : Token
  feed : φ
  previous : Span
  typeNames : List String

/-- A parser takes tokens off a stream, and gives up at the first error. -/
abbrev Parser (φ : Type) := StateT (Stream φ) (Except ParseError)

namespace Parser

variable {φ α β : Type}

/-- The kind of the current token. -/
def kind : Parser φ Token.Kind := fun s => .ok (s.current.kind, s)

/-- The place of the current token. -/
def span : Parser φ Span := fun s => .ok (s.current.span, s)

/-- The place of the token consumed last. -/
def previous : Parser φ Span := fun s => .ok (s.previous, s)

/-- An error at a given place. -/
def failAt (span : Span) (cause : SyntaxCause) : Parser φ α :=
  fun _ => .error (.grammar span cause)

/-- The error that the current token is not what was looked for. -/
def unexpected (what : Expected) : Parser φ α :=
  fun s => .error (.grammar s.current.span (.expected what s.current.kind))

/-- Whether the current token is of the given kind. -/
def at? (k : Token.Kind) : Parser φ Bool := do return (← kind) = k

/-- Whether a name has been seen as the name of a struct. -/
def isTypeName (text : String) : Parser φ Bool := fun s => .ok (s.typeNames.contains text, s)

/-- Remembers the name of a struct. -/
def addTypeName (text : String) : Parser φ Unit := fun s =>
  .ok ((), { s with typeNames := text :: s.typeNames })

/-- Whether the current token can begin a type. -/
def startsType : Parser φ Bool := do
  match ← kind with
  | .name text => isTypeName text
  | k => return k.isTypeKeyword

/-! ## Bounded repetition -/

/-- The error of a parser that recurses without consuming tokens; none of the grammar's does. -/
def giveUp : Parser φ α := fun s => .error (.grammar s.current.span .tooDeep)

/-- What a turn of a loop decides: to go round again, or to leave with a result. -/
inductive Turn (α β : Type) where
  | again (state : α)
  | done (result : β)

/-- Repeats `turn` a bounded number of times. -/
def loopN (turn : α → Parser φ (Turn α β)) : Nat → α → Parser φ β
  | 0, _ => giveUp
  | n + 1, a => do
    match ← turn a with
    | .again a => loopN turn n a
    | .done b => return b

/-! ## Moving on -/

variable [Feed φ]

/-- Consumes the current token. -/
def advance : Parser φ Unit := fun s =>
  match Feed.next s.feed with
  | (.ok t, feed) => .ok ((), { s with current := t, feed, previous := s.current.span })
  | (.error b, _) => .error (.badText b)

/-- The kind of the token after the current one, which stays where it is. -/
def lookahead : Parser φ Token.Kind := fun s =>
  match Feed.peek s.feed with
  | (.ok t, feed) => .ok (t.kind, { s with feed })
  | (.error b, _) => .error (.badText b)

/-- Consumes the current token if it is of the given kind, and says whether it was. -/
def accept (k : Token.Kind) : Parser φ Bool := do
  if (← kind) = k then
    advance
    return true
  else
    return false

/-- Consumes a token of the given kind. -/
def expect (k : Token.Kind) : Parser φ Unit := do
  if (← kind) = k then advance else unexpected (.token k)

/-- Consumes a name if one stands here. -/
def name? : Parser φ (Option String) := do
  match ← kind with
  | .name text =>
    advance
    return some text
  | _ => return none

/-- Consumes a name. -/
def name : Parser φ String := do
  match ← name? with
  | some text => return text
  | none => unexpected .identifier

/-! ## Recursion and repetition -/

/-- The number of levels of recursion that the lexemes left allow. -/
def depth (s : Stream φ) : Nat := Feed.left s.feed + 2

/-- Repeats `turn`, which consumes a token whenever it goes round again, until it leaves. -/
def loop (turn : α → Parser φ (Turn α β)) (a : α) : Parser φ β :=
  fun s => loopN turn (depth s) a s

end Parser

end Jaf
