import Jaf.Token

/-!
# From text to lexemes

A script is cut from left to right. Each cut takes the longest stretch that means something: a
blank or a comment, which is a gap and leaves nothing behind; a token; or text that starts no token,
which is reported and stepped over. `Cut.ofChars` decides what stands at the head of a text and how
many characters it takes; `Lexeme.scan` repeats that to the end.

Since a cut is a number of characters, what it takes and what it leaves are `take` and `drop` of the
same list: nothing of the text is lost or read twice. Offsets count UTF-8 bytes.
-/

namespace Jaf

/-- Text that starts no token, and its place. -/
structure BadText where
  span : Span
  text : String
deriving DecidableEq, Repr

/-- How messages speak of text that starts no token. -/
def BadText.message (b : BadText) : String := "unexpected character '" ++ b.text ++ "'"

/-- What scanning hands out: a token, or text that starts none. -/
abbrev Lexeme := Except BadText Token

/-- What stands at the head of a text, with the number of characters it takes. -/
inductive Cut where
  | gap (length : Nat)
  | token (kind : Token.Kind) (length : Nat)
  | bad (length : Nat)
deriving DecidableEq, Repr

/-- The number of characters a cut takes. -/
def Cut.length : Cut → Nat
  | gap n | token _ n | bad n => n

/-! ## Character classes -/

/-- Blanks stand between tokens and mean nothing. -/
def isBlank (c : Char) : Bool := c == ' ' || c == '\t' || c == '\n' || c == '\r' || c == '\x0c'

/-- The characters a name can begin with. -/
def isWordStart (c : Char) : Bool := c.isAlpha || c == '_'

/-- The characters a name can go on with. -/
def isWordPart (c : Char) : Bool := c.isAlphanum || c == '_'

/-- The digits to base sixteen, in either case. -/
def isHexDigit (c : Char) : Bool :=
  c.isDigit || ('a' ≤ c && c ≤ 'f') || ('A' ≤ c && c ≤ 'F')

/-- How many characters at the head of a text are in a class. -/
def runLength (p : Char → Bool) (cs : List Char) : Nat := (cs.takeWhile p).length

/-! ## Comments, strings and numbers -/

/-- The length of a text up to and including its first `*/`. -/
def commentEnd? : List Char → Option Nat
  | '*' :: '/' :: _ => some 2
  | _ :: cs => (commentEnd? cs).map (· + 1)
  | [] => none

/--
The text after an opening quote: whether a closing quote ends it, and its length. A backslash takes
the next character with it, except that one before a line end or at the end of the text stops short.
-/
def stringEnd : List Char → Bool × Nat
  | '"' :: _ => (true, 1)
  | ['\\'] => (false, 0)
  | '\\' :: '\n' :: _ => (false, 0)
  | '\\' :: _ :: cs => let (closed, n) := stringEnd cs; (closed, n + 2)
  | _ :: cs => let (closed, n) := stringEnd cs; (closed, n + 1)
  | [] => (false, 0)

/-- The length of an exponent (`e`, a sign or none, digits), and 0 if there is none. -/
def exponentLength : List Char → Nat
  | [] => 0
  | c :: cs =>
    if c == 'e' || c == 'E' then
      let sign := match cs with
        | '+' :: _ | '-' :: _ => 1
        | _ => 0
      match runLength Char.isDigit (cs.drop sign) with
      | 0 => 0
      | n => 1 + sign + n
    else 0

/-- The length of the letter that may close a float. -/
def suffixLength : List Char → Nat
  | 'f' :: _ | 'F' :: _ => 1
  | _ => 0

/-- The length of a float whose digits, point included, take `n` characters. -/
def floatLength (cs : List Char) (n : Nat) : Nat :=
  let e := exponentLength (cs.drop n)
  n + e + suffixLength (cs.drop (n + e))

/-- The number of digits of a hexadecimal literal, and 0 if none stands here. -/
def hexDigits : List Char → Nat
  | '0' :: 'x' :: cs | '0' :: 'X' :: cs => runLength isHexDigit cs
  | _ => 0

/-- The token kinds that keep their text, made from the first `n` characters. -/
def Cut.keep (kind : String → Token.Kind) (n : Nat) (cs : List Char) : Cut :=
  .token (kind (String.ofList (cs.take n))) n

/-- The number at the head of a text that begins with a digit, or with a point and a digit. -/
def Cut.number (cs : List Char) : Cut :=
  match hexDigits cs with
  | h + 1 => .keep .hex (h + 3) cs
  | 0 =>
    let n := runLength Char.isDigit cs
    match cs.drop n with
    | '.' :: rest => .keep .float (floatLength cs (n + 1 + runLength Char.isDigit rest)) cs
    | rest =>
      match exponentLength rest with
      | 0 => .keep .int n cs
      | _ => .keep .float (floatLength cs n) cs

/-- The reserved word or name at the head of a text. -/
def Cut.word (cs : List Char) : Cut :=
  let n := runLength isWordPart cs
  let text := String.ofList (cs.take n)
  match Keyword.ofText? text with
  | some k => .token (.keyword k) n
  | none => .token (.name text) n

/-- The longest symbol at the head of a text, and one bad character if there is none. -/
def Cut.symbol (cs : List Char) : Cut :=
  match Symbol.ofChars? (cs.take 3), Symbol.ofChars? (cs.take 2), Symbol.ofChars? (cs.take 1) with
  | some s, _, _ | none, some s, _ | none, none, some s => .token (.symbol s) s.text.length
  | none, none, none => .bad 1

/-! ## The whole text -/

/-- What stands at the head of a text that is not empty. -/
def Cut.ofChars (cs : List Char) : Cut :=
  match cs with
  | '/' :: '/' :: rest => .gap (2 + runLength (· != '\n') rest)
  | '/' :: '*' :: rest =>
    match commentEnd? rest with
    | some n => .gap (2 + n)
    | none => .bad (2 + rest.length)
  | '"' :: rest =>
    match stringEnd rest with
    | (true, n) => .keep .string (n + 1) cs
    | (false, n) => .bad (n + 1)
  | '.' :: c :: _ => if c.isDigit then .number cs else .symbol cs
  | c :: _ =>
    if isBlank c then .gap 1
    else if isWordStart c then .word cs
    else if c.isDigit then .number cs
    else .symbol cs
  | [] => .gap 0

/-- The number of bytes a text takes. -/
def byteLength : List Char → Nat
  | [] => 0
  | c :: cs => c.utf8Size + byteLength cs

theorem byteLength_append (cs ds : List Char) : byteLength (cs ++ ds) = byteLength cs + byteLength ds := by
  induction cs with
  | nil => simp [byteLength]
  | cons c cs ih => simp [byteLength, ih, Nat.add_assoc]

theorem utf8ByteSize_ofList (cs : List Char) : (String.ofList cs).utf8ByteSize = byteLength cs := by
  induction cs with
  | nil => rfl
  | cons c cs ih =>
      rw [String.ofList_cons, String.utf8ByteSize_append, String.utf8ByteSize_singleton, ih, byteLength]

theorem byteLength_toList (text : String) : byteLength text.toList = text.utf8ByteSize := by
  rw [← utf8ByteSize_ofList, String.ofList_toList]

namespace Lexeme

/-- The lexemes of the text that begins at byte `start`, given a bound on the number of cuts. -/
def scanFrom : Nat → Nat → List Char → List Lexeme
  | 0, _, _ | _ + 1, _, [] => []
  | fuel + 1, start, cs@(_ :: _) =>
    let cut := Cut.ofChars cs
    let text := cs.take cut.length
    let stop := start + byteLength text
    let rest := scanFrom fuel stop (cs.drop cut.length)
    match cut with
    | .gap _ => rest
    | .token kind _ => .ok ⟨kind, ⟨start, stop⟩⟩ :: rest
    | .bad _ => .error ⟨⟨start, stop⟩, String.ofList text⟩ :: rest

/-- The lexemes of a script. Every cut takes a character, so their number bounds the cuts. -/
def scan (source : String) : List Lexeme :=
  let cs := source.toList
  scanFrom cs.length 0 cs

/-- The token that stands at the end of a script. -/
def last (source : String) : Token := ⟨.eof, .point source.utf8ByteSize⟩

/-- The lexemes of a script with the end of file after them. -/
def stream (source : String) : List Lexeme := scan source ++ [.ok (last source)]

/-- All tokens of a script, the end of file included, or its first bad text. -/
def tokens (source : String) : Except BadText (List Token) := (stream source).mapM id

end Lexeme

end Jaf
