import Jaf.Text.Pattern
import Jaf.Text.WhiteSpace

/-!
# The written form of patterns

Most characters stand for themselves. A dot is any character of a line, brackets hold a set, `^` and
`$` are the two ends of the text, a bar separates alternatives, and parentheses group. A star, a plus
sign, a question mark or a count in braces says how often what stands before it is repeated; a question
mark after one of them only asks for short matches first, which does not change whether there is one. A
backslash makes a special character stand for itself.

Reading goes from left to right, item by item, and items are put together as they come; so of several
mistakes the first is reported. Places in a pattern count characters.
-/

namespace Jaf

namespace Pattern

/-- What is wrong with a written pattern. -/
inductive Flaw where
  | unclosedGroup
  | unopenedGroup
  | unclosedSet
  | reversedRange
  | nothingToRepeat
  | unclosedCount
  | missingCount
  | reversedCount
  | endInEscape
  | unknownEscape
  | escapeInSet
  | backReference
  | unknownClass
  | lookAround
  | unknownFlag
deriving DecidableEq, Repr

/-- The wording of a flaw. -/
def Flaw.message : Flaw → String
  | unclosedGroup => "unclosed group"
  | unopenedGroup => "unopened group"
  | unclosedSet => "unclosed character class"
  | reversedRange => "invalid character class range, the start must be <= the end"
  | nothingToRepeat => "repetition operator missing expression"
  | unclosedCount => "unclosed counted repetition"
  | missingCount => "repetition quantifier expects a valid decimal"
  | reversedCount => "invalid repetition count range, the start must be <= the end"
  | endInEscape => "incomplete escape sequence, reached end of pattern prematurely"
  | unknownEscape => "unrecognized escape sequence"
  | escapeInSet => "invalid escape sequence found in character class"
  | backReference => "backreferences are not supported"
  | unknownClass =>
    "Unicode-aware Perl class not found (make sure the unicode-perl feature is enabled)"
  | lookAround => "look-around, including look-ahead and look-behind, is not supported"
  | unknownFlag => "unrecognized flag"

/-- A flaw and its place. -/
structure Misread where
  start : Nat
  stop : Nat
  flaw : Flaw
deriving DecidableEq, Repr

/-- How a misread pattern is reported: the place is marked below it. -/
def Misread.message (m : Misread) (written : String) : String :=
  "regex parse error:\n    " ++ written ++ "\n    " ++
    String.ofList (List.replicate m.start ' ' ++ List.replicate (max 1 (m.stop - m.start)) '^') ++
    "\nerror: " ++ m.flaw.message

/-! ## Items -/

/-- How often something is repeated. -/
structure Count where
  least : Nat
  most : Option Nat
deriving DecidableEq, Repr

/-- A part of a written pattern. -/
inductive Item where
  | atom (p : Pattern)
  | opening (place : Nat)
  | closing (place : Nat)
  | bar
  /-- A repetition. A flaw in its count matters only if there is something to repeat. -/
  | repetition (place : Nat) (count : Except Misread Count)

/-- The place in a pattern of a given length at which a rest of it begins. -/
def placeOf (size : Nat) (rest : List Char) : Nat := size - rest.length

/-- The characters that stand for something else unless a backslash is before them. -/
def specialChars : List Char := "\\.+*?()|[]\x7b\x7d^$#&-~".toList

/-- The character that a backslash and another character stand for. -/
def escaped? (c : Char) : Option Char :=
  match c with
  | 'a' => some '\x07'
  | 'f' => some '\x0c'
  | 't' => some '\t'
  | 'n' => some '\n'
  | 'r' => some '\r'
  | 'v' => some '\x0b'
  | _ =>
    if specialChars.contains c then some c
    else if c.toNat < 0x80 && !c.isAlphanum && c != '<' && c != '>' then some c
    else none

/-- What a backslash at a place and the character after it stand for. -/
def escape (place : Nat) (c : Char) : Except Misread Pattern :=
  match c, escaped? c with
  | 'A', _ => .ok atStart
  | 'z', _ => .ok atEnd
  | _, some d => .ok (one (.single d))
  | _, none =>
    .error ⟨place, place + 2,
      if c.isDigit then .backReference
      else if "dDsSwW".toList.contains c then .unknownClass
      else .unknownEscape⟩

/-! ## Sets -/

/-- A character of a set, at the head of what is left. -/
def setChar (size : Nat) (unclosed : Misread) : List Char → Except Misread (Char × List Char)
  | [] => .error unclosed
  | ['\\'] => .error ⟨size - 1, size, .endInEscape⟩
  | '\\' :: c :: rest =>
    match escaped? c with
    | some d => .ok (d, rest)
    | none =>
      let place := placeOf size (c :: rest) - 1
      match escape place c with
      | .ok _ => .error ⟨place, place + 2, .escapeInSet⟩
      | .error m => .error m
  | c :: rest => .ok (c, rest)

/-- The ranges of a set up to its closing bracket, after those read so far. -/
def setRanges (size : Nat) (unclosed : Misread) :
    Nat → List (Nat × Nat) → List Char → Except Misread (List (Nat × Nat) × List Char)
  | 0, _, _ | _, _, [] => .error unclosed
  | _, ranges, ']' :: rest => .ok (ranges, rest)
  | fuel + 1, ranges, cs => do
    let (first, rest) ← setChar size unclosed cs
    let single := setRanges size unclosed fuel (ranges ++ [(first.toNat, first.toNat)]) rest
    match rest with
    | '-' :: ']' :: _ | '-' :: '-' :: _ => single
    | '-' :: next =>
      let (last, rest) ← setChar size unclosed next
      if last < first then .error ⟨placeOf size cs, placeOf size rest, .reversedRange⟩
      else setRanges size unclosed fuel (ranges ++ [(first.toNat, last.toNat)]) rest
    | _ => single

/-- A set, after its opening bracket. Hyphens and a closing bracket in front belong to the set. -/
def set (size : Nat) (cs : List Char) : Except Misread (Pattern × List Char) := do
  let place := placeOf size cs - 1
  let (negated, body) := match cs with
    | '^' :: rest => (true, rest)
    | _ => (false, cs)
  let hyphens := body.takeWhile (· == '-')
  let (front, rest) := match hyphens, body.drop hyphens.length with
    | [], ']' :: rest => ([']'], rest)
    | hyphens, rest => (hyphens, rest)
  let unclosed : Misread := ⟨place, placeOf size rest, .unclosedSet⟩
  let (ranges, rest) ← setRanges size unclosed (rest.length + 1)
    (front.map fun c => (c.toNat, c.toNat)) rest
  return (one ⟨negated, ranges⟩, rest)

/-! ## Counts -/

/-- A decimal number with blanks around it. -/
def decimal (size : Nat) (cs : List Char) : Except Misread Nat × List Char :=
  let cs := cs.dropWhile isWhiteSpace
  let digits := cs.takeWhile Char.isDigit
  let rest := (cs.drop digits.length).dropWhile isWhiteSpace
  if digits.isEmpty then (.error ⟨placeOf size cs, placeOf size cs, .missingCount⟩, rest)
  else (.ok (digits.foldl (fun n d => n * 10 + (d.toNat - '0'.toNat)) 0), rest)

/-- A mark that asks for short matches is passed over. -/
def skipLazy : List Char → List Char
  | '?' :: rest => rest
  | rest => rest

/-- The end of a count: its closing brace. -/
def countEnd (size place : Nat) (count : Count) : List Char → Except Misread (Count × List Char)
  | '\x7d' :: rest =>
    let rest := skipLazy rest
    if count.most.any (· < count.least) then .error ⟨place, placeOf size rest, .reversedCount⟩
    else .ok (count, rest)
  | rest => .error ⟨place, placeOf size rest, .unclosedCount⟩

/-- A count in braces, after the opening one. -/
def count (size : Nat) (cs : List Char) : Except Misread (Count × List Char) := do
  let place := placeOf size cs - 1
  let unclosed : Misread := ⟨place, size, .unclosedCount⟩
  let (least, rest) := decimal size cs
  match rest with
  | [] | [','] => .error unclosed
  | ',' :: '\x7d' :: _ => countEnd size place ⟨← least, none⟩ (rest.drop 1)
  | ',' :: next =>
    let least ← least
    let (most, rest) := decimal size next
    countEnd size place ⟨least, some (← most)⟩ rest
  | _ =>
    let least ← least
    countEnd size place ⟨least, some least⟩ rest

/-! ## Reading -/

/-- What follows an opening parenthesis before the pattern of the group. -/
def groupStart (size : Nat) (cs : List Char) : Except Misread (Item × List Char) :=
  let place := placeOf size cs - 1
  match cs with
  | '?' :: '=' :: _ | '?' :: '!' :: _ => .error ⟨place, place + 3, .lookAround⟩
  | '?' :: '<' :: '=' :: _ | '?' :: '<' :: '!' :: _ => .error ⟨place, place + 4, .lookAround⟩
  | '?' :: '<' :: rest | '?' :: 'P' :: '<' :: rest =>
    .ok (.opening place, (rest.dropWhile (· != '>')).drop 1)
  | '?' :: ':' :: rest => .ok (.opening place, rest)
  | ['?'] => .error ⟨place, place + 1, .unclosedGroup⟩
  | '?' :: _ => .error ⟨place + 2, place + 3, .unknownFlag⟩
  | _ => .ok (.opening place, cs)

/-- The item that begins with a character, before a given rest of a pattern. -/
def item (size : Nat) (c : Char) (rest : List Char) : Except Misread (Item × List Char) :=
  let place := placeOf size rest - 1
  let repetition (least : Nat) (most : Option Nat) : Except Misread (Item × List Char) :=
    .ok (.repetition place (.ok ⟨least, most⟩), skipLazy rest)
  match c with
  | '(' => groupStart size rest
  | ')' => .ok (.closing place, rest)
  | '|' => .ok (.bar, rest)
  | '[' => (set size rest).map fun (p, rest) => (.atom p, rest)
  | '?' => repetition 0 (some 1)
  | '*' => repetition 0 none
  | '+' => repetition 1 none
  | '\x7b' =>
    match count size rest with
    | .ok (n, rest) => .ok (.repetition place (.ok n), rest)
    | .error m => .ok (.repetition place (.error m), [])
  | '.' => .ok (.atom (one .inLine), rest)
  | '^' => .ok (.atom atStart, rest)
  | '$' => .ok (.atom atEnd, rest)
  | '\\' =>
    match rest with
    | [] => .error ⟨place, place + 1, .endInEscape⟩
    | d :: rest => (escape place d).map fun p => (.atom p, rest)
  | _ => .ok (.atom (one (.single c)), rest)

/-- The items of a written pattern; a flaw is the last. -/
def items (size : Nat) : Nat → List Char → List (Except Misread Item)
  | 0, _ | _, [] => []
  | fuel + 1, c :: cs =>
    match item size c cs with
    | .ok (i, rest) => .ok i :: items size fuel rest
    | .error m => [.error m]

/-- A group in the making: its finished alternatives, and the parts of the last, in reverse. -/
structure Group where
  options : List Pattern
  parts : List Pattern

namespace Group

/-- A group that has just been opened. -/
def empty : Group := ⟨[], []⟩

/-- Adds a part. -/
def push (g : Group) (p : Pattern) : Group := { g with parts := p :: g.parts }

/-- Ends an alternative. -/
def bar (g : Group) : Group := ⟨g.options ++ [Pattern.all g.parts.reverse], []⟩

/-- The pattern of a finished group. -/
def pattern (g : Group) : Pattern := g.options.foldr either (Pattern.all g.parts.reverse)

end Group

/-- Puts items together, inside of groups that were opened at given places. -/
def assemble : List (Except Misread Item) → Group → List (Nat × Group) → Except Misread Pattern
  | [], g, [] => .ok g.pattern
  | [], _, (place, _) :: _ => .error ⟨place, place + 1, .unclosedGroup⟩
  | .error m :: _, _, _ => .error m
  | .ok i :: is, g, outer =>
    match i, outer with
    | .atom p, _ => assemble is (g.push p) outer
    | .bar, _ => assemble is g.bar outer
    | .opening place, _ => assemble is .empty ((place, g) :: outer)
    | .closing place, [] => .error ⟨place, place + 1, .unopenedGroup⟩
    | .closing _, (_, enclosing) :: outer => assemble is (enclosing.push g.pattern) outer
    | .repetition place count, _ =>
      match g.parts, count with
      | [], _ => .error ⟨place, place, .nothingToRepeat⟩
      | _, .error m => .error m
      | p :: ps, .ok n => assemble is { g with parts := p.repeated n.least n.most :: ps } outer

/-- Reads a written pattern. -/
def read (written : String) : Except Misread Pattern :=
  let cs := written.toList
  assemble (items cs.length cs.length cs) .empty []

end Pattern

end Jaf
