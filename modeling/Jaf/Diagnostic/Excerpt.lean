import Jaf.Lexeme
import Jaf.Text.Pieces
import Jaf.Text.Width

/-!
# Source excerpts

A diagnostic shows the source lines it is about, with the line numbers in front of them and the place
marked below. A place within one line is underlined. A place that spans several lines has a bracket
drawn to its left, with an arrow to its two ends. Of a long stretch only the first four lines and the
last two are shown. A place whose end comes in a line before its start still has both ends marked, but
nothing between them belongs to it.

Places are byte offsets while marks count columns, so a line is first laid out as glyphs, which know
both. A place may reach beyond the end of a line, and even of the text: such offsets belong to the last
line that starts before them.
-/

namespace Jaf

/-- A character of a line, the offset it has there, and the number of columns it takes. -/
structure Glyph where
  char : Char
  start : Nat
  width : Nat
deriving DecidableEq, Repr

namespace Glyph

/-- The offset after a glyph. -/
def stop (g : Glyph) : Nat := g.start + g.char.utf8Size

/-- Tabs end at columns that are multiples of this. -/
def tabWidth : Nat := 4

/-- Lays characters out from a given offset and column. -/
def layout : Nat → Nat → List Char → List Glyph
  | _, _, [] => []
  | offset, column, c :: cs =>
    let width := if c = '\t' then tabWidth - column % tabWidth else charWidth c
    ⟨c, offset, width⟩ :: layout (offset + c.utf8Size) (column + width) cs

/-- The glyph as it is shown: a tab is shown as blanks. -/
def shown (g : Glyph) : List Char := if g.char = '\t' then List.replicate g.width ' ' else [g.char]

/-- As many marks as the glyph has columns. -/
def marks (g : Glyph) (mark : Char) : List Char := List.replicate g.width mark

end Glyph

/-! ## Lines -/

/-- A line of the source: its index, the offset it starts at, and its text without the newline. -/
structure Line where
  index : Nat
  start : Nat
  text : List Char
deriving DecidableEq, Repr

namespace Line

/-- Numbers lines from a given index and offset. -/
def number : Nat → Nat → List (List Char) → List Line
  | _, _, [] => []
  | index, start, l :: ls => ⟨index, start, l⟩ :: number (index + 1) (start + byteLength l + 1) ls

/-- The lines of a source text; there is at least one. -/
def all (source : String) : List Line := number 0 0 (pieces '\n' source.toList)

/-- The last line that starts at or before an offset. -/
def at? (lines : List Line) (offset : Nat) : Option Line := lines.reverse.find? (·.start ≤ offset)

/-- The text that is shown: carriage returns and zero characters at its end are left out. -/
def body (l : Line) : List Char :=
  (l.text.reverse.dropWhile fun c => c == '\r' || c == '\x00').reverse

/-- The glyphs that are shown. -/
def glyphs (l : Line) : List Glyph := Glyph.layout 0 0 l.body

/-- The line as it is shown. -/
def shown (l : Line) : String := String.ofList (l.glyphs.flatMap Glyph.shown)

/-- The column of an offset in the line: one more than the characters that end at or before it. -/
def column (l : Line) (offset : Nat) : Nat :=
  ((Glyph.layout 0 0 l.text).filter (·.stop ≤ offset)).length + 1

/-- The length of the white space a line begins with. -/
def indent (l : Line) : Nat := byteLength (l.body.takeWhile isWhiteSpace)

end Line

/-! ## Marks -/

/-- A message as it follows a mark. -/
def afterMark (message : String) : String := if message = "" then "" else " " ++ message

/-- The glyph that stands for the end of a line, where there is room for one mark. -/
def Line.ending (l : Line) : Glyph := ⟨'\x00', byteLength l.body, 1⟩

/-- The marks below a line for the offsets from `start` to `stop`. -/
def Line.underline (l : Line) (start stop : Nat) : String :=
  String.ofList ((l.glyphs ++ [l.ending]).flatMap fun g =>
    if max start g.start < min stop g.stop then g.marks '^'
    else if g.start < stop then g.marks ' '
    else [])

/-- A stroke below the glyphs that start before an offset. -/
def Line.stroke (l : Line) (offset : Nat) : String :=
  String.ofList ((l.glyphs.takeWhile (·.start < offset)).flatMap (·.marks '─'))

/-! ## Excerpts -/

/-- The gutter of an excerpt, with room for line numbers of a given width. -/
structure Gutter where
  width : Nat

namespace Gutter

/-- Room for as many digits as the number of the line with a given index has. -/
def forIndex (index : Nat) : Gutter := ⟨(toString (index + 1)).length⟩

/-- The gutter of a row without a number. -/
def blank (g : Gutter) : String := String.ofList (List.replicate g.width ' ')

/-- The gutter of a source line: its number, flush right. -/
def number (g : Gutter) (l : Line) : String :=
  let digits := toString (l.index + 1)
  String.ofList (List.replicate (g.width - digits.length) ' ') ++ digits

/-- A row for a source line. -/
def source (g : Gutter) (l : Line) (bracket : String) : String :=
  g.number l ++ " │ " ++ bracket ++ l.shown ++ "\n"

/-- A row for marks. -/
def marks (g : Gutter) (text : String) : String := g.blank ++ " │ " ++ text ++ "\n"

end Gutter

namespace Excerpt

/-- The rows for a place within one line. -/
def single (g : Gutter) (l : Line) (span : Span) (message : String) : String :=
  let start := span.start - l.start
  g.blank ++ " │\n" ++ g.source l "" ++
    g.marks (l.underline start (max (span.stop - l.start) (start + 1)) ++ afterMark message)

/-- What the bracket of a place draws beside a line. -/
inductive Mark where
  /-- The bracket begins at an offset of the line. -/
  | opening (offset : Nat)
  /-- The bracket passes the line. -/
  | passing
  /-- The bracket ends at an offset of the line, and a message stands there. -/
  | closing (offset : Nat) (message : String)
deriving DecidableEq, Repr

/-- The mark of a line, for a place that begins in the line `first` and ends in the line `last`. -/
def mark? (first last : Line) (span : Span) (message : String) (l : Line) : Option Mark :=
  if l.index = first.index then some (.opening (span.start - first.start))
  else if l.index = last.index then some (.closing (span.stop - last.start) message)
  else if first.index < l.index && l.index < last.index then some .passing
  else none

/--
Whether a line is near an end of a place: the two ends themselves are, three lines that the bracket
passes after its beginning, and one before its end.
-/
def isNear (first last l : Line) : Bool :=
  l.index = first.index || l.index = last.index ||
    first.index < l.index && l.index < last.index &&
      (l.index - first.index ≤ 3 || last.index - l.index ≤ 1)

/-- The rows for a line. A bracket can begin before the text of a line; then it needs no arrow. -/
def rows (g : Gutter) (l : Line) : Option Mark → String
  | none => g.source l "  "
  | some .passing => g.source l "│ "
  | some (.opening offset) =>
    if offset ≤ l.indent then g.source l "╭ "
    else g.source l "  " ++ g.marks ("╭" ++ l.stroke (offset + 1) ++ "^")
  | some (.closing offset message) =>
    g.source l "│ " ++ g.marks ("╰" ++ l.stroke offset ++ "^" ++ afterMark message)

/-- The row for lines that are left out. -/
def gap (g : Gutter) : String := g.blank ++ " · │\n"

/-- The rows for a place that begins and ends in different lines; it leaves out no single line. -/
def bracket (g : Gutter) (lines : List Line) (first last : Line) (span : Span) (message : String) :
    String :=
  let between := lines.filter fun l =>
    min first.index last.index ≤ l.index && l.index ≤ max first.index last.index
  let stretches := between.splitBy fun a b => isNear first last a == isNear first last b
  g.blank ++ " │  \n" ++ String.join (stretches.map fun stretch =>
    if stretch.all (isNear first last) || stretch.length = 1 then
      String.join (stretch.map fun l => rows g l (mark? first last span message l))
    else gap g)

/-- The excerpt that shows a place of a source text, with a message beside it. -/
def render (name source : String) (span : Span) (message : String) : String :=
  let lines := Line.all source
  match Line.at? lines span.start, Line.at? lines span.stop with
  | some first, some last =>
    let g := Gutter.forIndex (max first.index last.index)
    g.blank ++ " ┌─ " ++ name ++ ":" ++ toString (first.index + 1) ++ ":" ++
      toString (first.column (span.start - first.start)) ++ "\n" ++
      if first.index = last.index then single g first span message
      else bracket g lines first last span message
  | _, _ => ""

end Excerpt

end Jaf
