import Jaf.Text.Extending
import Jaf.Text.WhiteSpace
import Jaf.Text.Wide

/-!
# The width of text on a terminal

Excerpts are drawn under source lines, so marks must be as wide as the characters above them.
Controls, marks that extend their neighbour, and characters that are not drawn take no column. Wide
characters take two, and all others one.

The letters of a Hangul syllable are drawn as one: the leading letter takes both columns, a vowel or a
trailing letter after it none.
-/

namespace Jaf

/-- The characters that are not drawn unless a program has a special use for them. -/
def ignorableTable : CharTable :=
  [(0xad, 0xad), (0x34f, 0x34f), (0x61c, 0x61c), (0x1160, 0x1160), (0x17b4, 0x17b5),
    (0x180b, 0x180f), (0x200b, 0x200f), (0x202a, 0x202e), (0x2060, 0x206f), (0x3164, 0x3164),
    (0xfe00, 0xfe0f), (0xfeff, 0xfeff), (0xffa0, 0xffa0), (0xfff0, 0xfff8), (0x1bca0, 0x1bca3),
    (0x1d173, 0x1d17a), (0xe0000, 0xe0fff)]

/-- The Hangul vowels and trailing letters. -/
def jamoTable : CharTable := [(0x1160, 0x11ff), (0xd7b0, 0xd7c6), (0xd7cb, 0xd7fb)]

/-- The marks that are drawn above, below or around the character after them. -/
def leadingMarkTable : CharTable :=
  [(0x605, 0x605), (0x70f, 0x70f), (0x890, 0x891), (0x8e2, 0x8e2), (0xd4e, 0xd4e),
    (0xa8fa, 0xa8fa), (0x111c2, 0x111c3), (0x113d1, 0x113d1), (0x1193f, 0x1193f),
    (0x11941, 0x11941), (0x11a3a, 0x11a3a), (0x11a84, 0x11a89), (0x11d46, 0x11d46),
    (0x11f02, 0x11f02)]

/-- Whether a character takes no column. -/
def isColumnless (c : Char) : Bool :=
  isControl c || ignorableTable.has c || jamoTable.has c || leadingMarkTable.has c || isExtending c

/--
The number of columns a character takes. The Tifinagh joiner is a mark but is drawn where it joins
nothing, and two Khmer signs are drawn as the several letters they stand for.
-/
def charWidth (c : Char) : Nat :=
  match c.toNat with
  | 0x2d7f => 1
  | 0x17a4 => 2
  | 0x17d8 => 3
  | _ => if isColumnless c then 0 else if isWide c then 2 else 1

end Jaf
