import Jaf.Text.Extending
import Jaf.Text.Unassigned
import Jaf.Text.WhiteSpace

/-!
# Quoted text

Dumps show a string between double quotes, on one line and in characters that show on their own. The
quote and the backslash get a backslash, the common controls their letter, and every other character
that would not show is written as its number.
-/

namespace Jaf

/-- The characters that only steer how their neighbours are shown. -/
def formatTable : CharTable :=
  [(0xad, 0xad), (0x600, 0x605), (0x61c, 0x61c), (0x6dd, 0x6dd), (0x70f, 0x70f), (0x890, 0x891),
    (0x8e2, 0x8e2), (0x180e, 0x180e), (0x200b, 0x200f), (0x202a, 0x202e), (0x2060, 0x2064),
    (0x2066, 0x206f), (0xfeff, 0xfeff), (0xfff9, 0xfffb), (0x110bd, 0x110bd), (0x110cd, 0x110cd),
    (0x13430, 0x1343f), (0x1bca0, 0x1bca3), (0x1d173, 0x1d17a), (0xe0001, 0xe0001),
    (0xe0020, 0xe007f)]

/-- The characters left to private agreement. -/
def privateTable : CharTable := [(0xe000, 0xf8ff), (0xf0000, 0xffffd), (0x100000, 0x10fffd)]

/--
Whether a character does not show on its own: controls, blanks other than the space, characters that
steer or extend others, and those that have no common meaning.
-/
def isHidden (c : Char) : Bool :=
  isControl c || isWhiteSpace c && c != ' ' || formatTable.has c || privateTable.has c ||
    isExtending c || isUnassigned c

/-- A character as it is written between quotes. -/
def quoteChar (c : Char) : List Char :=
  if c == '"' then ['\\', '"']
  else if c == '\\' then ['\\', '\\']
  else if c == '\x00' then ['\\', '0']
  else if c == '\t' then ['\\', 't']
  else if c == '\r' then ['\\', 'r']
  else if c == '\n' then ['\\', 'n']
  else if isHidden c then ['\\', 'u', '\x7b'] ++ Nat.toDigits 16 c.toNat ++ ['\x7d']
  else [c]

/-- A text between quotes. -/
def quote (s : String) : String := "\"" ++ String.ofList (s.toList.flatMap quoteChar) ++ "\""

end Jaf
