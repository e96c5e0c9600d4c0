import Jaf.Text.CharTable

/-!
# White space and controls

The white space of all scripts: the space, the controls that move to another line or column, and the
spaces of other widths. Controls have no shape at all.
-/

namespace Jaf

/-- Whether a character is a control. -/
def isControl (c : Char) : Bool := c.toNat < 0x20 || 0x7f ≤ c.toNat && c.toNat ≤ 0x9f

/-- The white space characters. -/
def whiteSpaceTable : CharTable :=
  [(0x9, 0xd), (0x20, 0x20), (0x85, 0x85), (0xa0, 0xa0), (0x1680, 0x1680), (0x2000, 0x200a),
    (0x2028, 0x2029), (0x202f, 0x202f), (0x205f, 0x205f), (0x3000, 0x3000)]

/-- Whether a character is white space. -/
def isWhiteSpace (c : Char) : Bool := whiteSpaceTable.has c

/-- A text without the white space around it. -/
def trimWhiteSpace (s : List Char) : List Char :=
  ((s.dropWhile isWhiteSpace).reverse.dropWhile isWhiteSpace).reverse

end Jaf
