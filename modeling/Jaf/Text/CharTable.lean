/-!
# Tables of characters

Many properties of characters follow no rule and are given as a table: the ranges of the characters
that have the property, in increasing order. The order lets a search stop early, so that the
characters at the front, which are by far the most frequent, are decided at once.
-/

namespace Jaf

/-- Ranges of characters in increasing order, each given by its first and its last number. -/
abbrev CharTable := List (Nat × Nat)

namespace CharTable

/-- Whether a table has a character number. -/
def hasNumber : CharTable → Nat → Bool
  | [], _ => false
  | (first, last) :: rest, n => first ≤ n && (n ≤ last || hasNumber rest n)

/-- Whether a table has a character. -/
def has (table : CharTable) (c : Char) : Bool := table.hasNumber c.toNat

end CharTable

end Jaf
