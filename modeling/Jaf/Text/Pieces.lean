/-!
# Pieces of a text

A separator cuts a text into one piece more than it has separators, so no piece is lost, not even an
empty one.
-/

namespace Jaf

/-- The pieces between the separators of a text. -/
def pieces (separator : Char) : List Char → List (List Char)
  | [] => [[]]
  | c :: cs =>
    if c = separator then [] :: pieces separator cs
    else match pieces separator cs with
      | [] => [[c]]
      | p :: ps => (c :: p) :: ps

end Jaf
