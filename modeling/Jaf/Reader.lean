import Jaf.Lexeme

/-!
# Reading lexemes one at a time

A reader hands out the lexemes of a script in order and can look one token ahead. A token that was
looked at is kept and handed out next. Bad text is handed out by whichever call meets it and is
not kept: looking ahead at bad text steps over it. After the last lexeme the end of file repeats.
-/

namespace Jaf

/-- The lexemes still to be scanned, the token looked at ahead of them, and the end of file. -/
structure Reader where
  pending : List Lexeme
  ahead : Option Token
  last : Token
deriving Repr

namespace Reader

/-- A reader at the start of a script. -/
def ofSource (source : String) : Reader := ⟨Lexeme.scan source, none, Lexeme.last source⟩

/-- Hands out the next lexeme. -/
def next (r : Reader) : Lexeme × Reader :=
  match r.ahead, r.pending with
  | some t, _ => (.ok t, { r with ahead := none })
  | none, x :: xs => (x, { r with pending := xs })
  | none, [] => (.ok r.last, r)

/-- Looks at the next lexeme, and keeps it if it is a token. -/
def peek (r : Reader) : Lexeme × Reader :=
  match r.next with
  | (.ok t, r) => (.ok t, { r with ahead := some t })
  | (.error b, r) => (.error b, r)

/-- The number of lexemes left. The end of file counts once, also when it was looked at. -/
def left (r : Reader) : Nat :=
  match r.ahead with
  | some t => if t = r.last then 1 else r.pending.length + 2
  | none => r.pending.length + 1

end Reader

end Jaf
