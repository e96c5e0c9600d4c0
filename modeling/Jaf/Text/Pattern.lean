/-!
# Patterns

A pattern describes texts. Whether it describes some part of a text is decided in one pass from left to
right, with no backing up: the pass keeps the patterns that the rest of a part begun so far still has to
match, and at every character each of them is replaced by what is left of it. A pattern has only
finitely many such rests, so the pass stays as fast as it began.

Two patterns are about a place rather than a character: the start and the end of the whole text. What
they accept depends on where the pass stands, which is why it is told so.
-/

namespace Jaf

/-- A set of characters: those in some ranges, or those in none of them. -/
structure CharSet where
  negated : Bool
  ranges : List (Nat × Nat)
deriving DecidableEq, Repr

namespace CharSet

/-- The set with one character. -/
def single (c : Char) : CharSet := ⟨false, [(c.toNat, c.toNat)]⟩

/-- All characters but the newline. -/
def inLine : CharSet := ⟨true, [(0x0a, 0x0a)]⟩

/-- Whether a set has a character. -/
def has (s : CharSet) (c : Char) : Bool :=
  s.negated != s.ranges.any fun (first, last) => first ≤ c.toNat && c.toNat ≤ last

end CharSet

/-- A description of texts. -/
inductive Pattern where
  /-- The empty text. -/
  | nothing
  /-- The empty text, at the start of the whole. -/
  | atStart
  /-- The empty text, at the end of the whole. -/
  | atEnd
  /-- One character. -/
  | one (set : CharSet)
  | seq (p q : Pattern)
  | either (p q : Pattern)
  | many (p : Pattern)
deriving DecidableEq, Repr

namespace Pattern

/-- Patterns one after the other. -/
def all (ps : List Pattern) : Pattern := ps.foldr seq nothing

/-- A pattern a number of times, given the least and, if there is one, the greatest number. -/
def repeated (p : Pattern) (least : Nat) (most : Option Nat) : Pattern :=
  all (List.replicate least p ++
    match most with
    | none => [many p]
    | some n => List.replicate (n - least) (either p nothing))

/-- Whether a pattern accepts the empty text, at the start or the end of the whole or inside it. -/
def acceptsEmpty (first last : Bool) : Pattern → Bool
  | nothing => true
  | atStart => first
  | atEnd => last
  | one _ => false
  | seq p q => p.acceptsEmpty first last && q.acceptsEmpty first last
  | either p q => p.acceptsEmpty first last || q.acceptsEmpty first last
  | many _ => true

/-- One pattern before another, where the empty text needs no mention. -/
def before (p q : Pattern) : Pattern := if p = nothing then q else seq p q

/-- What is left of a pattern after a character, in every way it can begin with that character. -/
def rests (first : Bool) (c : Char) : Pattern → List Pattern
  | nothing | atStart | atEnd => []
  | one set => if set.has c then [nothing] else []
  | seq p q =>
    (p.rests first c).map (·.before q) ++
      if p.acceptsEmpty first false then q.rests first c else []
  | either p q => p.rests first c ++ q.rests first c
  | many p => (p.rests first c).map (·.before (many p))

/-- Whether a part of a text is accepted, given the rests of the parts begun before it. -/
def occursFrom (p : Pattern) : List Pattern → Bool → List Char → Bool
  | begun, first, [] => (p :: begun).any (·.acceptsEmpty first true)
  | begun, first, c :: cs =>
    (p :: begun).any (·.acceptsEmpty first false) ||
      p.occursFrom ((p :: begun).flatMap (·.rests first c)).eraseDups false cs

/-- Whether a pattern accepts some part of a text. -/
def occursIn (p : Pattern) (s : String) : Bool := p.occursFrom [] true s.toList

end Pattern

end Jaf
