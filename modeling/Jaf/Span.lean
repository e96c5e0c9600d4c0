/-!
# Places in a script

Every token, tree node and error carries the stretch of source text it stands for, as a pair of
byte offsets into the UTF-8 text. Nodes get theirs by merging the spans of their parts, so the one
operation that matters is `Span.merge`: the least span that covers both of its arguments.
-/

namespace Jaf

/-- A stretch of source text, from byte `start` up to but not including byte `stop`. -/
structure Span where
  start : Nat
  stop : Nat
deriving DecidableEq, Repr, Inhabited

namespace Span

/-- The empty stretch at offset `n`. -/
def point (n : Nat) : Span := ⟨n, n⟩

/-- The least stretch that covers both arguments. -/
def merge (a b : Span) : Span := ⟨min a.start b.start, max a.stop b.stop⟩

/-- How a span is written in messages and dumps. -/
def text (s : Span) : String :=
  "Span \x7b start: " ++ toString s.start ++ ", end: " ++ toString s.stop ++ " \x7d"

@[simp] theorem merge_start (a b : Span) : (a.merge b).start = min a.start b.start := rfl

@[simp] theorem merge_stop (a b : Span) : (a.merge b).stop = max a.stop b.stop := rfl

end Span

end Jaf
