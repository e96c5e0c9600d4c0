import Jaf.Proofs.Parser.ParallelRuns

/-!
# Texts that can be read by themselves

An initializer, or the type in front of a list of declarators, is a text of its own: a list of tokens that a
parser reads to its end. `Parser.wholly` says what it reads there. Nothing that comes after such a text
changes how it is read, as long as it begins with a token that the text cannot go on with. For an initializer
that is a comma or a semicolon (`Parser.assignment_wholly`). This is about runs that echo each other: one over the
text alone, which sees the end of file behind it, and one over the text with a tail.
-/

namespace Jaf

open Jaf.Parser

variable {α β : Type}

/--
What a parser makes of a text that it reads to its end, and the struct names seen by then; nothing if it
does not read all of it.
-/
def Parser.wholly (p : Parser Ribbon α) (names : List String) (ks : List Token.Kind) :
    Option (α × List String) :=
  match p (Spot.stream ks.length ⟨names, ks⟩) with
  | .ok (a, s) => if s.current.kind = .eof then some (a, s.typeNames) else none
  | .error _ => none

theorem Parser.of_wholly {p : Parser Ribbon α} {names names' : List String} {ks : List Token.Kind} {a : α}
    (h : p.wholly names ks = some (a, names')) :
    ∃ s, p (Spot.stream ks.length ⟨names, ks⟩) = .ok (a, s) ∧ s.current.kind = .eof ∧
      s.typeNames = names' := by
  unfold Parser.wholly at h
  split at h
  · rename_i b s hs
    split at h
    · rename_i heof
      cases h
      exact ⟨s, hs, heof, rfl⟩
    · cases h
  · cases h

/-! ## A text with a tail -/

section Tail

variable {n n' : Nat} {tail : List Token.Kind}

/-- A text by itself, and the same text with a tail. -/
def Beside (tail : List Token.Kind) (names names' : List String) (x y : Spot) : Prop :=
  ∃ u, .eof ∉ u ∧ x = ⟨names, u⟩ ∧ y = ⟨names', u ++ tail⟩

variable {names names' : List String} {x y : Spot}

theorem Beside.step (h : Beside tail names names' x y) :
    (x.kind = y.kind ∧ x.kind ≠ .eof ∧ Beside tail names names' x.next y.next ∧
        (y.peek = x.peek ∨ x.peek = .eof ∧ y.peek = tail.headD .eof)) ∨
      x.kinds = [] ∧ y = ⟨names', tail⟩ := by
  obtain ⟨u, hu, rfl, rfl⟩ := h
  cases u with
  | nil => exact .inr ⟨rfl, rfl⟩
  | cons k u =>
      have hk : k ≠ .eof := fun h => hu (h ▸ List.mem_cons_self)
      refine .inl ⟨rfl, hk, ⟨u, fun h => hu (List.mem_cons_of_mem k h), rfl, rfl⟩, ?_⟩
      cases u with
      | nil => exact .inr ⟨rfl, rfl⟩
      | cons k' u => exact .inl rfl

/-- Expressions are read alike in a text and in the text with a tail that no expression goes on with. -/
def Beside.echo (names names' : List String) (hn : n ≤ n') (htail : (tail.headD .eof).isStop = true) :
    Echo where
  n := n
  n' := n'
  le := hn
  Rel := Beside tail names names'
  soft := tail.headD .eof = .symbol .comma
  step {x y} h := by
    have hcast : ∀ k : Token.Kind, k.isStop = true → ExprParsers.castTarget? k = none := by
      intro k hk
      obtain rfl | ⟨text, rfl⟩ | rfl | rfl | rfl | rfl := Token.Kind.isStop_cases hk <;> rfl
    rcases h.step with ⟨hkind, _, hnext, hpeek⟩ | ⟨hx, rfl⟩
    · refine .inl ⟨hkind, fun _ => hnext, ?_⟩
      rcases hpeek with hpeek | ⟨hx, hy⟩
      · rw [hpeek]
      · rw [hx, hy, hcast _ htail]
        rfl
    · have hkind : x.kind = .eof := by rw [Spot.kind, hx]; rfl
      exact .inr ⟨by rw [hkind]; rfl, htail, fun h => h⟩

/-- **An initializer is read the same with a comma or a semicolon behind it.** -/
theorem Parser.assignment_wholly {ks : List Token.Kind} {e : Expr}
    (h : assignment.wholly names ks = some (e, names')) (hks : .eof ∉ ks) (hn : ks.length ≤ n)
    (htail : (tail.headD .eof).isStop = true) (ns : List String) :
    assignment (Spot.stream n ⟨ns, ks ++ tail⟩) = .ok (e, Spot.stream n ⟨ns, tail⟩) := by
  obtain ⟨s, hs, heof, _⟩ := of_wholly h
  obtain ⟨x, rfl, ⟨y, hy, hxy⟩ | hl⟩ := (Echo.echoes_assignment (R := Beside.echo names ns hn htail)) _ _
    ⟨ks, hks, rfl, rfl⟩ e s hs
  · rcases hxy.step with ⟨_, hne, _⟩ | ⟨_, rfl⟩
    · exact absurd heof hne
    · exact hy
  · exact hl.elim

end Tail

end Jaf
