import Jaf.Analysis.Error

/-!
# What a failed step leaves behind

Analysis annotates trees and fills tables, and when it fails, what it did up to then stays done: the
tree keeps the annotations it has got and the tables keep their new entries. So a step returns the tree
and the state beside its result, and not only when it succeeds. Putting steps together takes care to
put the unfinished part back into its place: `andThen` runs a step on a part of a tree, and if that
fails, `wrap` builds the whole around what is left of the part.
-/

namespace Jaf

/-- The tree as a step leaves it, with the value found on the way or the error that stopped the step. -/
structure Outcome (τ α : Type) where
  tree : τ
  result : Except SemanticError α

namespace Outcome

variable {τ υ α β : Type}

/-- The outcome of a step that found a value. -/
def done (tree : τ) (value : α) : Outcome τ α := ⟨tree, .ok value⟩

/-- The outcome of a step that stopped. -/
def fail (tree : τ) (span : Span) (cause : SemanticCause) : Outcome τ α := ⟨tree, .error ⟨span, cause⟩⟩

/-- The same outcome for a larger tree. -/
def map (wrap : τ → υ) (o : Outcome τ α) : Outcome υ α := ⟨wrap o.tree, o.result⟩

/-- Goes on with a part and its value, or stops with the unfinished part in its place. -/
def andThen (o : Outcome τ α) (wrap : τ → υ) (next : τ → α → Outcome υ β) : Outcome υ β :=
  match o.result with
  | .ok a => next o.tree a
  | .error e => ⟨wrap o.tree, .error e⟩

end Outcome

/-- The tree and the state as a step leaves them, with its value or the error that stopped it. -/
structure Step (σ τ α : Type) where
  tree : τ
  state : σ
  result : Except SemanticError α

namespace Step

variable {σ τ υ α β : Type}

/-- The outcome of a step that found a value. -/
def done (tree : τ) (state : σ) (value : α) : Step σ τ α := ⟨tree, state, .ok value⟩

/-- The outcome of a step that stopped. -/
def fail (tree : τ) (state : σ) (span : Span) (cause : SemanticCause) : Step σ τ α :=
  ⟨tree, state, .error ⟨span, cause⟩⟩

/-- The outcome of a step that only had to check something. -/
def ofResult (tree : τ) (state : σ) (result : Except SemanticError α) : Step σ τ α :=
  ⟨tree, state, result⟩

/-- The same outcome for a larger tree. -/
def map (wrap : τ → υ) (r : Step σ τ α) : Step σ υ α := ⟨wrap r.tree, r.state, r.result⟩

/-- The same outcome with the state changed, whether the step succeeded or not. -/
def mapState (f : σ → σ) (r : Step σ τ α) : Step σ τ α := ⟨r.tree, f r.state, r.result⟩

/-- Goes on with a part and its value, or stops with the unfinished part in its place. -/
def andThen (r : Step σ τ α) (wrap : τ → υ) (next : τ → α → σ → Step σ υ β) : Step σ υ β :=
  match r.result with
  | .ok a => next r.tree a r.state
  | .error e => ⟨wrap r.tree, r.state, .error e⟩

end Step

end Jaf
