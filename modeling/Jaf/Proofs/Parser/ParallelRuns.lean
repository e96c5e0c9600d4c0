import Jaf.Proofs.Parser.Progress
import Jaf.Proofs.Parser.TokenFeed

/-!
# One parser run echoes another

Tokens without places are as good as their kinds, so a parser can be run over a list of kinds. Where it
stands is a `Spot`: the names of structs seen so far and the kinds from the current one on. A `Ribbon` is
such a list as a feed. It has a bound of its own, which does not change when tokens are consumed, so that
two runs over lists of different lengths can have the same bound, or one of them a larger one.

`Echoes` compares two runs in one direction: whenever the first one succeeds from a spot, the second one
succeeds from the spot it is paired with, with the same value, and the spots where they end are paired
again. Nothing is said when the first run fails; in particular it may give up at its bound, and so the second
run may have any bound that is not smaller. A run may also get lost. Then it has ended before a token that no
parser that comes after it can go on with, and the second run does not matter, since the first one is about
to fail.

The rest of this file is about expressions. An expression ends before a token that it cannot go on with, and
never asks what that token is. So a run over an expression with one such token behind it is echoed by a run
over the same tokens with another one behind them (`Echo`). The one thing to be careful about is a comma,
which an expression goes on with in some places and not in others.
-/

namespace Jaf

/-- Kinds of tokens to come, with a bound for the parsers; behind the last of them is the end of file. -/
structure Ribbon where
  kinds : List Token.Kind
  bound : Nat

instance : Feed Ribbon where
  next r := (.ok ⟨r.kinds.headD .eof, .nowhere⟩, ⟨r.kinds.tail, r.bound⟩)
  peek r := (.ok ⟨r.kinds.headD .eof, .nowhere⟩, r)
  left r := r.bound

/-- Where a parser stands: the struct names seen, and the kinds of the tokens from the current one on. -/
structure Spot where
  names : List String
  kinds : List Token.Kind

namespace Spot

/-- The kind of the current token. -/
def kind (x : Spot) : Token.Kind := x.kinds.headD .eof

/-- The spot behind the current token. -/
def next (x : Spot) : Spot := ⟨x.names, x.kinds.tail⟩

/-- The kind of the token behind the current one. -/
def peek (x : Spot) : Token.Kind := x.next.kind

/-- The spot with one more struct name seen. -/
def learn (x : Spot) (text : String) : Spot := ⟨text :: x.names, x.kinds⟩

/-- The stream of a parser that stands at a spot and has the given bound. -/
def stream (n : Nat) (x : Spot) : Stream Ribbon :=
  ⟨⟨x.kind, .nowhere⟩, ⟨x.kinds.tail, n⟩, .nowhere, x.names⟩

end Spot

namespace Parser

variable {α β : Type} {n : Nat} {x : Spot}

theorem bind_to {φ : Type} {p : Parser φ α} {f : α → Parser φ β} {s t : Stream φ} {a : α}
    (h : p s = .ok (a, t)) : (p >>= f) s = f a t := by
  show Except.bind (p s) _ = _
  rw [h]
  rfl

theorem kind_stream : kind (x.stream n) = .ok (x.kind, x.stream n) := rfl

theorem span_stream : span (x.stream n) = .ok (.nowhere, x.stream n) := rfl

theorem previous_stream : previous (x.stream n) = .ok (.nowhere, x.stream n) := rfl

theorem lookahead_stream : lookahead (x.stream n) = .ok (x.peek, x.stream n) := rfl

theorem accept_stream (k : Token.Kind) : accept k (x.stream n) =
    if x.kind = k then .ok (true, x.next.stream n) else .ok (false, x.stream n) := by
  unfold accept
  rw [bind_to kind_stream]
  split <;> rfl

theorem at?_eq (k : Token.Kind) (f : Bool → Parser Ribbon α) :
    (at? k >>= f) = kind >>= fun k' => if k' = k then f true else f false := by
  simp only [at?, bind_assoc, pure_bind]
  congr
  funext k'
  by_cases h : k' = k <;> simp only [h, if_true, if_false, decide_true, decide_false]

theorem accept_eq (k : Token.Kind) (f : Bool → Parser Ribbon α) :
    (accept k >>= f) = kind >>= fun k' => if k' = k then advance >>= fun _ => f true else f false := by
  simp only [accept, bind_assoc]
  congr
  funext k'
  by_cases h : k' = k <;> simp only [h, if_true, if_false, bind_assoc, pure_bind]

theorem expect_stream {k : Token.Kind} (h : x.kind = k) :
    expect k (x.stream n) = .ok ((), x.next.stream n) := by
  unfold expect
  rw [bind_to kind_stream, if_pos h]
  rfl

theorem of_expect_stream {k : Token.Kind} {u : Unit} {s : Stream Ribbon}
    (h : expect k (x.stream n) = .ok (u, s)) : x.kind = k ∧ s = x.next.stream n := by
  unfold expect at h
  rw [bind_to kind_stream] at h
  split at h
  · cases h
    exact ⟨‹_›, rfl⟩
  · cases h

theorem name?_stream {text : String} (h : x.kind = .name text) :
    name? (x.stream n) = .ok (some text, x.next.stream n) := by
  unfold name?
  rw [bind_to kind_stream, h]
  rfl

theorem name?_stream_none (h : ∀ text, x.kind ≠ .name text) :
    name? (x.stream n) = .ok (none, x.stream n) := by
  unfold name?
  rw [bind_to kind_stream]
  generalize x.kind = k at h
  cases k with
  | name text => exact absurd rfl (h text)
  | _ => rfl

theorem name_stream {text : String} (h : x.kind = .name text) :
    name (x.stream n) = .ok (text, x.next.stream n) := by
  unfold name
  rw [bind_to (name?_stream h)]
  rfl

theorem of_name_stream {text : String} {s : Stream Ribbon} (h : name (x.stream n) = .ok (text, s)) :
    x.kind = .name text ∧ s = x.next.stream n := by
  by_cases hk : ∃ text, x.kind = .name text
  · obtain ⟨text', hk⟩ := hk
    rw [name_stream hk] at h
    cases h
    exact ⟨hk, rfl⟩
  · unfold name at h
    rw [bind_to (name?_stream_none fun text ht => hk ⟨text, ht⟩)] at h
    cases h

/-! ## Runs that echo runs -/

/-- The run ends before a token that is lost, if it succeeds. -/
def Strays (n : Nat) (lost : α → Token.Kind → Prop) (p : Parser Ribbon α) (x : Spot) : Prop :=
  ∀ a s, p (x.stream n) = .ok (a, s) → ∃ x' : Spot, s = x'.stream n ∧ lost a x'.kind

/-- No token is lost. -/
def never (_ : α) (_ : Token.Kind) : Prop := False

/-- Runs of `p` from a spot are echoed by runs of `q` from the spot that it is paired with. -/
def Echoes (n n' : Nat) (pre : Spot → Spot → Prop) (post : α → Spot → Spot → Prop)
    (lost : α → Token.Kind → Prop) (p q : Parser Ribbon α) : Prop :=
  ∀ x y, pre x y → ∀ a s, p (x.stream n) = .ok (a, s) →
    ∃ x' : Spot, s = x'.stream n ∧
      ((∃ y' : Spot, q (y.stream n') = .ok (a, y'.stream n') ∧ post a x' y') ∨ lost a x'.kind)

variable {n' : Nat} {pre pre' : Spot → Spot → Prop} {post mid : α → Spot → Spot → Prop}
  {lost : α → Token.Kind → Prop} {p q : Parser Ribbon α}

theorem echoes_fail (h : ∀ x y, pre x y → ∀ a s, p (x.stream n) ≠ .ok (a, s)) :
    Echoes n n' pre post lost p q := fun x y hxy a s hp => absurd hp (h x y hxy a s)

theorem echoes_strays (h : ∀ x y, pre x y → Strays n lost p x) : Echoes n n' pre post lost p q := by
  intro x y hxy a s hp
  obtain ⟨x', rfl, hl⟩ := h x y hxy a s hp
  exact ⟨x', rfl, .inr hl⟩

theorem echoes_unexpected (e : Expected) : Echoes n n' pre post lost (unexpected e) q :=
  echoes_fail fun _ _ _ _ _ h => by cases h

theorem echoes_failAt (place : Span) (c : SyntaxCause) : Echoes n n' pre post lost (failAt place c) q :=
  echoes_fail fun _ _ _ _ _ h => by cases h

theorem echoes_giveUp : Echoes n n' pre post lost giveUp q :=
  echoes_fail fun _ _ _ _ _ h => by cases h

theorem echoes_pure {a : α} (h : ∀ x y, pre x y → post a x y) :
    Echoes n n' pre post lost (pure a) (pure a) := by
  intro x y hxy b s hp
  cases hp
  exact ⟨x, rfl, .inl ⟨y, rfl, h x y hxy⟩⟩

theorem echoes_return (a : α) : Echoes n n' pre (fun _ => pre) lost (pure a) (pure a) :=
  echoes_pure fun _ _ h => h

theorem Echoes.weaken (h : Echoes n n' pre post lost p q) (hpre : ∀ x y, pre' x y → pre x y) :
    Echoes n n' pre' post lost p q := fun x y hxy => h x y (hpre x y hxy)

theorem Echoes.strengthen {post' : α → Spot → Spot → Prop} {lost' : α → Token.Kind → Prop}
    (h : Echoes n n' pre post lost p q) (hpost : ∀ a x y, post a x y → post' a x y)
    (hlost : ∀ a k, lost a k → lost' a k) : Echoes n n' pre post' lost' p q := by
  intro x y hxy a s hp
  obtain ⟨x', rfl, ⟨y', hq, hpost'⟩ | hl⟩ := h x y hxy a s hp
  · exact ⟨x', rfl, .inl ⟨y', hq, hpost a x' y' hpost'⟩⟩
  · exact ⟨x', rfl, .inr (hlost a x'.kind hl)⟩

section Bind

variable {f g : α → Parser Ribbon β} {post' : β → Spot → Spot → Prop} {lost' : β → Token.Kind → Prop}

/-- One run after the other; if the first one got lost, what comes after it stays lost or fails. -/
theorem Echoes.bind_lost (hp : Echoes n n' pre mid lost p q)
    (hf : ∀ a, Echoes n n' (mid a) post' lost' (f a) (g a))
    (hlost : ∀ a x, lost a x.kind → Strays n lost' (f a) x) :
    Echoes n n' pre post' lost' (p >>= f) (q >>= g) := by
  intro x y hxy b s h
  obtain ⟨a, t, hpt, hft⟩ := bind_eq_ok h
  obtain ⟨x₁, rfl, ⟨y₁, hq, hmid⟩ | hl⟩ := hp x y hxy a t hpt
  · obtain ⟨x₂, rfl, hend⟩ := hf a x₁ y₁ hmid b s hft
    refine ⟨x₂, rfl, hend.imp_left fun hy => ?_⟩
    obtain ⟨y₂, hg, hpost⟩ := hy
    exact ⟨y₂, (bind_to hq).trans hg, hpost⟩
  · obtain ⟨x₂, rfl, hl'⟩ := hlost a x₁ hl b s hft
    exact ⟨x₂, rfl, .inr hl'⟩

theorem Echoes.bind (hp : Echoes n n' pre mid never p q)
    (hf : ∀ a, Echoes n n' (mid a) post' lost' (f a) (g a)) :
    Echoes n n' pre post' lost' (p >>= f) (q >>= g) :=
  hp.bind_lost hf fun _ _ h => h.elim

theorem echoes_span {f g : Span → Parser Ribbon β}
    (h : Echoes n n' pre post' lost' (f .nowhere) (g .nowhere)) :
    Echoes n n' pre post' lost' (span >>= f) (span >>= g) := h

theorem echoes_previous {f g : Span → Parser Ribbon β}
    (h : Echoes n n' pre post' lost' (f .nowhere) (g .nowhere)) :
    Echoes n n' pre post' lost' (previous >>= f) (previous >>= g) := h

end Bind

theorem Echoes.ite {c : Prop} [Decidable c] {p' q' : Parser Ribbon α}
    (h : Echoes n n' pre post lost p q) (h' : Echoes n n' pre post lost p' q') :
    Echoes n n' pre post lost (if c then p else p') (if c then q else q') := by
  split
  · exact h
  · exact h'

/-- What comes after a lost run fails if it asks for a token that is not lost. -/
theorem strays_expect {k : Token.Kind} {f : Unit → Parser Ribbon α} (h : x.kind ≠ k) :
    Strays n lost (expect k >>= f) x := by
  intro a s hs
  obtain ⟨u, t, hexpect, _⟩ := bind_eq_ok hs
  exact absurd (of_expect_stream hexpect).1 h

/-- Where the runs are after a turn of a loop. -/
def afterTurn (pre : Spot → Spot → Prop) (post : β → Spot → Spot → Prop) : Turn α β → Spot → Spot → Prop
  | .again _ => pre
  | .done b => post b

/-- A turn that goes round again is not lost. -/
def lostTurn (lost : β → Token.Kind → Prop) : Turn α β → Token.Kind → Prop
  | .again _ => fun _ => False
  | .done b => lost b

theorem echoes_again {post : β → Spot → Spot → Prop} {lost : β → Token.Kind → Prop} (a : α) :
    Echoes n n' pre (afterTurn pre post) (lostTurn lost) (pure (.again a)) (pure (.again a)) :=
  echoes_pure fun _ _ h => h

theorem echoes_done {lost : β → Token.Kind → Prop} (b : β) :
    Echoes n n' pre (afterTurn (α := α) pre fun _ => pre) (lostTurn lost) (pure (.done b)) (pure (.done b)) :=
  echoes_pure fun _ _ h => h

/-- A loop is echoed by a loop whose turns echo its turns, and whose bound is not smaller. -/
theorem echoes_loopN {turn turn' : α → Parser Ribbon (Turn α β)} {post : β → Spot → Spot → Prop}
    {lost : β → Token.Kind → Prop}
    (h : ∀ a, Echoes n n' pre (afterTurn pre post) (lostTurn lost) (turn a) (turn' a)) (m : Nat) :
    ∀ {m' : Nat}, m ≤ m' → ∀ a, Echoes n n' pre post lost (loopN turn m a) (loopN turn' m' a) := by
  induction m with
  | zero => intro m' _ a; exact echoes_giveUp
  | succ m ih =>
      intro m' hm a
      obtain ⟨m', rfl⟩ : ∃ j, m' = j + 1 := ⟨m' - 1, by omega⟩
      refine (h a).bind_lost (fun t => ?_) fun t x hl => ?_
      · cases t with
        | again a' => exact ih (by omega) a'
        | done b => exact echoes_pure fun _ _ hxy => hxy
      · cases t with
        | again a' => exact hl.elim
        | done b =>
            intro b' s hs
            cases hs
            exact ⟨x, rfl, hl⟩

theorem echoes_loop {turn turn' : α → Parser Ribbon (Turn α β)} {post : β → Spot → Spot → Prop}
    {lost : β → Token.Kind → Prop} (hn : n ≤ n')
    (h : ∀ a, Echoes n n' pre (afterTurn pre post) (lostTurn lost) (turn a) (turn' a)) (a : α) :
    Echoes n n' pre post lost (loop turn a) (loop turn' a) :=
  echoes_loopN h (n + 2) (show n + 2 ≤ n' + 2 by omega) a

/-- A parser that is chosen by the bound. -/
theorem echoes_depth {p q : Nat → Parser Ribbon α} (hn : n ≤ n')
    (h : ∀ m m', m ≤ m' → Echoes n n' pre post lost (p m) (q m')) :
    Echoes n n' pre post lost (fun s => p (depth s) s) (fun s => q (depth s) s) :=
  h (n + 2) (n' + 2) (by omega)

end Parser

/-! ## Tokens that end an expression -/

namespace Token.Kind

/-- The end of file and the tokens that never stand inside of an expression, however deep. -/
def isBar : Token.Kind → Bool
  | .eof | .symbol .semicolon | .symbol .leftBrace | .symbol .rightBrace => true
  | _ => false

/-- Tokens that an expression can be followed by and, but for commas, never goes on with. -/
def isStop : Token.Kind → Bool
  | .symbol .comma | .name _ => true
  | k => k.isBar

/-- Tokens that are neither bars nor the beginning of a struct. -/
def isPlain (k : Token.Kind) : Bool := !k.isBar && k ≠ .keyword .kwStruct

theorem isBar_cases {k : Token.Kind} (h : k.isBar = true) :
    k = .eof ∨ k = .symbol .semicolon ∨ k = .symbol .leftBrace ∨ k = .symbol .rightBrace := by
  unfold isBar at h
  split at h <;> simp_all

theorem isStop_cases {k : Token.Kind} (h : k.isStop = true) :
    k = .symbol .comma ∨ (∃ text, k = .name text) ∨ k = .eof ∨ k = .symbol .semicolon ∨
      k = .symbol .leftBrace ∨ k = .symbol .rightBrace := by
  unfold isStop at h
  split at h
  · exact .inl rfl
  · exact .inr (.inl ⟨_, rfl⟩)
  · exact .inr (.inr (isBar_cases h))

theorem isStop_of_isBar {k : Token.Kind} (h : k.isBar = true) : k.isStop = true := by
  obtain rfl | rfl | rfl | rfl := isBar_cases h <;> rfl

end Token.Kind

/-- Pairs of spots at which the same tokens follow, up to tokens that end an expression. -/
structure Echo where
  n : Nat
  n' : Nat
  le : n ≤ n'
  /-- The spots that are paired. -/
  Rel : Spot → Spot → Prop
  /-- Whether there may be a comma in the place of a token that ends an expression. -/
  soft : Prop
  step {x y : Spot} : Rel x y →
    (x.kind = y.kind ∧ (x.kind.isPlain = true → Rel x.next y.next) ∧
      ExprParsers.castTarget? x.peek = ExprParsers.castTarget? y.peek) ∨
    (x.kind.isBar = true ∧ y.kind.isStop = true ∧ (y.kind = .symbol .comma → soft))

namespace Echo

open Jaf.Parser

variable {α β : Type} {R : Echo} {post : β → Spot → Spot → Prop} {lost : β → Token.Kind → Prop}

/-- The run ended before a bar where the other one has a comma. -/
def Lost (R : Echo) (_ : α) (k : Token.Kind) : Prop := k.isBar = true ∧ R.soft

/-- Runs from paired spots lead to paired spots. -/
abbrev Keeps (R : Echo) (p q : Parser Ribbon α) : Prop :=
  Echoes R.n R.n' R.Rel (fun _ => R.Rel) never p q

/-- Paired spots with the same current token, which may be consumed. -/
structure Moves (R : Echo) (k : Token.Kind) (x y : Spot) : Prop where
  rel : R.Rel x y
  left : x.kind = k
  right : y.kind = k
  next : k.isPlain = true → R.Rel x.next y.next
  cast : ExprParsers.castTarget? x.peek = ExprParsers.castTarget? y.peek

/-- Paired spots at the end of an expression. -/
structure Ends (R : Echo) (k k' : Token.Kind) (x y : Spot) : Prop where
  rel : R.Rel x y
  left : x.kind = k
  soft : k' = .symbol .comma → R.soft

theorem kind_bind {f g : Token.Kind → Parser Ribbon β}
    (hmove : ∀ k, Echoes R.n R.n' (R.Moves k) post lost (f k) (g k))
    (hend : ∀ k k', k.isBar = true → k'.isStop = true →
      Echoes R.n R.n' (R.Ends k k') post lost (f k) (g k')) :
    Echoes R.n R.n' R.Rel post lost (kind >>= f) (kind >>= g) := by
  intro x y hxy b s hs
  rcases R.step hxy with ⟨hkind, hnext, hcast⟩ | ⟨hbar, hstop, hsoft⟩
  · have hg : (kind >>= g) (y.stream R.n') = g x.kind (y.stream R.n') := by rw [hkind]; rfl
    rw [hg]
    exact hmove x.kind x y ⟨hxy, rfl, hkind.symm, hnext, hcast⟩ b s hs
  · exact hend x.kind y.kind hbar hstop x y ⟨hxy, rfl, hsoft⟩ b s hs

/-- Where the parsers do the same at all tokens that end an expression, the end is no case of its own. -/
theorem kind_bind_stop {f g : Token.Kind → Parser Ribbon β} {r r' : Parser Ribbon β}
    (hf : ∀ k, k.isStop = true → f k = r) (hg : ∀ k, k.isStop = true → g k = r')
    (hmove : ∀ k, Echoes R.n R.n' (R.Moves k) post lost (f k) (g k))
    (hend : Echoes R.n R.n' R.Rel post lost r r') :
    Echoes R.n R.n' R.Rel post lost (kind >>= f) (kind >>= g) := by
  refine kind_bind hmove fun k k' hk hk' => ?_
  rw [hf k (Token.Kind.isStop_of_isBar hk), hg k' hk']
  exact hend.weaken fun _ _ h => h.rel

theorem advance_bind {k : Token.Kind} {f g : Unit → Parser Ribbon β} (hk : k.isPlain = true)
    (h : Echoes R.n R.n' R.Rel post lost (f ()) (g ())) :
    Echoes R.n R.n' (R.Moves k) post lost (advance >>= f) (advance >>= g) :=
  fun x y hxy => h x.next y.next (hxy.next hk)

/-- The token behind the current one tells the same about a cast. -/
theorem lookahead_bind {k : Token.Kind} {f g : Token.Kind → Parser Ribbon β}
    (h : ∀ k₁ k₂, ExprParsers.castTarget? k₁ = ExprParsers.castTarget? k₂ →
      Echoes R.n R.n' (fun x y => R.Moves k x y ∧ x.peek = k₁) post lost (f k₁) (g k₂)) :
    Echoes R.n R.n' (R.Moves k) post lost (lookahead >>= f) (lookahead >>= g) :=
  fun x y hxy => h x.peek y.peek hxy.cast x y ⟨hxy, rfl⟩

theorem ne_bar_of_isPlain {k k' : Token.Kind} (hk : k.isPlain = true) (hk' : k'.isBar = true) : k' ≠ k := by
  intro h
  subst h
  simp [Token.Kind.isPlain, hk'] at hk

theorem accept_bind {k : Token.Kind} {f g : Bool → Parser Ribbon β} (hk : k.isPlain = true)
    (hstop : k.isStop = false) (htrue : Echoes R.n R.n' R.Rel post lost (f true) (g true))
    (hfalse : Echoes R.n R.n' R.Rel post lost (f false) (g false)) :
    Echoes R.n R.n' R.Rel post lost (accept k >>= f) (accept k >>= g) := by
  have hne : ∀ k', k'.isStop = true → k' ≠ k := fun k' h hk' => by rw [hk', hstop] at h; cases h
  rw [accept_eq, accept_eq]
  refine kind_bind_stop (fun k' h => if_neg (hne k' h)) (fun k' h => if_neg (hne k' h)) (fun k' => ?_) hfalse
  by_cases h : k' = k
  · rw [if_pos h, if_pos h]
    exact advance_bind (h ▸ hk) htrue
  · rw [if_neg h, if_neg h]
    exact hfalse.weaken fun _ _ h => h.rel

/-- A comma may be there for the second run where the first one is at a bar. -/
theorem comma_bind {p p' q q' : Parser Ribbon β}
    (hmove : Echoes R.n R.n' (R.Moves (.symbol .comma)) post lost p q)
    (hend : Echoes R.n R.n' R.Rel post lost p' q')
    (hlost : R.soft → ∀ x, x.kind.isBar = true → Strays R.n lost p' x) :
    Echoes R.n R.n' R.Rel post lost (kind >>= fun k => if k = .symbol .comma then p else p')
      (kind >>= fun k => if k = .symbol .comma then q else q') := by
  refine kind_bind (fun k => ?_) fun k k' hk _ => ?_
  · by_cases h : k = .symbol .comma
    · rw [if_pos h, if_pos h, h]
      exact hmove
    · rw [if_neg h, if_neg h]
      exact hend.weaken fun _ _ h => h.rel
  · rw [if_neg (ne_bar_of_isPlain rfl hk)]
    by_cases h : k' = .symbol .comma
    · exact echoes_strays fun x y hxy => hlost (hxy.soft h) x (hxy.left ▸ hk)
    · rw [if_neg h]
      exact hend.weaken fun _ _ h => h.rel

theorem expect_bind {k : Token.Kind} {f g : Unit → Parser Ribbon β} (hk : k.isPlain = true)
    (h : Echoes R.n R.n' R.Rel post lost (f ()) (g ())) :
    Echoes R.n R.n' R.Rel post lost (expect k >>= f) (expect k >>= g) := by
  intro x y hxy b s hs
  obtain ⟨u, t, hexpect, hs⟩ := bind_eq_ok hs
  obtain ⟨hx, rfl⟩ := of_expect_stream hexpect
  rcases R.step hxy with ⟨hkind, hnext, _⟩ | ⟨hbar, _⟩
  · rw [bind_to (expect_stream (hkind.symm.trans hx))]
    exact h _ _ (hnext (hx ▸ hk)) b s hs
  · exact absurd hx (ne_bar_of_isPlain hk hbar)

theorem name_bind {f g : String → Parser Ribbon β}
    (h : ∀ text, Echoes R.n R.n' R.Rel post lost (f text) (g text)) :
    Echoes R.n R.n' R.Rel post lost (name >>= f) (name >>= g) := by
  intro x y hxy b s hs
  obtain ⟨text, t, hname, hs⟩ := bind_eq_ok hs
  obtain ⟨hx, rfl⟩ := of_name_stream hname
  rcases R.step hxy with ⟨hkind, hnext, _⟩ | ⟨hbar, _⟩
  · rw [bind_to (name_stream (hkind.symm.trans hx))]
    exact h text _ _ (hnext (by rw [hx]; rfl)) b s hs
  · rw [hx] at hbar
    cases hbar

end Echo

/-! ## Expressions -/

namespace ExprParsers

open Jaf.Parser

/-- Expression parsers of one level that are echoed by those of another. -/
structure Follow (R : Echo) (inner inner' : ExprParsers Ribbon) : Prop where
  expression : Echoes R.n R.n' R.Rel (fun _ => R.Rel) R.Lost inner.expression inner'.expression
  assignment : R.Keeps inner.assignment inner'.assignment
  conditional : R.Keeps inner.conditional inner'.conditional
  binary (least : Nat) : R.Keeps (inner.binary least) (inner'.binary least)
  unary : R.Keeps inner.unary inner'.unary

variable {R : Echo} {inner inner' : ExprParsers Ribbon}

theorem echoes_literal {n n' : Nat} {pre : Spot → Spot → Prop} {place : Span}
    {make : Note → Except SyntaxCause Expr} :
    Echoes n n' pre (fun _ => pre) never (literal place make) (literal place make) := by
  unfold literal
  split
  · exact echoes_pure fun _ _ h => h
  · exact echoes_failAt _ _

theorem echoes_arguments (h : Follow R inner inner') : R.Keeps (arguments inner) (arguments inner') := by
  refine Echo.accept_bind rfl rfl (echoes_return _) ?_
  refine Echoes.bind_lost
    (show Echoes R.n R.n' R.Rel (fun _ => R.Rel) R.Lost _ _ from echoes_loop R.le (fun args => ?_) [])
    (fun args => Echo.expect_bind rfl (echoes_return _)) fun args x hl => ?_
  · refine h.assignment.bind fun e => ?_
    rw [accept_eq]
    refine Echo.comma_bind (Echo.advance_bind rfl (echoes_again _)) (echoes_done _) ?_
    intro hsoft x hbar a s hs
    cases hs
    exact ⟨x, rfl, hbar, hsoft⟩
  · exact strays_expect (Echo.ne_bar_of_isPlain rfl hl.1)

theorem echoes_primary (h : Follow R inner inner') : R.Keeps (primary inner) (primary inner') := by
  refine echoes_span (Echo.kind_bind (fun k => ?_) fun k k' hk hk' => ?_)
  · split
    · exact Echo.advance_bind rfl echoes_literal
    · exact Echo.advance_bind rfl echoes_literal
    · exact Echo.advance_bind rfl echoes_literal
    · exact Echo.advance_bind rfl echoes_literal
    · refine Echo.advance_bind rfl (Echo.accept_bind rfl rfl ?_ (echoes_return _))
      exact (echoes_arguments h).bind fun args => echoes_previous (echoes_pure fun _ _ h => h)
    · refine Echo.advance_bind rfl (h.expression.bind_lost (fun e => ?_) fun e x hl => ?_)
      · exact Echo.expect_bind rfl (echoes_previous (echoes_return _))
      · exact strays_expect (Echo.ne_bar_of_isPlain rfl hl.1)
    · exact echoes_unexpected _
  -- no expression begins with a bar
  · obtain rfl | rfl | rfl | rfl := Token.Kind.isBar_cases hk <;> exact echoes_unexpected _

theorem echoes_suffixes (e : Expr) : R.Keeps (suffixes e) (suffixes e) := by
  refine echoes_loop R.le (fun e => ?_) e
  refine Echo.kind_bind_stop (r := pure (.done e)) (fun k hk => ?_) (fun k hk => ?_) (fun k => ?_)
    (echoes_done e)
  · obtain rfl | ⟨text, rfl⟩ | rfl | rfl | rfl | rfl := Token.Kind.isStop_cases hk <;> rfl
  · obtain rfl | ⟨text, rfl⟩ | rfl | rfl | rfl | rfl := Token.Kind.isStop_cases hk <;> rfl
  · split
    · exact Echo.advance_bind rfl (Echo.name_bind fun field =>
        echoes_previous (echoes_again _))
    · exact Echo.advance_bind rfl (echoes_previous (echoes_again _))
    · exact Echo.advance_bind rfl (echoes_previous (echoes_again _))
    · exact echoes_span (echoes_failAt _ _)
    · exact echoes_pure fun _ _ h => h.rel

theorem echoes_operand (h : Follow R inner inner') (start : Span) (op : UnaryOp) :
    R.Keeps (operand inner start op) (operand inner' start op) := by
  have hleast : ∀ k : Token.Kind, k.isStop = true → ¬(op = .neg ∧ k = .int "2147483648") := by
    intro k hk hleast
    rw [hleast.2] at hk
    cases hk
  have hunary : R.Keeps (inner.unary >>= fun e => pure (Expr.unary (.ofSpan (start.merge e.span)) op e))
      (inner'.unary >>= fun e => pure (Expr.unary (.ofSpan (start.merge e.span)) op e)) :=
    h.unary.bind fun e => echoes_return _
  refine echoes_span (Echo.kind_bind_stop (fun k hk => if_neg (hleast k hk))
    (fun k hk => if_neg (hleast k hk)) (fun k => ?_) hunary)
  split
  · rename_i hleast
    exact Echo.advance_bind (by rw [hleast.2]; rfl) (echoes_return _)
  · exact hunary.weaken fun _ _ h => h.rel

theorem castTarget?_plain {k : Token.Kind} {target : TypeKind} (h : castTarget? k = some target) :
    k.isPlain = true := by
  unfold castTarget? at h
  split at h <;> first | rfl | cases h

theorem echoes_castTail (h : Follow R inner inner') (start : Span) (target : TypeKind) :
    Echoes R.n R.n' (fun x y => R.Rel x y ∧ castTarget? x.kind = some target) (fun _ => R.Rel) never
      (castTail inner start target) (castTail inner' start target) := by
  intro x y hxy
  rcases R.step hxy.1 with ⟨hkind, hnext, hcast⟩ | ⟨hbar, _⟩
  · refine Echo.advance_bind (castTarget?_plain hxy.2)
      (Echo.expect_bind rfl (h.unary.bind fun _ => echoes_return _)) x y ?_
    exact ⟨hxy.1, rfl, hkind.symm, hnext, hcast⟩
  · exact absurd rfl (Echo.ne_bar_of_isPlain (castTarget?_plain hxy.2) hbar)

theorem unaryOp?_plain {k : Token.Kind} {op : UnaryOp} (h : unaryOp? k = some op) :
    k.isPlain = true := by
  unfold unaryOp? at h
  split at h <;> first | rfl | cases h

theorem echoes_unaryLayer (h : Follow R inner inner') : R.Keeps (unaryLayer inner) (unaryLayer inner') := by
  have hplain : R.Keeps (primary inner >>= suffixes) (primary inner' >>= suffixes) :=
    (echoes_primary h).bind echoes_suffixes
  refine echoes_span (Echo.kind_bind_stop (fun k hk => ?_) (fun k hk => ?_) (fun k => ?_) hplain)
  · obtain rfl | ⟨text, rfl⟩ | rfl | rfl | rfl | rfl := Token.Kind.isStop_cases hk <;> rfl
  · obtain rfl | ⟨text, rfl⟩ | rfl | rfl | rfl | rfl := Token.Kind.isStop_cases hk <;> rfl
  · split
    · exact Echo.advance_bind rfl h.unary
    -- a parenthesis: what is behind it tells a cast, and the end of an expression tells none
    · refine Echo.lookahead_bind fun k₁ k₂ hcast => ?_
      rw [hcast]
      split
      · rename_i target htarget
        have htail := echoes_castTail h .nowhere target
        exact fun x y hxy => htail x.next y.next
          ⟨hxy.1.next rfl, (congrArg castTarget? hxy.2).trans (hcast.trans htarget)⟩
      · exact hplain.weaken fun _ _ h => h.1.rel
    · split
      · exact Echo.advance_bind (unaryOp?_plain ‹_›) (echoes_operand h _ _)
      · exact hplain.weaken fun _ _ h => h.rel

theorem binary?_plain {k : Token.Kind} {op : BinaryOp} (h : k.binary? = some op) : k.isPlain = true := by
  cases k with
  | symbol sign => cases sign <;> first | rfl | cases h
  | _ => cases h

theorem assign?_plain {k : Token.Kind} {op : AssignOp} (h : k.assign? = some op) : k.isPlain = true := by
  cases k with
  | symbol sign => cases sign <;> first | rfl | cases h
  | _ => cases h

theorem echoes_binaryLayer (h : Follow R inner inner') (least : Nat) :
    R.Keeps (binaryLayer inner least) (binaryLayer inner' least) := by
  refine (echoes_unaryLayer h).bind fun first => echoes_loop R.le (fun left => ?_) first
  refine Echo.kind_bind_stop (r := pure (.done left)) (fun k hk => ?_) (fun k hk => ?_) (fun k => ?_)
    (echoes_done left)
  · obtain rfl | ⟨text, rfl⟩ | rfl | rfl | rfl | rfl := Token.Kind.isStop_cases hk <;> rfl
  · obtain rfl | ⟨text, rfl⟩ | rfl | rfl | rfl | rfl := Token.Kind.isStop_cases hk <;> rfl
  · split
    · refine .ite (echoes_pure fun _ _ h => h.rel) (Echo.advance_bind (binary?_plain ‹_›) ?_)
      exact (h.binary _).bind fun right => echoes_again _
    · exact echoes_pure fun _ _ h => h.rel

theorem echoes_conditionalLayer (h : Follow R inner inner') :
    R.Keeps (conditionalLayer inner) (conditionalLayer inner') := by
  refine (echoes_binaryLayer h 1).bind fun test => Echo.accept_bind rfl rfl ?_ (echoes_return _)
  refine h.expression.bind_lost (fun yes => ?_) fun yes x hl => ?_
  · exact Echo.expect_bind rfl (h.conditional.bind fun no => echoes_return _)
  · exact strays_expect (Echo.ne_bar_of_isPlain rfl hl.1)

theorem echoes_assignmentLayer (h : Follow R inner inner') :
    R.Keeps (assignmentLayer inner) (assignmentLayer inner') := by
  refine (echoes_conditionalLayer h).bind fun target => ?_
  refine Echo.kind_bind_stop (r := pure target) (fun k hk => ?_) (fun k hk => ?_) (fun k => ?_)
    (echoes_return target)
  · obtain rfl | ⟨text, rfl⟩ | rfl | rfl | rfl | rfl := Token.Kind.isStop_cases hk <;> rfl
  · obtain rfl | ⟨text, rfl⟩ | rfl | rfl | rfl | rfl := Token.Kind.isStop_cases hk <;> rfl
  · split
    · exact Echo.advance_bind (assign?_plain ‹_›) (h.assignment.bind fun value => echoes_return _)
    · exact echoes_pure fun _ _ h => h.rel

/-- Only here a comma goes on with an expression. -/
theorem echoes_expressionLayer (h : Follow R inner inner') :
    Echoes R.n R.n' R.Rel (fun _ => R.Rel) R.Lost (expressionLayer inner) (expressionLayer inner') := by
  have hstray : ∀ e : Expr, R.soft → ∀ x : Spot, x.kind.isBar = true →
      Strays R.n R.Lost (pure e : Parser Ribbon Expr) x := by
    intro e hsoft x hbar a s hs
    cases hs
    exact ⟨x, rfl, hbar, hsoft⟩
  refine (echoes_assignmentLayer h).bind fun first => ?_
  rw [at?_eq, at?_eq]
  refine Echo.comma_bind (Echoes.weaken ?_ fun _ _ h => h.rel) (echoes_return first) (hstray first)
  refine Echoes.bind_lost
    (show Echoes R.n R.n' R.Rel (fun _ => R.Rel) R.Lost _ _ from echoes_loop R.le (fun items => ?_) [first])
    (fun items => echoes_previous (echoes_return _)) fun items x hl => hstray _ hl.2 x hl.1
  rw [accept_eq, accept_eq]
  refine Echo.comma_bind (Echo.advance_bind rfl ?_) (echoes_done items) fun hsoft x hbar a s hs => ?_
  · exact h.assignment.bind fun e => echoes_again _
  · cases hs
    exact ⟨x, rfl, hbar, hsoft⟩

theorem follow_exprParsers (m : Nat) : ∀ {m' : Nat}, m ≤ m' → Follow R (exprParsers m) (exprParsers m') := by
  induction m with
  | zero => intro m' _; exact ⟨echoes_giveUp, echoes_giveUp, echoes_giveUp, fun _ => echoes_giveUp, echoes_giveUp⟩
  | succ m ih =>
      intro m' hm
      obtain ⟨m', rfl⟩ : ∃ j, m' = j + 1 := ⟨m' - 1, by omega⟩
      have hinner : Follow R (exprParsers m) (exprParsers m') := ih (by omega)
      exact ⟨echoes_expressionLayer hinner, echoes_assignmentLayer hinner, echoes_conditionalLayer hinner,
        echoes_binaryLayer hinner, echoes_unaryLayer hinner⟩

end ExprParsers

namespace Echo

open Jaf.Parser

variable {R : Echo}

/-- An expression may get lost before a bar where the other run has a comma. -/
theorem echoes_expression :
    Echoes R.n R.n' R.Rel (fun _ => R.Rel) R.Lost Parser.expression Parser.expression :=
  echoes_depth R.le fun m _ hm => (ExprParsers.follow_exprParsers m hm).expression

theorem echoes_assignment : R.Keeps Parser.assignment Parser.assignment :=
  echoes_depth R.le fun m _ hm => (ExprParsers.follow_exprParsers m hm).assignment

theorem echoes_conditional : R.Keeps Parser.conditional Parser.conditional :=
  echoes_depth R.le fun m _ hm => (ExprParsers.follow_exprParsers m hm).conditional

end Echo

end Jaf
