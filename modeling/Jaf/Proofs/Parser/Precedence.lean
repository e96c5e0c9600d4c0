import Jaf.Proofs.Parser.ConsumedTokens
import Jaf.Proofs.Parser.Termination
import Mathlib.Data.List.TakeWhile

/-!
# Precedence climbing

Operands joined by binary operators are read by a loop that calls itself for right operands, with a bound on
the precedence that changes at every operator. What comes out can be said without it: of the trees that have
these operands and operators from left to right there is just one in which every operator stands below those
that bind less tightly, and those of its own level to the right of it (`OpTree.layered_iff`). The loop makes
that tree, and leaves in front of the first operator that does not bind as tightly as asked.

The argument goes by the tree and not by the loop. If a layered tree stands here, then reading operands from
here is the same as going round the loop behind it, with the tree as what has been read so far.
-/

namespace Jaf

/-! ## Trees of operators -/

/-- Operands joined by operators. An operand is any expression, and may have operators of its own. -/
inductive OpTree where
  | leaf (operand : Expr)
  | node (op : BinaryOp) (left right : OpTree)

namespace OpTree

/-- The tree as an expression, each node at the place of all that stands below it. -/
def toExpr : OpTree → Expr
  | leaf e => e
  | node op l r => .binary (.ofSpan (l.toExpr.span.merge r.toExpr.span)) op l.toExpr r.toExpr

/-- The leftmost operand. -/
def first : OpTree → Expr
  | leaf e => e
  | node _ l _ => l.first

/-- The operators from left to right, each with the operand behind it. -/
def rest : OpTree → List (BinaryOp × Expr)
  | leaf _ => []
  | node op l r => l.rest ++ (op, r.first) :: r.rest

/-- The tree is a leaf, or its operator has at least this precedence. -/
def Binds (p : Nat) : OpTree → Prop
  | leaf _ => True
  | node op _ _ => p ≤ op.precedence

/-- Operators on the left bind at least as tightly as the one above them, and those on the right tighter. -/
def Layered : OpTree → Prop
  | leaf _ => True
  | node op l r => l.Layered ∧ r.Layered ∧ l.Binds op.precedence ∧ r.Binds (op.precedence + 1)

theorem Binds.mono {p q : Nat} {t : OpTree} (h : t.Binds q) (hpq : p ≤ q) : t.Binds p := by
  cases t with
  | leaf e => trivial
  | node op l r => exact Nat.le_trans hpq h

theorem Layered.le_precedence {t : OpTree} (h : t.Layered) {p : Nat} (hp : t.Binds p) :
    ∀ x ∈ t.rest, p ≤ x.1.precedence := by
  induction t generalizing p with
  | leaf e => exact fun x hx => absurd hx List.not_mem_nil
  | node op l r ihl ihr =>
      obtain ⟨hl, hr, hlop, hrop⟩ := h
      intro x hx
      rw [rest, List.mem_append, List.mem_cons] at hx
      rcases hx with hx | rfl | hx
      · exact ihl hl (hlop.mono hp) x hx
      · exact hp
      · exact ihr hr (hrop.mono (Nat.le_succ_of_le hp)) x hx

/-! ### The layered tree for a row of operands -/

/-- Adds an operator and its operand on the right, below the operators that bind less tightly. -/
def push (op : BinaryOp) (e : Expr) : OpTree → OpTree
  | leaf a => node op (leaf a) (leaf e)
  | node o l r => if o.precedence < op.precedence then node o l (push op e r) else node op (node o l r) (leaf e)

theorem first_push (op : BinaryOp) (e : Expr) (t : OpTree) : (t.push op e).first = t.first := by
  cases t with
  | leaf a => rfl
  | node o l r => rw [push]; split <;> rfl

theorem rest_push (op : BinaryOp) (e : Expr) (t : OpTree) : (t.push op e).rest = t.rest ++ [(op, e)] := by
  induction t with
  | leaf a => rfl
  | node o l r _ ih =>
      rw [push]
      split
      · rw [rest, ih, first_push, rest, List.append_assoc, List.cons_append]
      · rfl

theorem Binds.push {p : Nat} {t : OpTree} (h : t.Binds p) {op : BinaryOp} (hop : p ≤ op.precedence) (e : Expr) :
    (t.push op e).Binds p := by
  cases t with
  | leaf a => exact hop
  | node o l r =>
      rw [OpTree.push]
      split
      · exact h
      · exact hop

theorem push_of_binds {op : BinaryOp} {t : OpTree} (h : t.Binds op.precedence) (e : Expr) :
    t.push op e = node op t (leaf e) := by
  cases t with
  | leaf a => rfl
  | node o l r => exact if_neg (Nat.not_lt.mpr h)

theorem Layered.push {t : OpTree} (h : t.Layered) (op : BinaryOp) (e : Expr) : (t.push op e).Layered := by
  induction t with
  | leaf a => exact ⟨trivial, trivial, trivial, trivial⟩
  | node o l r _ ih =>
      rw [OpTree.push]
      split
      next hless =>
        obtain ⟨hl, hr, hlo, hro⟩ := h
        exact ⟨hl, ih hr, hlo, hro.push hless e⟩
      next hge => exact ⟨h, trivial, Nat.not_lt.mp hge, trivial⟩

/-- Adds operators with their operands one after the other. -/
def grow (t : OpTree) (xs : List (BinaryOp × Expr)) : OpTree := xs.foldl (fun t x => t.push x.1 x.2) t

theorem first_grow (t : OpTree) (xs : List (BinaryOp × Expr)) : (t.grow xs).first = t.first := by
  induction xs generalizing t with
  | nil => rfl
  | cons x xs ih => exact (ih _).trans (first_push _ _ t)

theorem rest_grow (t : OpTree) (xs : List (BinaryOp × Expr)) : (t.grow xs).rest = t.rest ++ xs := by
  induction xs generalizing t with
  | nil => exact (List.append_nil _).symm
  | cons x xs ih =>
      show ((t.push x.1 x.2).grow xs).rest = _
      rw [ih, rest_push, List.append_assoc, List.singleton_append]

theorem Layered.grow {t : OpTree} (h : t.Layered) (xs : List (BinaryOp × Expr)) : (t.grow xs).Layered := by
  induction xs generalizing t with
  | nil => exact h
  | cons x xs ih => exact ih (h.push x.1 x.2)

theorem Binds.grow {p : Nat} {t : OpTree} (h : t.Binds p) {xs : List (BinaryOp × Expr)}
    (hxs : ∀ x ∈ xs, p ≤ x.1.precedence) : (t.grow xs).Binds p := by
  induction xs generalizing t with
  | nil => exact h
  | cons x xs ih =>
      obtain ⟨hx, hxs⟩ := List.forall_mem_cons.mp hxs
      exact ih (h.push hx x.2) hxs

/-- Operators that bind tighter than the one at the top all go to the right of it. -/
theorem grow_node {op : BinaryOp} {l r : OpTree} {xs : List (BinaryOp × Expr)}
    (hxs : ∀ x ∈ xs, op.precedence < x.1.precedence) : (node op l r).grow xs = node op l (r.grow xs) := by
  induction xs generalizing r with
  | nil => rfl
  | cons x xs ih =>
      obtain ⟨hx, hxs⟩ := List.forall_mem_cons.mp hxs
      show ((node op l r).push x.1 x.2).grow xs = node op l ((r.push x.1 x.2).grow xs)
      rw [push, if_pos hx, ih hxs]

/-- A layered tree can be told from what it reads like. -/
theorem Layered.grow_rest {t : OpTree} (h : t.Layered) : (leaf t.first).grow t.rest = t := by
  induction t with
  | leaf e => rfl
  | node op l r ihl ihr =>
      obtain ⟨hl, hr, hlop, hrop⟩ := h
      calc (leaf l.first).grow (l.rest ++ (op, r.first) :: r.rest)
          = (((leaf l.first).grow l.rest).push op r.first).grow r.rest := List.foldl_append
        _ = (l.push op r.first).grow r.rest := by rw [ihl hl]
        _ = (node op l (leaf r.first)).grow r.rest := by rw [push_of_binds hlop]
        _ = node op l ((leaf r.first).grow r.rest) := grow_node (hr.le_precedence hrop)
        _ = node op l r := by rw [ihr hr]

/-- There is one layered tree for a row of operands. -/
theorem layered_iff {t : OpTree} {e : Expr} {xs : List (BinaryOp × Expr)} :
    t.Layered ∧ t.first = e ∧ t.rest = xs ↔ t = (leaf e).grow xs := by
  constructor
  · rintro ⟨h, rfl, rfl⟩
    exact h.grow_rest.symm
  · rintro rfl
    have hleaf : (leaf e).Layered := trivial
    exact ⟨hleaf.grow xs, first_grow _ _, rest_grow _ _⟩

end OpTree

/-! ## Rows of operands in a stream -/

section
variable {φ : Type} [Feed φ]

/-- Parses an operand with the operators and casts in front of it. -/
def Parser.unaryExpression : Parser φ Expr := fun s => (exprParsers (depth s)).unary s

/-- These tokens are current one after the other, and have been consumed in the second stream. -/
inductive Stream.Passes : Stream φ → List Token → Stream φ → Prop
  | nil (s : Stream φ) : Passes s [] s
  | cons {s s₁ s' : Stream φ} {ts : List Token} : Parser.advance s = .ok ((), s₁) → Passes s₁ ts s' →
      Passes s (s.current :: ts) s'

theorem Stream.Passes.append {s s₁ s' : Stream φ} {ts us : List Token} (h : s.Passes ts s₁)
    (h' : s₁.Passes us s') : s.Passes (ts ++ us) s' := by
  induction h with
  | nil => exact h'
  | cons hadvance _ ih => exact .cons hadvance (ih h')

/-- A group of tokens, and the expression it is read as. -/
structure Operand where
  tokens : List Token
  value : Expr

/-- The tokens stand between the two streams, and are a complete unary expression there. -/
structure Operand.At (u : Operand) (s s' : Stream φ) : Prop where
  passes : s.Passes u.tokens s'
  reads : Parser.unaryExpression s = .ok (u.value, s')

/-- The token of a binary operator, and the operand behind it. -/
structure Link where
  sign : Token
  op : BinaryOp
  operand : Operand
  stands : sign.kind.binary? = some op

namespace Link

def tokens (l : Link) : List Token := l.sign :: l.operand.tokens

def value (l : Link) : BinaryOp × Expr := (l.op, l.operand.value)

/-- The operator has at least this precedence. -/
def binds (least : Nat) (l : Link) : Bool := decide (least ≤ l.op.precedence)

end Link

/-- Between the two streams stand operators with their operands. -/
inductive Stream.Links : Stream φ → List Link → Stream φ → Prop
  | nil (s : Stream φ) : Links s [] s
  | cons {s s₁ s₂ s' : Stream φ} {l : Link} {ls : List Link} : s.current = l.sign →
      Parser.advance s = .ok ((), s₁) → l.operand.At s₁ s₂ → Links s₂ ls s' → Links s (l :: ls) s'

/-- Between the two streams stands an operand, and then operators with theirs. -/
inductive Stream.Row : Stream φ → Operand → List Link → Stream φ → Prop
  | mk {s s₁ s' : Stream φ} {u : Operand} {ls : List Link} : u.At s s₁ → s₁.Links ls s' → Row s u ls s'

namespace Stream

variable {s s' : Stream φ} {u : Operand} {l : Link} {ls ls' : List Link}

theorem Links.passes (h : s.Links ls s') : s.Passes (ls.flatMap Link.tokens) s' := by
  induction h with
  | nil s => exact .nil s
  | cons hsign hadvance hoperand _ ih =>
      rw [List.flatMap_cons, Link.tokens, ← hsign]
      exact (Passes.cons hadvance hoperand.passes).append ih

theorem Row.passes (h : s.Row u ls s') : s.Passes (u.tokens ++ ls.flatMap Link.tokens) s' := by
  cases h with
  | mk hu hls => exact hu.passes.append hls.passes

theorem Links.split (h : s.Links (ls ++ ls') s') : ∃ s₁, s.Links ls s₁ ∧ s₁.Links ls' s' := by
  induction ls generalizing s with
  | nil => exact ⟨s, .nil s, h⟩
  | cons l ls ih =>
      cases h with
      | cons hsign hadvance hoperand h =>
          obtain ⟨s₁, hls, hls'⟩ := ih h
          exact ⟨s₁, .cons hsign hadvance hoperand hls, hls'⟩

theorem Row.split (h : s.Row u (ls ++ ls') s') : ∃ s₁, s.Row u ls s₁ ∧ s₁.Links ls' s' := by
  cases h with
  | mk hu h =>
      obtain ⟨s₁, hls, hls'⟩ := h.split
      exact ⟨s₁, .mk hu hls, hls'⟩

end Stream

end

/-! ## Going by the tokens left -/

section
open Jaf.Parser Pacing ExprParsers

variable {α β : Type} {s s' : Stream Reader} {u : Operand} {l : Link} {ls : List Link} {n : Nat}

theorem Stream.consumes_advance (hs : s.feed.Ending) (hk : s.current.kind ≠ .eof)
    (h : advance s = .ok ((), s')) : s'.feed.Ending ∧ s'.remaining < s.remaining := by
  have hexpect : expect s.current.kind s = .ok ((), s') := by
    show (if s.current.kind = s.current.kind then advance else unexpected _) s = _
    rw [if_pos rfl, h]
  have hagree := takes_expect hk s s hs.alike trivial (Nat.lt_succ_self s.remaining)
  rw [hexpect] at hagree
  exact hagree.leaves

theorem Operand.At.consumes (h : u.At s s') (hs : s.feed.Ending) :
    s'.feed.Ending ∧ s'.remaining < s.remaining :=
  (Rule.unary.stops hs hs.remaining_lt_depth).consumes _ _ h.reads

theorem Operand.At.unaryLayer (h : u.At s s') (hs : s.feed.Ending) (hn : s.remaining ≤ n) :
    unaryLayer (exprParsers n) s = .ok (u.value, s') :=
  (Rule.unary.parser_eq hs (Nat.lt_succ_of_le hn) hs.remaining_lt_depth).trans h.reads

theorem Stream.Links.consumes (h : s.Links ls s') (hs : s.feed.Ending) :
    s'.feed.Ending ∧ s'.remaining ≤ s.remaining := by
  induction h with
  | nil s => exact ⟨hs, Nat.le_refl _⟩
  | @cons s s₁ s₂ s' l ls hsign hadvance hoperand _ ih =>
      have hk : s.current.kind ≠ .eof := by
        rw [hsign]
        exact Token.Kind.ne_eof_of_binary? l.stands
      obtain ⟨hs₁, hless₁⟩ := Stream.consumes_advance hs hk hadvance
      obtain ⟨hs₂, hless₂⟩ := hoperand.consumes hs₁
      obtain ⟨hs', hle⟩ := ih hs₂
      exact ⟨hs', by omega⟩

theorem Stream.Row.consumes (h : s.Row u ls s') (hs : s.feed.Ending) :
    s'.feed.Ending ∧ s'.remaining < s.remaining := by
  cases h with
  | mk hu hls =>
      obtain ⟨hs₁, hless⟩ := hu.consumes hs
      obtain ⟨hs', hle⟩ := hls.consumes hs₁
      exact ⟨hs', Nat.lt_of_le_of_lt hle hless⟩

theorem Parser.loop_done {turn : α → Parser Reader (Turn α β)} {a : α} {r : β}
    (h : turn a s = .ok (.done r, s')) : loop turn a s = .ok (r, s') :=
  bind_of_ok h

/-- A loop that goes round again is the same loop with the new state, though its bound was another one. -/
theorem Parser.loop_again {turn : α → Parser Reader (Turn α β)} {a a' : α} (hs : s.feed.Ending)
    (hturn : ∀ a, Reader.pacing.Paces (s.remaining + 1) Turn.goesOn (turn a) (turn a))
    (h : turn a s = .ok (.again a', s')) : loop turn a s = loop turn a' s' := by
  have hagree := hturn a s s hs.alike trivial (Nat.lt_succ_self _)
  rw [h] at hagree
  obtain ⟨hs', hless⟩ : s'.feed.Ending ∧ s'.remaining < s.remaining := hagree.leaves
  have hdepth := hs.remaining_lt_depth
  have hdepth' := hs'.remaining_lt_depth
  have hturn' : ∀ a, Reader.pacing.Paces (s'.remaining + 1) Turn.goesOn (turn a) (turn a) :=
    fun a => (hturn a).mono (by omega)
  calc loop turn a s
      = loopN turn (depth s - 1) a' s' := bind_of_ok h
    _ = loop turn a' s' :=
      (keeps_loopN hturn' (by omega) hdepth' a' s' s' hs'.alike trivial (Nat.lt_succ_self _)).eq

/-! ## Climbing -/

variable {inner : ExprParsers Reader} {least : Nat} {left : Expr}

theorem ExprParsers.climb_done (h : ∀ op, s.current.kind.binary? = some op → op.precedence < least) :
    climb inner least left s = .ok (.done left, s) := by
  rw [climb, bind_of_ok rfl]
  cases hop : s.current.kind.binary? with
  | none => rfl
  | some op =>
      show (if op.precedence < least then _ else _ : Parser Reader (Turn Expr Expr)) s = _
      rw [if_pos (h op hop)]
      rfl

theorem ExprParsers.climb_again {op : BinaryOp} {right : Expr} {s₁ : Stream Reader}
    (hop : s.current.kind.binary? = some op) (hle : least ≤ op.precedence) (hadvance : advance s = .ok ((), s₁))
    (hright : inner.binary (op.precedence + 1) s₁ = .ok (right, s')) :
    climb inner least left s = .ok (.again (.binary (.ofSpan (left.span.merge right.span)) op left right), s') := by
  rw [climb, bind_of_ok rfl, hop]
  show (if op.precedence < least then _ else _ : Parser Reader (Turn Expr Expr)) s = _
  rw [if_neg (Nat.not_lt.mpr hle), bind_of_ok hadvance, bind_of_ok hright]
  rfl

/--
If the tree stands here, reading operands is the same as going round the loop with the tree as what has been
read, from where it ends. What comes next there must not be an operator that the tree would have to contain.
-/
theorem OpTree.Layered.climbs {t : OpTree} (ht : t.Layered) (hleast : t.Binds least) (hs : s.feed.Ending)
    (hn : s.remaining ≤ n) (hrow : s.Row u ls s') (hfirst : t.first = u.value)
    (hrest : ls.map Link.value = t.rest)
    (hnext : ∀ op, s'.current.kind.binary? = some op → t.Binds op.precedence) :
    binaryLayer (exprParsers n) least s = loop (climb (exprParsers n) least) t.toExpr s' := by
  induction t generalizing least s s' u ls n with
  | leaf e =>
      obtain rfl := List.map_eq_nil_iff.mp hrest
      cases hrow with
      | mk hu hls =>
          cases hls
          obtain rfl : e = u.value := hfirst
          rw [binaryLayer_eq, bind_of_ok (hu.unaryLayer hs hn)]
          rfl
  | node op l r ihl ihr =>
      obtain ⟨hl, hr, hlop, hrop⟩ := ht
      obtain ⟨ls₁, ls₂', rfl, hls₁, hls₂⟩ := List.map_eq_append_iff.mp hrest
      obtain ⟨k, ls₂, rfl, hk, hls₂⟩ := List.map_eq_cons_iff.mp hls₂
      obtain ⟨s₁, hrow₁, hlinks⟩ := hrow.split
      obtain ⟨hs₁, hless₁⟩ := hrow₁.consumes hs
      cases hlinks with
      | @cons _ s₂ s₃ _ _ _ hsign hadvance hoperand hlinks =>
          have hop : s₁.current.kind.binary? = some op := by
            rw [hsign, k.stands]
            exact congrArg (some ·.1) hk
          obtain ⟨hs₂, hless₂⟩ := Stream.consumes_advance hs₁ (Token.Kind.ne_eof_of_binary? hop) hadvance
          obtain ⟨n, rfl⟩ := Nat.exists_eq_add_one_of_ne_zero (show n ≠ 0 by omega)
          -- what follows the tree leaves the loop over the right operand
          have hright : (exprParsers (n + 1)).binary (op.precedence + 1) s₂ = .ok (r.toExpr, s') := by
            refine (ihr hr hrop hs₂ (by omega) (.mk hoperand hlinks) ?_ hls₂ ?_).trans ?_
            · exact (congrArg Prod.snd hk).symm
            · exact fun op' hop' => hrop.mono (Nat.le_succ_of_le (hnext op' hop'))
            · exact loop_done (climb_done fun op' hop' => Nat.lt_succ_of_le (hnext op' hop'))
          have hturn : ∀ left, Reader.pacing.Paces (s₁.remaining + 1) Turn.goesOn
              (climb (exprParsers (n + 1)) least left) (climb (exprParsers (n + 1)) least left) :=
            paces_climb (pace_exprParsers (by omega) (by omega)) least
          calc binaryLayer (exprParsers (n + 1)) least s
              = loop (climb (exprParsers (n + 1)) least) l.toExpr s₁ := by
                refine ihl hl (hlop.mono hleast) hs hn hrow₁ hfirst hls₁ fun op' hop' => ?_
                rw [hop] at hop'
                cases hop'
                exact hlop
            _ = loop (climb (exprParsers (n + 1)) least) (node op l r).toExpr s' :=
              loop_again hs₁ hturn (climb_again hop hleast hadvance hright)

/-- In front of the first operator that does not bind tightly enough there is none that does. -/
theorem Stream.Links.precedence_lt (h : s.Links (ls.dropWhile (Link.binds least)) s')
    (hstop : s'.current.kind.binary? = none) {op : BinaryOp} (hop : s.current.kind.binary? = some op) :
    op.precedence < least := by
  cases hdrop : ls.dropWhile (Link.binds least) with
  | nil =>
      rw [hdrop] at h
      cases h
      rw [hstop] at hop
      cases hop
  | cons l ls' =>
      have hloose := List.head?_dropWhile_not (Link.binds least) ls
      rw [hdrop] at h hloose
      cases h with
      | cons hsign _ _ _ =>
          rw [hsign, l.stands] at hop
          cases hop
          exact Nat.not_le.mp (of_decide_eq_false hloose)

/-- What climbing makes of a row of operands, and where it leaves. -/
theorem Stream.Row.climbs (hrow : s.Row u ls s') (hs : s.feed.Ending) (hn : s.remaining < n)
    (hstop : s'.current.kind.binary? = none) (least : Nat) :
    ∃ s₁, s.Row u (ls.takeWhile (Link.binds least)) s₁ ∧ s₁.Links (ls.dropWhile (Link.binds least)) s' ∧
      (exprParsers n).binary least s =
        .ok (((OpTree.leaf u.value).grow ((ls.takeWhile (Link.binds least)).map Link.value)).toExpr, s₁) := by
  rw [← List.takeWhile_append_dropWhile (p := Link.binds least) (l := ls)] at hrow
  obtain ⟨s₁, hrow₁, hlinks⟩ := hrow.split
  refine ⟨s₁, hrow₁, hlinks, ?_⟩
  obtain ⟨n, rfl⟩ := Nat.exists_eq_add_one_of_ne_zero (Nat.ne_zero_of_lt hn)
  have hleaf : (OpTree.leaf u.value).Layered ∧ (OpTree.leaf u.value).Binds least := ⟨trivial, trivial⟩
  generalize hxs : (ls.takeWhile (Link.binds least)).map Link.value = xs
  have hbinds : ((OpTree.leaf u.value).grow xs).Binds least := by
    refine hleaf.2.grow fun x hx => ?_
    rw [← hxs] at hx
    obtain ⟨l, hl, rfl⟩ := List.mem_map.mp hx
    have hl := List.mem_takeWhile_imp hl
    exact of_decide_eq_true hl
  have hless : ∀ op, s₁.current.kind.binary? = some op → op.precedence < least :=
    fun op hop => hlinks.precedence_lt hstop hop
  calc (exprParsers (n + 1)).binary least s
      = loop (climb (exprParsers n) least) ((OpTree.leaf u.value).grow xs).toExpr s₁ :=
        (hleaf.1.grow xs).climbs hbinds hs (Nat.le_of_lt_succ hn) hrow₁ (OpTree.first_grow _ _)
          (hxs.trans (OpTree.rest_grow (.leaf u.value) xs).symm)
          fun op hop => hbinds.mono (Nat.le_of_lt (hless op hop))
    _ = .ok (((OpTree.leaf u.value).grow xs).toExpr, s₁) := loop_done (climb_done hless)

theorem BinaryOp.exists_precedence_iff (p : Nat) : (∃ op : BinaryOp, op.precedence = p) ↔ 1 ≤ p ∧ p ≤ 10 := by
  constructor
  · rintro ⟨op, rfl⟩
    cases op <;> decide
  · rintro ⟨hpos, hle⟩
    have hlevels : ∀ p : Fin 11, 1 ≤ p.val →
        ∃ op ∈ [logOr, logAnd, bitOr, bitXor, bitAnd, eq, lt, shl, add, mul], op.precedence = p.val := by decide
    obtain ⟨op, _, hop⟩ := hlevels ⟨p, Nat.lt_succ_of_le hle⟩ hpos
    exact ⟨op, hop⟩

theorem Link.binds_one (l : Link) : l.binds 1 = true :=
  decide_eq_true ((BinaryOp.exists_precedence_iff _).mp ⟨l.op, rfl⟩).1

/--
**Climbing precedences gives the layered tree.** Let a row of operands stand here, with no operator behind it.
Climbing from the loosest of the ten levels consumes the whole row and gives the one layered tree that reads
like it. Climbing from any other level does that for the operands in front of the first operator of a looser
level, and leaves there.
-/
theorem ExprParsers.climbing_layers (hs : s.feed.Ending) (hn : s.remaining < n) (hrow : s.Row u ls s')
    (hstop : s'.current.kind.binary? = none) :
    (∀ p, (∃ op : BinaryOp, op.precedence = p) ↔ 1 ≤ p ∧ p ≤ 10) ∧
    (∃ t : OpTree, (exprParsers n).binary 1 s = .ok (t.toExpr, s') ∧
      s.Passes (u.tokens ++ ls.flatMap Link.tokens) s' ∧
      ∀ t' : OpTree, t'.Layered ∧ t'.first = u.value ∧ t'.rest = ls.map Link.value ↔ t' = t) ∧
    ∀ least, ∃ (t : OpTree) (s₁ : Stream Reader), (exprParsers n).binary least s = .ok (t.toExpr, s₁) ∧
      s.Row u (ls.takeWhile (Link.binds least)) s₁ ∧ s₁.Links (ls.dropWhile (Link.binds least)) s' ∧
      ∀ t' : OpTree, t'.Layered ∧ t'.first = u.value ∧
        t'.rest = (ls.takeWhile (Link.binds least)).map Link.value ↔ t' = t := by
  have hclimbs := hrow.climbs hs hn hstop
  refine ⟨BinaryOp.exists_precedence_iff, ?_, fun least => ?_⟩
  · obtain ⟨s₁, _, hlinks, hok⟩ := hclimbs 1
    rw [List.takeWhile_eq_self_iff.mpr fun l _ => l.binds_one] at hok
    rw [List.dropWhile_eq_nil_iff.mpr fun l _ => l.binds_one] at hlinks
    cases hlinks
    exact ⟨_, hok, hrow.passes, fun t' => OpTree.layered_iff⟩
  · obtain ⟨s₁, hrow₁, hlinks, hok⟩ := hclimbs least
    exact ⟨_, s₁, hok, hrow₁, hlinks, fun t' => OpTree.layered_iff⟩

end

namespace Mixed

/-- The tokens of `a - b * c - d`. -/
def tokens : List Token :=
  [⟨.name "a", ⟨0, 1⟩⟩, ⟨.symbol .minus, ⟨1, 2⟩⟩, ⟨.name "b", ⟨2, 3⟩⟩, ⟨.symbol .star, ⟨3, 4⟩⟩,
    ⟨.name "c", ⟨4, 5⟩⟩, ⟨.symbol .minus, ⟨5, 6⟩⟩, ⟨.name "d", ⟨6, 7⟩⟩]

/-- The stream of these tokens, when the given number has been consumed. -/
def stream (k : Nat) : Stream Reader :=
  ⟨tokens.getD k ⟨.eof, .point 7⟩, ⟨(tokens.drop (k + 1)).map .ok, none, ⟨.eof, .point 7⟩⟩,
    if k = 0 then .point 0 else ⟨k - 1, k⟩, []⟩

def operand (k : Nat) (text : String) : Operand :=
  ⟨[(stream k).current], .ident (.ofSpan ⟨k, k + 1⟩) text none⟩

def links : List Link :=
  [⟨(stream 1).current, .sub, operand 2 "b", rfl⟩, ⟨(stream 3).current, .mul, operand 4 "c", rfl⟩,
    ⟨(stream 5).current, .sub, operand 6 "d", rfl⟩]

def tree : OpTree :=
  .node .sub (.node .sub (.leaf (operand 0 "a").value) (.node .mul (.leaf (operand 2 "b").value)
    (.leaf (operand 4 "c").value))) (.leaf (operand 6 "d").value)

end Mixed

theorem ExprParsers.climbing_layers_mixed :
    (Mixed.stream 0).feed.Ending ∧ (Mixed.stream 0).remaining < 8 ∧
      (Mixed.stream 0).Row (Mixed.operand 0 "a") Mixed.links (Mixed.stream 7) ∧
      (Mixed.stream 7).current.kind.binary? = none ∧
      (exprParsers 8).binary 1 (Mixed.stream 0) = .ok (Mixed.tree.toExpr, Mixed.stream 7) := by
  have hending : (Mixed.stream 0).feed.Ending := by
    refine ⟨rfl, fun t ht => ?_, fun t ht => by cases ht⟩
    simp only [Mixed.stream, Mixed.tokens, List.drop_succ_cons, List.drop_zero, List.map_cons, List.map_nil,
      List.mem_cons, Except.ok.injEq, List.not_mem_nil, or_false] at ht
    rcases ht with rfl | rfl | rfl | rfl | rfl | rfl <;> simp
  have hremaining : (Mixed.stream 0).remaining < 8 := by decide
  have hrow : (Mixed.stream 0).Row (Mixed.operand 0 "a") Mixed.links (Mixed.stream 7) :=
    .mk ⟨.cons rfl (.nil _), rfl⟩ (.cons rfl rfl ⟨.cons rfl (.nil _), rfl⟩ (.cons rfl rfl ⟨.cons rfl (.nil _), rfl⟩
      (.cons rfl rfl ⟨.cons rfl (.nil _), rfl⟩ (.nil _))))
  obtain ⟨_, ⟨t, ht, _, hunique⟩, _⟩ := climbing_layers hending hremaining hrow rfl
  have hlayered : Mixed.tree.Layered := by
    simp [Mixed.tree, OpTree.Layered, OpTree.Binds, BinaryOp.precedence]
  obtain rfl : Mixed.tree = t := (hunique Mixed.tree).mp ⟨hlayered, rfl, rfl⟩
  exact ⟨hending, hremaining, hrow, rfl, ht⟩

end Jaf
