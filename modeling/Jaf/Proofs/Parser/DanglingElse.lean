import Jaf.Proofs.Parser.ExprPlaces

/-!
# Which `if` an `else` belongs to

A statement is open if an `if` without an `else` stands at its end, where another `else` could be added to
it. The end of a statement is that of its last part: the body of a loop, what a label stands before, the last
branch of an `if`. Braces close what is in them, and a `do` is closed by its condition.

An `else` belongs to the nearest open `if`. In the tree that means that the first branch of an `if` with an
`else` is never open, for otherwise the `else` would have been taken by the open `if` in that branch. The
parser sees to it by taking an `else` as soon as there is one. So what has to be carried through the grammar
is about the token behind a statement: behind an open statement there is no `else`.
-/

namespace Jaf

/-! ## Open statements -/

/-- Whether a statement ends in an `if` without an `else`. -/
def Stmt.isOpen : Stmt → Bool
  | .ifThen _ _ _ => true
  | .ifElse _ _ _ no => no.isOpen
  | .whileLoop _ _ body | .forLoop _ _ _ _ body => body.isOpen
  | .caseLabel _ _ x | .defaultLabel _ x | .label _ _ x => x.isOpen
  | .expr _ _ | .empty _ | .compound _ _ | .doLoop _ _ _ | .switch _ _ _ | .goto _ _ | .breakOut _
  | .continueOn _ | .returnFrom _ _ => false

/-- The `else` of a statement, if it has one, belongs to no `if` in the first branch. -/
def Stmt.Matched : Stmt → Prop
  | .ifElse _ _ yes _ => yes.isOpen = false
  | _ => True

/-- All children of an expression are expressions. -/
theorem Expr.exists_children (e : Expr) : ∃ es : List Expr, e.children = es.map .expr := by
  cases e with
  | int | float | string | ident => exact ⟨[], rfl⟩
  | unary _ _ e | cast _ _ e | member _ e _ _ => exact ⟨[e], rfl⟩
  | binary _ _ l r | assign _ _ l r => exact ⟨[l, r], rfl⟩
  | ternary _ c y o => exact ⟨[c, y, o], rfl⟩
  | call _ _ es _ | comma _ es => exact ⟨es, rfl⟩

namespace Node

/-- Nodes that statements can stand in. -/
def isCode : Node → Bool
  | block _ | func _ _ | stmt _ => true
  | var _ | type _ | expr _ => false

/-- Every `else` in the node is where it belongs. -/
def Matched (n : Node) : Prop := ∀ x, n.Has (.stmt x) → x.Matched

/-- A node is matched if its children are, and if it is a matched statement itself, should it be one. -/
theorem Matched.of_children {n : Node} (hself : ∀ x, n = .stmt x → x.Matched)
    (hchildren : ∀ c ∈ n.children, c.Matched) : n.Matched := by
  intro x hx
  cases hx with
  | self => exact hself x rfl
  | inside hc hx => exact hchildren _ hc x hx

theorem isCode_of_mem_children {n c : Node} (hn : n.isCode = false) (hc : c ∈ n.children) :
    c.isCode = false := by
  cases n with
  | block b => cases hn
  | func h body => cases hn
  | stmt x => cases hn
  | var d =>
      rcases List.mem_cons.mp hc with rfl | hc
      · rfl
      · obtain ⟨e, _, rfl⟩ := List.mem_map.mp hc
        rfl
  | type t =>
      obtain ⟨d, _, rfl⟩ := List.mem_map.mp hc
      rfl
  | expr e =>
      obtain ⟨es, hes⟩ := e.exists_children
      obtain ⟨e', _, rfl⟩ := List.mem_map.mp (hes ▸ hc : c ∈ es.map expr)
      rfl

/-- There is no statement below a declaration, a type or an expression. -/
theorem matched_of_isCode {n : Node} (hn : n.isCode = false) : n.Matched := by
  intro x hx
  generalize hm : Node.stmt x = m at hx
  induction hx with
  | self => subst hm; cases hn
  | inside hc _ ih => exact ih (isCode_of_mem_children hn hc) hm

theorem matched_expr (e : Expr) : (Node.expr e).Matched := matched_of_isCode rfl

theorem matched_stmt {x : Stmt} (hx : x.Matched) (h : ∀ c ∈ x.children, c.Matched) :
    (Node.stmt x).Matched := by
  refine .of_children ?_ h
  rintro _ ⟨⟩
  exact hx

theorem matched_block {is : List Item} {p : Span} (h : ∀ i ∈ is, (ofItem i).Matched) :
    (Node.block ⟨is, p⟩).Matched := by
  refine .of_children (fun _ hx => by cases hx) fun c hc => ?_
  obtain ⟨i, hi, rfl⟩ := List.mem_map.mp hc
  exact h i hi

theorem matched_func {h : FuncHead} {body : Block} (hbody : (Node.block body).Matched) :
    (Node.func h body).Matched := by
  refine .of_children (fun _ hx => by cases hx) fun c hc => ?_
  simp only [children, List.mem_cons, List.mem_append, List.mem_map, List.not_mem_nil, or_false] at hc
  rcases hc with rfl | ⟨d, _, rfl⟩ | rfl
  · exact matched_of_isCode rfl
  · exact matched_of_isCode rfl
  · exact hbody

theorem parseClosed_matched : ParseClosed Matched where
  var _ _ := matched_of_isCode rfl
  func _ _ := matched_func
  block := matched_block
  expr _ e := matched_stmt trivial (List.forall_mem_singleton.mpr (matched_expr e))

end Node

/-! ## What the parser takes -/

/-- The statement is matched, and if it is open, then no `else` comes behind it. -/
structure Stmt.Parsed (x : Stmt) (s : Stream Reader) : Prop where
  matched : (Node.stmt x).Matched
  behind : x.isOpen = true → s.current.kind ≠ .keyword .kwElse

namespace Parser

variable {α β : Type} {s : Stream Reader} {Q : β → Stream Reader → Prop}

/-- A sequence in which nothing needs to be known of what the first parser gives and leaves. -/
theorem After.skip {p : Parser Reader α} {f : α → Parser Reader β} (hf : ∀ a t, (f a).After t Q) :
    After (p >>= f) s Q :=
  After.bind (P := fun _ _ => True) (fun _ _ _ => trivial) fun a t _ => hf a t

theorem Gives.after {p : Parser Reader α} {P : α → Prop} (h : p.Gives P) : p.After s fun a _ => P a :=
  h s

/-- A token that is taken if it stands here: one that is not taken does not stand here. -/
theorem After.taken {k : Token.Kind} {f : Bool → Parser Reader β}
    (htrue : s.current.kind = k → ∀ t, (f true).After t Q)
    (hfalse : s.current.kind ≠ k → (f false).After s Q) : After (Parser.accept k >>= f) s Q := by
  have haccept : (Parser.accept k : Parser Reader Bool).After s fun b t =>
      b = true ∧ s.current.kind = k ∨ b = false ∧ s.current.kind ≠ k ∧ t = s := by
    refine .kind (.ite (fun hk => ?_) fun hk => .pure (.inr ⟨rfl, hk, rfl⟩))
    exact .skip fun _ _ => .pure (.inl ⟨rfl, hk⟩)
  refine haccept.bind fun b t h => ?_
  rcases h with ⟨rfl, hk⟩ | ⟨rfl, hk, rfl⟩
  · exact htrue hk t
  · exact hfalse hk

end Parser

/--
What is left of a statement gives each `else` to the nearest `if`, where `ended` says whether an open statement
may just have ended.
-/
def StmtTail.Pairs {ns : List Node} : StmtTail ns → (ended : Prop) → Prop
  | done make _ _, ended => ∀ p, (make p).Matched ∧ ((make p).isOpen = true → ended)
  | expect _ next _, _ => next.Pairs False
  | name next, _ => ∀ text, (next text).Pairs False
  | expr _ next, _ => ∀ e, (next e).Pairs False
  | option _ next, _ => ∀ e, (next e).Pairs False
  | block next, _ | init next, _ => ∀ b, (next b).Pairs False
  | stmt next, _ => ∀ x, (next x).Pairs (x.isOpen = true)
  | ifNext k yes no _, ended => k = .keyword .kwElse ∧ (¬ended → yes.Pairs False) ∧ no.Pairs True

theorem StmtTail.pairs_compound : compound.Pairs False := by simp [compound, Pairs, Stmt.Matched, Stmt.isOpen]

theorem StmtTail.pairs_expression : expression.Pairs False := by
  simp [expression, Pairs, Stmt.Matched, Stmt.isOpen]

theorem StmtTail.pairs_label (text : String) : (label text).Pairs False := by
  simp [label, Pairs, Stmt.Matched, Stmt.isOpen]

/-- An `else` comes behind a first branch that is not open; without one, the `if` itself is. -/
theorem StmtTail.pairs_ifTail : ifTail.Pairs False := by
  refine fun e x => ⟨rfl, fun hclosed y p => ⟨?_, ?_⟩, fun p => ⟨trivial, fun _ => trivial⟩⟩
  · exact Bool.eq_false_iff.mpr hclosed
  · rw [Stmt.isOpen]
    exact id

theorem StmtStart.pairs_word {k : Token.Kind} {t : StmtTail []} (h : StmtStart.of k = .word t) :
    t.Pairs False := by
  unfold StmtStart.of at h
  split at h <;> cases h
  all_goals simp [StmtTail.pairs_ifTail, StmtTail.forTail, StmtTail.Pairs, Stmt.Matched, Stmt.isOpen]

namespace BlockParsers

open Jaf.Parser

/-- The parsers that statements come back to give each `else` to the nearest open `if`. -/
structure Match (inner : BlockParsers Reader) : Prop where
  item : inner.item.Gives fun is => ∀ i ∈ is, (Node.ofItem i).Matched
  stmt : ∀ s, inner.stmt.After s Stmt.Parsed

variable {inner : BlockParsers Reader} {s : Stream Reader}

theorem parsed_tail (h : inner.Match) {finish : Parser Reader Span}
    (hfinish : ∀ t, finish.After t fun _ u => u = t) {ns : List Node} (t : StmtTail ns) {ended : Prop}
    (ht : t.Pairs ended) (hns : ∀ n ∈ ns, n.Matched)
    (hbehind : ended → s.current.kind ≠ .keyword .kwElse) : (t.parser inner finish).After s Stmt.Parsed := by
  induction t generalizing s ended with
  | done make _ children =>
      -- the place of a statement is looked up when all of its tokens are consumed
      refine (hfinish s).bind fun p _ hu => hu ▸ .pure ⟨?_, fun hopen => hbehind ((ht p).2 hopen)⟩
      exact Node.matched_stmt (ht p).1 (children p ▸ hns)
  | expect k next _ ih => exact .skip fun _ t => ih ht hns False.elim
  | name next ih => exact .skip fun text t => ih text (ht text) hns False.elim
  | expr rule next ih =>
      exact .skip fun e t => ih e (ht e) (Node.forall_mem_concat hns (Node.matched_expr e)) False.elim
  | option stop next ih =>
      refine .skip fun e t => .skip fun _ u => ih e (ht e) ?_ False.elim
      exact Node.forall_mem_option hns fun x _ => Node.matched_expr x
  | block next ih =>
      exact (gives_block Node.parseClosed_matched h.item).after.bind fun b _ hb => ih b (ht b) (Node.forall_mem_concat hns hb) False.elim
  | init next ih =>
      exact (gives_forInit Node.parseClosed_matched h.item).after.bind fun b _ hb => ih b (ht b) (Node.forall_mem_concat hns hb) False.elim
  | stmt next ih =>
      exact (h.stmt s).bind fun x _ hx => ih x (ht x) (Node.forall_mem_concat hns hx.matched) hx.behind
  | ifNext k yes no _ ihyes ihno =>
      obtain ⟨rfl, hyes, hno⟩ := ht
      -- where an `else` is taken, what is before it is not open; where none is, there is none behind it
      refine .taken (fun helse t => ?_) fun helse => ihno hno hns fun _ => helse
      exact ihyes (hyes fun hended => hbehind hended helse) hns False.elim

theorem parsed_stmtLayer (h : inner.Match) (s : Stream Reader) : inner.stmtLayer.After s Stmt.Parsed := by
  rw [stmtLayer_eq]
  refine .span ?_
  extract_lets finish
  have hfinish : ∀ t, finish.After t fun _ u => u = t := fun t => .previous (.pure rfl)
  have htail : ∀ {t : StmtTail []}, t.Pairs False → ∀ s, (t.parser inner finish).After s Stmt.Parsed :=
    fun ht s => parsed_tail h hfinish _ ht (fun _ hn => absurd hn List.not_mem_nil) False.elim
  refine .kind ?_
  cases hk : StmtStart.of s.current.kind with
  | word t => exact .skip fun _ => htail (StmtStart.pairs_word hk)
  | block => exact htail StmtTail.pairs_compound s
  | expr => exact htail StmtTail.pairs_expression s
  | name text =>
      refine .skip fun next t => .ite (fun _ => ?_) fun _ => htail StmtTail.pairs_expression t
      exact .skip fun _ _ => .skip fun _ => htail (StmtTail.pairs_label text)

end BlockParsers

theorem match_blockParsers : ∀ n : Nat, (blockParsers n : BlockParsers Reader).Match := by
  intro n
  induction n with
  | zero => exact ⟨Parser.gives_giveUp, fun _ => Parser.after_giveUp⟩
  | succ n ih =>
      have hstmt := BlockParsers.parsed_stmtLayer ih
      refine ⟨fun s => BlockParsers.gives_itemLayer Node.parseClosed_matched ih.item ?_ s, fun s => hstmt s⟩
      exact fun s x s' hx => (hstmt s x s' hx).matched

/-! ## The main theorem -/

/--
**An `else` belongs to the nearest open `if`.** Wherever in the tree of a script an `if` has an `else`, its
first branch does not end in an `if` without one.
-/
theorem Block.else_nearest {source : String} {b : Block} (h : Block.parse source = .ok b) {p : Span}
    {test : Expr} {yes no : Stmt} (hx : (Node.block b).Has (.stmt (.ifElse p test yes no))) :
    yes.isOpen = false :=
  (Parser.Gives.run (Parser.gives_script Node.parseClosed_matched fun n => (match_blockParsers n).item) h).1 _ hx

namespace Node

/-- The node that is reached by going to the children with the given positions. -/
def descend : List Nat → Node → Option Node
  | [], n => some n
  | i :: is, n => n.children[i]?.bind (descend is)

theorem has_of_descend {is : List Nat} {n x : Node} (h : n.descend is = some x) : n.Has x := by
  induction is generalizing n with
  | nil => cases h; exact .self
  | cons i is ih =>
      obtain ⟨c, hc, hx⟩ := Option.bind_eq_some_iff.mp h
      exact .inside (List.mem_of_getElem? hc) (ih hx)

/-- Whether a node is an `if` with an `else`. -/
def isIfElse : Node → Bool
  | stmt (.ifElse _ _ _ _) => true
  | _ => false

end Node

/-- A program in which the first `else` belongs to the `if` inside of a loop, and the second to the one around. -/
def twofold : String := "void f()\x7bif(1)while(2)if(3);else;else;\x7d"

set_option maxRecDepth 100000 in
theorem Block.else_nearest_twofold :
    ∃ b p test yes no, Block.parse twofold = .ok b ∧
      (Node.block b).Has (.stmt (.ifElse p test yes no)) ∧ yes.isOpen = false := by
  obtain ⟨b, hparse, hrun⟩ := Block.exists_of_chars twofold (fun b =>
      ((Node.block b).descend [0, 1, 0]).any Node.isIfElse) rfl (by decide +kernel)
  obtain ⟨x, hx, hif⟩ := (Option.any_eq_true _ ((Node.block b).descend [0, 1, 0])).mp hrun
  have hhas := Node.has_of_descend hx
  cases x with
  | stmt x =>
      cases x with
      | ifElse p test yes no => exact ⟨b, p, test, yes, no, hparse, hhas, Block.else_nearest hparse hhas⟩
      | _ => cases hif
  | _ => cases hif

end Jaf
