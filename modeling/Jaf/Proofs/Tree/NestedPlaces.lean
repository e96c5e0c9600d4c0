import Jaf.Proofs.Analysis.FoldShapes
import Jaf.Proofs.Tree.Clauses
import Jaf.Proofs.Tree.ExprNodes

/-!
# Places inside of places

A syntax tree has nodes of six sorts. Each has a place and a list of children, in the order in which they
stand in the script (`Node.children`). A tree is nested if at every node the place is no shorter than
nothing, covers the places of the children, and the children follow one another without overlapping. The
one exception are the declarators of one declaration, which all begin where their type does
(`VarDecl.Siblings`).

Proofs about nesting go by rows: nodes that are nested, follow one another and lie between two offsets
(`Node.Row`). A node is nested if its children are a row between its ends, and rows can be put one behind
the other. `Node.Narrows` says when a node may be replaced without disturbing what is around it.
-/

namespace Jaf

theorem Span.merge_eq {a b : Span} (hstart : a.start ≤ b.start) (hstop : a.stop ≤ b.stop) :
    a.merge b = ⟨a.start, b.stop⟩ := by
  rw [Span.merge, Nat.min_eq_left hstart, Nat.max_eq_right hstop]

/-! ## Nodes and their children -/

/-- A node of a syntax tree. -/
inductive Node where
  | block (block : Block)
  | var (decl : VarDecl)
  | func (head : FuncHead) (body : Block)
  | type (type : TypeSpec)
  | stmt (stmt : Stmt)
  | expr (expr : Expr)

namespace Node

/-- The node of an item. -/
def ofItem : Item → Node
  | .var d => var d
  | .func h body => func h body
  | .stmt x => stmt x

/-- The node of an expression that need not be there. -/
def ofOption (e : Option Expr) : List Node := e.toList.map expr

/-- The place of a node. -/
def span : Node → Span
  | block b => b.span
  | var d => d.span
  | func h _ => h.span
  | type t => t.span
  | stmt x => x.span
  | expr e => e.span

end Node

/-- The children of an expression. -/
def Expr.children : Expr → List Node
  | int _ _ | float _ _ | string _ _ | ident _ _ _ => []
  | unary _ _ e | cast _ _ e | member _ e _ _ => [.expr e]
  | binary _ _ l r | assign _ _ l r => [.expr l, .expr r]
  | ternary _ c y o => [.expr c, .expr y, .expr o]
  | call _ _ es _ | comma _ es => es.map .expr

/-- The children of a statement. -/
def Stmt.children : Stmt → List Node
  | empty _ | goto _ _ | breakOut _ | continueOn _ => []
  | expr _ e => [.expr e]
  | compound _ b => [.block b]
  | ifThen _ e x | whileLoop _ e x | caseLabel _ e x => [.expr e, .stmt x]
  | ifElse _ e y n => [.expr e, .stmt y, .stmt n]
  | doLoop _ x e => [.stmt x, .expr e]
  | forLoop _ i e u x => .block i :: (Node.ofOption e ++ (Node.ofOption u ++ [.stmt x]))
  | switch _ e b => [.expr e, .block b]
  | defaultLabel _ x | label _ _ x => [.stmt x]
  | returnFrom _ e => Node.ofOption e

/-- The nodes of a clause. -/
def Clause.nodes : Clause → List Node
  | value e | result _ e => Node.ofOption e
  | scope b | opening b => [.block b]
  | inner x => [.stmt x]

/-- The children of a statement are the nodes of its clauses, though not always in their order. -/
theorem Stmt.mem_children {x : Stmt} {n : Node} : n ∈ x.children ↔ ∃ c ∈ x.clauses, n ∈ c.nodes := by
  cases x with
  | doLoop p x e => simp [children, clauses, Clause.nodes, Node.ofOption, or_comm]
  | _ => simp [children, clauses, Clause.nodes, Node.ofOption]

theorem Stmt.span_result {x : Stmt} {p : Span} {e : Option Expr} (h : .result p e ∈ x.clauses) : x.span = p := by
  cases x <;> simp_all [clauses, span]

namespace Node

/-- The children of a node, in the order of the script. -/
def children : Node → List Node
  | block b => b.items.map ofItem
  | var d => type d.type :: ofOption d.init
  | func h body => type h.result :: (h.params.map var ++ [block body])
  | type t => (t.members.getD []).map var
  | stmt x => x.children
  | expr e => e.children

/-- A node and all nodes below it. -/
inductive Has : Node → Node → Prop
  | self {n : Node} : Has n n
  | inside {n c x : Node} : c ∈ n.children → Has c x → Has n x

end Node

/-! ## Order and nesting -/

/--
Two declarators of one declaration. They begin together, have their type at the same place, and the second
goes on behind the end of the first.
-/
structure VarDecl.Siblings (d e : VarDecl) : Prop where
  start : d.span.start = e.span.start
  type : d.type.span = e.type.span
  stop : d.span.stop < e.span.stop
  init : ∀ x, e.init = some x → d.span.stop ≤ x.span.start

namespace Node

/-- A node ends before another begins, or both are declarators of one declaration. -/
inductive Precedes : Node → Node → Prop
  | apart {a b : Node} : a.span.stop ≤ b.span.start → Precedes a b
  | siblings {d e : VarDecl} : d.Siblings e → Precedes (var d) (var e)

/-- At this node and at all nodes below it, the place covers the children, and these are in order. -/
inductive Nested : Node → Prop
  | intro {n : Node} : n.span.start ≤ n.span.stop →
      (∀ c ∈ n.children, n.span.start ≤ c.span.start ∧ c.span.stop ≤ n.span.stop) →
      n.children.Pairwise Precedes → (∀ c ∈ n.children, Nested c) → Nested n

/-- Nested nodes that follow one another between two offsets. -/
structure Row (lo hi : Nat) (ns : List Node) : Prop where
  within : ∀ n ∈ ns, lo ≤ n.span.start ∧ n.span.stop ≤ hi
  order : ns.Pairwise Precedes
  nested : ∀ n ∈ ns, n.Nested

/-- What nesting says of a single node in a script of the given length. -/
structure WellPlaced (length : Nat) (n : Node) : Prop where
  start_le_stop : n.span.start ≤ n.span.stop
  stop_le_length : n.span.stop ≤ length
  within : ∀ c ∈ n.children, n.span.start ≤ c.span.start ∧ c.span.stop ≤ n.span.stop
  order : n.children.Pairwise Precedes

theorem Nested.start_le_stop {n : Node} (h : n.Nested) : n.span.start ≤ n.span.stop := by
  cases h; assumption

/-- The children of a nested node are a row. -/
theorem Nested.row {n : Node} (h : n.Nested) : Row n.span.start n.span.stop n.children := by
  cases h with
  | intro _ hwithin horder hnested => exact ⟨hwithin, horder, hnested⟩

/-- All nodes of a nested tree are nested, and lie within its place. -/
theorem Nested.has {n x : Node} (h : n.Nested) (hx : n.Has x) :
    x.Nested ∧ n.span.start ≤ x.span.start ∧ x.span.stop ≤ n.span.stop := by
  induction hx with
  | self => exact ⟨h, Nat.le_refl _, Nat.le_refl _⟩
  | inside hc _ ih =>
      obtain ⟨hstart, hstop⟩ := h.row.within _ hc
      obtain ⟨hnested, hstart', hstop'⟩ := ih (h.row.nested _ hc)
      exact ⟨hnested, by omega, by omega⟩

theorem Nested.wellPlaced {n x : Node} (h : n.Nested) (hx : n.Has x) {length : Nat}
    (hlength : n.span.stop ≤ length) : x.WellPlaced length := by
  obtain ⟨hnested, _, hstop⟩ := h.has hx
  exact ⟨hnested.start_le_stop, by omega, hnested.row.within, hnested.row.order⟩

/-! ## Rows -/

namespace Row

variable {lo hi a b : Nat} {n : Node} {ns as bs : List Node}

theorem nil : Row lo hi [] :=
  ⟨fun _ h => absurd h List.not_mem_nil, .nil, fun _ h => absurd h List.not_mem_nil⟩

theorem widen (h : Row a b ns) (hlo : lo ≤ a) (hhi : b ≤ hi) : Row lo hi ns := by
  refine ⟨fun n hn => ?_, h.order, h.nested⟩
  obtain ⟨hstart, hstop⟩ := h.within n hn
  omega

/-- Two rows, one behind the other. -/
theorem append (ha : Row lo a as) (hb : Row b hi bs) (hab : a ≤ b) (hlo : lo ≤ b) (hhi : a ≤ hi) :
    Row lo hi (as ++ bs) := by
  refine ⟨?_, ?_, List.forall_mem_append.mpr ⟨ha.nested, hb.nested⟩⟩
  · exact List.forall_mem_append.mpr
      ⟨(ha.widen (Nat.le_refl lo) hhi).within, (hb.widen hlo (Nat.le_refl hi)).within⟩
  · refine List.pairwise_append.mpr ⟨ha.order, hb.order, fun x hx y hy => .apart ?_⟩
    have hstop := (ha.within x hx).2
    have hstart := (hb.within y hy).1
    omega

theorem singleton (hnested : n.Nested) (hlo : lo ≤ n.span.start) (hhi : n.span.stop ≤ hi) :
    Row lo hi [n] :=
  ⟨List.forall_mem_singleton.mpr ⟨hlo, hhi⟩, List.pairwise_singleton _ _,
    List.forall_mem_singleton.mpr hnested⟩

/-- A node whose children are a row between its ends. -/
theorem node (h : Row n.span.start n.span.stop n.children) (hn : n.span.start ≤ n.span.stop)
    (hlo : lo ≤ n.span.start) (hhi : n.span.stop ≤ hi) : Row lo hi [n] :=
  singleton (.intro hn h.within h.order h.nested) hlo hhi

/-- A node whose place is known. -/
theorem node_at (hspan : n.span = ⟨a, b⟩) (h : Row a b n.children) (hab : a ≤ b) (hlo : lo ≤ a)
    (hhi : b ≤ hi) : Row lo hi [n] := by
  refine node ?_ ?_ ?_ ?_
  · rwa [hspan]
  · rwa [hspan]
  · rwa [hspan]
  · rwa [hspan]

theorem head_nested (h : Row lo hi [n]) : n.Nested := h.nested n (List.mem_singleton.mpr rfl)

/-- Where the only node of a row lies. -/
theorem bounds (h : Row lo hi [n]) :
    lo ≤ n.span.start ∧ n.span.start ≤ n.span.stop ∧ n.span.stop ≤ hi :=
  have hwithin := h.within n (List.mem_singleton.mpr rfl)
  ⟨hwithin.1, h.head_nested.start_le_stop, hwithin.2⟩

/-- The only node of a row is a row between its own ends. -/
theorem tight (h : Row lo hi [n]) : Row n.span.start n.span.stop [n] :=
  singleton h.head_nested (Nat.le_refl _) (Nat.le_refl _)

/-- A row starts where its first node does. -/
theorem from_head (h : Row lo hi (n :: ns)) : Row n.span.start hi (n :: ns) := by
  refine ⟨List.forall_mem_cons.mpr ⟨⟨Nat.le_refl _, (h.within n List.mem_cons_self).2⟩, ?_⟩, h.order, h.nested⟩
  intro x hx
  have hn := (h.nested n List.mem_cons_self).start_le_stop
  refine ⟨?_, (h.within x (List.mem_cons_of_mem n hx)).2⟩
  cases (List.pairwise_cons.mp h.order).1 x hx with
  | apart hle => omega
  | siblings hsiblings => exact Nat.le_of_eq hsiblings.start

/-- A row ends where its last node does. -/
theorem to_last (h : Row lo hi (ns ++ [n])) : Row lo n.span.stop (ns ++ [n]) := by
  have hmem : n ∈ ns ++ [n] := List.mem_append_right ns (List.mem_singleton.mpr rfl)
  refine ⟨List.forall_mem_append.mpr ⟨?_, ?_⟩, h.order, h.nested⟩
  · intro x hx
    have hn := (h.nested n hmem).start_le_stop
    refine ⟨(h.within x (List.mem_append_left _ hx)).1, ?_⟩
    cases (List.pairwise_append.mp h.order).2.2 x hx n (List.mem_singleton.mpr rfl) with
    | apart hle => omega
    | siblings hsiblings => exact Nat.le_of_lt hsiblings.stop
  · exact List.forall_mem_singleton.mpr ⟨(h.within n hmem).1, Nat.le_refl _⟩

theorem sublist (h : Row lo hi ns) (hsub : as.Sublist ns) : Row lo hi as :=
  ⟨fun n hn => h.within n (hsub.subset hn), h.order.sublist hsub, fun n hn => h.nested n (hsub.subset hn)⟩

end Row

/-! ## Replacing nodes -/

end Node

/-- A declaration that may take the place of another between its siblings. -/
structure VarDecl.InPlaceOf (d' d : VarDecl) : Prop where
  span : d'.span = d.span
  type : d'.type.span = d.type.span
  init : ∀ x', d'.init = some x' → ∃ x, d.init = some x ∧ x.span.start ≤ x'.span.start

theorem VarDecl.InPlaceOf.trans {d d' d'' : VarDecl} (h : d''.InPlaceOf d') (h' : d'.InPlaceOf d) :
    d''.InPlaceOf d where
  span := h.span.trans h'.span
  type := h.type.trans h'.type
  init := by
    intro x'' hx''
    obtain ⟨x', hx', hle⟩ := h.init x'' hx''
    obtain ⟨x, hx, hle'⟩ := h'.init x' hx'
    exact ⟨x, hx, Nat.le_trans hle' hle⟩

theorem VarDecl.InPlaceOf.siblings {d d' e e' : VarDecl} (hd : d'.InPlaceOf d) (he : e'.InPlaceOf e)
    (h : d.Siblings e) : d'.Siblings e' where
  start := by rw [hd.span, he.span, h.start]
  type := by rw [hd.type, he.type, h.type]
  stop := by rw [hd.span, he.span]; exact h.stop
  init := by
    intro x' hx'
    obtain ⟨x, hx, hle⟩ := he.init x' hx'
    rw [hd.span]
    exact Nat.le_trans (h.init x hx) hle

namespace Node

/-- A nested node within the place of another one; a declaration keeps the place it has. -/
structure Narrower (n n' : Node) : Prop where
  nested : n'.Nested
  start : n.span.start ≤ n'.span.start
  stop : n'.span.stop ≤ n.span.stop
  decl : ∀ d, n = var d → ∃ d', n' = var d' ∧ d'.InPlaceOf d

/-- Wherever the first node is nested, the second may take its place. -/
def Narrows (n n' : Node) : Prop := n.Nested → n.Narrower n'

theorem Precedes.narrow {a a' b b' : Node} (h : a.Precedes b) (ha : a.Narrower a') (hb : b.Narrower b') :
    a'.Precedes b' := by
  cases h with
  | apart h =>
      have hstop := ha.stop
      have hstart := hb.start
      exact .apart (by omega)
  | siblings h =>
      obtain ⟨d', rfl, hd'⟩ := ha.decl _ rfl
      obtain ⟨e', rfl, he'⟩ := hb.decl _ rfl
      exact .siblings (hd'.siblings he' h)

/-- What comes after a node comes after its replacement, replaced or not. -/
theorem Narrower.precedes {n n' : Node} (hn : n.Narrower n') {ns ns' : List Node}
    (hns : List.Forall₂ Narrower ns ns') (h : ∀ m ∈ ns, n.Precedes m) : ∀ m' ∈ ns', n'.Precedes m' := by
  induction hns with
  | nil => exact fun _ h => absurd h List.not_mem_nil
  | cons hm _ ih =>
      obtain ⟨hfirst, hrest⟩ := List.forall_mem_cons.mp h
      exact List.forall_mem_cons.mpr ⟨hfirst.narrow hn hm, ih hrest⟩

/-- A row stays one if its nodes are replaced. -/
theorem Row.narrow {lo hi : Nat} {ns ns' : List Node} (h : Row lo hi ns)
    (hns : List.Forall₂ Narrows ns ns') : Row lo hi ns' := by
  have hnarrower : List.Forall₂ Narrower ns ns' :=
    ((List.forall₂_and_left ns ns').mpr ⟨h.nested, hns⟩).imp fun n n' hn => hn.2 hn.1
  clear hns
  induction hnarrower with
  | nil => exact .nil
  | @cons n n' ns ns' hn hns ih =>
      obtain ⟨hwithin, hrest⟩ := List.forall_mem_cons.mp h.within
      obtain ⟨horder, horders⟩ := List.pairwise_cons.mp h.order
      have hrow := ih ⟨hrest, horders, (List.forall_mem_cons.mp h.nested).2⟩
      have hstart := hn.start
      have hstop := hn.stop
      exact ⟨List.forall_mem_cons.mpr ⟨by omega, hrow.within⟩,
        List.pairwise_cons.mpr ⟨hn.precedes hns horder, hrow.order⟩,
        List.forall_mem_cons.mpr ⟨hn.nested, hrow.nested⟩⟩

namespace Narrows

variable {n n' : Node}

theorem refl (n : Node) : n.Narrows n := by
  intro hn
  refine ⟨hn, Nat.le_refl _, Nat.le_refl _, ?_⟩
  rintro d rfl
  exact ⟨d, rfl, rfl, rfl, fun x hx => ⟨x, hx, Nat.le_refl _⟩⟩

theorem trans {n'' : Node} (h : n.Narrows n') (h' : n'.Narrows n'') : n.Narrows n'' := by
  intro hn
  have hfirst := h hn
  have hsecond := h' hfirst.nested
  refine ⟨hsecond.nested, Nat.le_trans hfirst.start hsecond.start, Nat.le_trans hsecond.stop hfirst.stop, ?_⟩
  intro d hd
  obtain ⟨d', hd', hplace⟩ := hfirst.decl d hd
  obtain ⟨d'', hd'', hplace'⟩ := hsecond.decl d' hd'
  exact ⟨d'', hd'', hplace'.trans hplace⟩

/-- What a row of children needs to be the children of another node at the same place. -/
theorem of_row (hspan : n'.span = n.span)
    (hrow : n.Nested → Row n.span.start n.span.stop n'.children)
    (hdecl : n.Nested → ∀ d, n = var d → ∃ d', n' = var d' ∧ d'.InPlaceOf d) : n.Narrows n' := by
  intro hn
  have hrow := hrow hn
  rw [← hspan] at hrow
  have hnested : n'.Nested := .intro (by rw [hspan]; exact hn.start_le_stop) hrow.within hrow.order hrow.nested
  exact ⟨hnested, Nat.le_of_eq (congrArg Span.start hspan).symm, Nat.le_of_eq (congrArg Span.stop hspan),
    hdecl hn⟩

/-- A node at the same place whose children may take the places of the old ones. -/
theorem of_children (hspan : n'.span = n.span) (hchildren : List.Forall₂ Narrows n.children n'.children)
    (hdecl : n.Nested → ∀ d, n = var d → ∃ d', n' = var d' ∧ d'.InPlaceOf d) : n.Narrows n' :=
  of_row hspan (fun hn => hn.row.narrow hchildren) hdecl

theorem expr {e e' : Expr} (hspan : e'.span = e.span)
    (h : List.Forall₂ Narrows e.children e'.children) : Narrows (.expr e) (.expr e') :=
  of_children hspan h fun _ _ hd => by cases hd

theorem stmt {x x' : Stmt} (hspan : x'.span = x.span)
    (h : List.Forall₂ Narrows x.children x'.children) : Narrows (.stmt x) (.stmt x') :=
  of_children hspan h fun _ _ hd => by cases hd

theorem type {t t' : TypeSpec} (hspan : t'.span = t.span)
    (h : List.Forall₂ Narrows ((t.members.getD []).map .var) ((t'.members.getD []).map .var)) :
    Narrows (.type t) (.type t') :=
  of_children hspan h fun _ _ hd => by cases hd

theorem block {is is' : List Item} {p : Span}
    (h : List.Forall₂ Narrows (is.map ofItem) (is'.map ofItem)) :
    Narrows (.block ⟨is, p⟩) (.block ⟨is', p⟩) :=
  of_children rfl h fun _ _ hd => by cases hd

theorem func {h h' : FuncHead} {body body' : Block} (hspan : h'.span = h.span)
    (hresult : Narrows (.type h.result) (.type h'.result))
    (hparams : List.Forall₂ Narrows (h.params.map .var) (h'.params.map .var))
    (hbody : Narrows (.block body) (.block body')) : Narrows (.func h body) (.func h' body') :=
  of_children hspan (.cons hresult (List.rel_append hparams (.cons hbody .nil))) fun _ _ hd => by cases hd

theorem options {e e' : Option Expr} (h : List.Forall₂ Narrows (ofOption e) (ofOption e')) {x' : Expr}
    (hx' : e' = some x') : ∃ x, e = some x ∧ Narrows (.expr x) (.expr x') := by
  subst hx'
  cases e with
  | none => cases h
  | some x =>
      cases h with
      | cons hx _ => exact ⟨x, rfl, hx⟩

/-- A declaration keeps its place and that of its type. -/
theorem var {d d' : VarDecl} (hspan : d'.span = d.span) (hplace : d'.type.span = d.type.span)
    (htype : Narrows (.type d.type) (.type d'.type))
    (hinit : List.Forall₂ Narrows (ofOption d.init) (ofOption d'.init)) : Narrows (.var d) (.var d') := by
  refine of_children hspan (.cons htype hinit) fun hd => ?_
  rintro _ ⟨⟩
  refine ⟨d', rfl, hspan, hplace, fun x' hx' => ?_⟩
  obtain ⟨x, hx, hnarrows⟩ := options hinit hx'
  have hmem : Node.expr x ∈ (Node.var d).children := by
    refine List.mem_cons_of_mem _ ?_
    rw [hx]
    exact List.mem_singleton.mpr rfl
  exact ⟨x, hx, (hnarrows (hd.row.nested _ hmem)).start⟩

end Narrows

end Node

end Jaf
