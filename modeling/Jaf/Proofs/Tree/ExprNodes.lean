import Jaf.Tree.Expr

/-!
# The nodes of an expression

An expression tree has lists of expressions inside, as the arguments of a call and as the items of a
comma list. The induction principle here hands over what is known of the members of such a list one by
one, which is the form in which the proofs about typing and folding use it.

`Expr.nodes` lists an expression and everything below it. A property of whole trees is stated in this
development as a property of one node that holds of all of them, so that it can be read without any
recursion.
-/

namespace Jaf.Expr

/-- Induction over expressions, with one hypothesis for every member of a list of expressions. -/
@[elab_as_elim]
theorem induct {P : Expr → Prop}
    (int : ∀ n v, P (.int n v))
    (float : ∀ n v, P (.float n v))
    (string : ∀ n v, P (.string n v))
    (ident : ∀ n name b, P (.ident n name b))
    (unary : ∀ n op e, P e → P (.unary n op e))
    (binary : ∀ n op l r, P l → P r → P (.binary n op l r))
    (assign : ∀ n op t v, P t → P v → P (.assign n op t v))
    (ternary : ∀ n c y o, P c → P y → P o → P (.ternary n c y o))
    (call : ∀ n name args k, (∀ a ∈ args, P a) → P (.call n name args k))
    (cast : ∀ n t e, P e → P (.cast n t e))
    (member : ∀ n o f p, P o → P (.member n o f p))
    (comma : ∀ n es, (∀ e ∈ es, P e) → P (.comma n es)) (e : Expr) : P e := by
  have cons : ∀ (x : Expr) (es : List Expr), P x → (∀ a ∈ es, P a) → ∀ a ∈ x :: es, P a := by
    intro x es hx hes a ha
    rcases List.mem_cons.mp ha with h | h
    · rw [h]; exact hx
    · exact hes a h
  exact @Expr.rec P (fun es => ∀ a ∈ es, P a) int float string ident unary binary assign ternary
    call cast member comma (fun _ h => absurd h List.not_mem_nil) cons e

mutual

/-- An expression and all expressions inside of it. -/
@[simp] def nodes : Expr → List Expr
  | int n v => [int n v]
  | float n v => [float n v]
  | string n v => [string n v]
  | ident n name b => [ident n name b]
  | unary n op e => unary n op e :: e.nodes
  | binary n op l r => binary n op l r :: (l.nodes ++ r.nodes)
  | assign n op t v => assign n op t v :: (t.nodes ++ v.nodes)
  | ternary n c y o => ternary n c y o :: (c.nodes ++ y.nodes ++ o.nodes)
  | call n name args k => call n name args k :: nodesOf args
  | cast n t e => cast n t e :: e.nodes
  | member n o f p => member n o f p :: o.nodes
  | comma n es => comma n es :: nodesOf es

/-- The nodes of each expression of a list. -/
@[simp] def nodesOf : List Expr → List Expr
  | [] => []
  | e :: es => e.nodes ++ nodesOf es

end

theorem mem_nodesOf {x : Expr} {es : List Expr} : x ∈ nodesOf es ↔ ∃ e ∈ es, x ∈ e.nodes := by
  induction es with
  | nil => simp
  | cons e es ih => simp [ih]

/-- An expression is one of its nodes. -/
theorem self_mem_nodes (e : Expr) : e ∈ e.nodes := by cases e <;> simp

/-- The nodes of a node are nodes of the whole. -/
theorem nodes_subset {e x : Expr} (hx : x ∈ e.nodes) : x.nodes ⊆ e.nodes := by
  induction e using induct with
  | int | float | string | ident => rw [List.mem_singleton.mp hx]; exact List.Subset.refl _
  | unary _ _ e ih | cast _ _ e ih | member _ e _ _ ih =>
      rcases List.mem_cons.mp hx with rfl | hx
      · exact List.Subset.refl _
      · exact fun y hy => List.mem_cons_of_mem _ (ih hx hy)
  | binary n op l r ihl ihr | assign n op l r ihl ihr =>
      rcases List.mem_cons.mp hx with rfl | hx
      · exact List.Subset.refl _
      · intro y hy
        refine List.mem_cons_of_mem _ (List.mem_append.mpr ?_)
        exact (List.mem_append.mp hx).imp (ihl · hy) (ihr · hy)
  | ternary n c y o ihc ihy iho =>
      rcases List.mem_cons.mp hx with rfl | hx
      · exact List.Subset.refl _
      · intro z hz
        simp only [List.mem_append] at hx
        refine List.mem_cons_of_mem _ ?_
        simp only [List.mem_append]
        exact hx.imp (Or.imp (ihc · hz) (ihy · hz)) (iho · hz)
  | call n name es k ih | comma n es ih =>
      rcases List.mem_cons.mp hx with rfl | hx
      · exact List.Subset.refl _
      · intro y hy
        obtain ⟨e, he, hxe⟩ := mem_nodesOf.mp hx
        exact List.mem_cons_of_mem _ (mem_nodesOf.mpr ⟨e, he, ih e he hxe hy⟩)

/-- A property of single nodes holds of every node of an expression. -/
def Each (p : Expr → Prop) (e : Expr) : Prop := ∀ x ∈ e.nodes, p x

section Each

variable {p : Expr → Prop}

theorem Each.self {e : Expr} (h : e.Each p) : p e := h e e.self_mem_nodes

theorem Each.node {e x : Expr} (h : e.Each p) (hx : x ∈ e.nodes) : x.Each p :=
  fun y hy => h y (nodes_subset hx hy)

theorem each_nodesOf {es : List Expr} : (∀ x ∈ nodesOf es, p x) ↔ ∀ e ∈ es, e.Each p := by
  constructor
  · intro h e he x hx
    exact h x (mem_nodesOf.mpr ⟨e, he, hx⟩)
  · intro h x hx
    obtain ⟨e, he, hxe⟩ := mem_nodesOf.mp hx
    exact h e he x hxe

@[simp] theorem each_int {n : Note} {v : Int32} : (int n v).Each p ↔ p (int n v) := by
  simp [Each]

@[simp] theorem each_float {n : Note} {v : Float32} : (float n v).Each p ↔ p (float n v) := by
  simp [Each]

@[simp] theorem each_string {n : Note} {v : String} : (string n v).Each p ↔ p (string n v) := by
  simp [Each]

@[simp] theorem each_ident {n : Note} {name : String} {b : Option VarRef} :
    (ident n name b).Each p ↔ p (ident n name b) := by
  simp [Each]

@[simp] theorem each_unary {n : Note} {op : UnaryOp} {e : Expr} :
    (unary n op e).Each p ↔ p (unary n op e) ∧ e.Each p := by
  simp [Each]

@[simp] theorem each_binary {n : Note} {op : BinaryOp} {l r : Expr} :
    (binary n op l r).Each p ↔ p (binary n op l r) ∧ l.Each p ∧ r.Each p := by
  simp [Each, or_imp, forall_and]

@[simp] theorem each_assign {n : Note} {op : AssignOp} {t v : Expr} :
    (assign n op t v).Each p ↔ p (assign n op t v) ∧ t.Each p ∧ v.Each p := by
  simp [Each, or_imp, forall_and]

@[simp] theorem each_ternary {n : Note} {c y o : Expr} :
    (ternary n c y o).Each p ↔ p (ternary n c y o) ∧ c.Each p ∧ y.Each p ∧ o.Each p := by
  simp [Each, or_imp, forall_and]

@[simp] theorem each_call {n : Note} {name : String} {args : List Expr} {k : Option Nat} :
    (call n name args k).Each p ↔ p (call n name args k) ∧ ∀ a ∈ args, a.Each p := by
  rw [← each_nodesOf]; simp [Each]

@[simp] theorem each_cast {n : Note} {t : TypeKind} {e : Expr} :
    (cast n t e).Each p ↔ p (cast n t e) ∧ e.Each p := by
  simp [Each]

@[simp] theorem each_member {n : Note} {o : Expr} {f : String} {i : Option Nat} :
    (member n o f i).Each p ↔ p (member n o f i) ∧ o.Each p := by
  simp [Each]

@[simp] theorem each_comma {n : Note} {es : List Expr} :
    (comma n es).Each p ↔ p (comma n es) ∧ ∀ e ∈ es, e.Each p := by
  rw [← each_nodesOf]; simp [Each]

end Each

end Jaf.Expr
