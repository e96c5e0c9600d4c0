import Jaf.Analysis.Check
import Jaf.Analysis.Slots
import Jaf.Proofs.Analysis.StepOutcomes
import Jaf.Proofs.Tree.Clauses

/-!
# Going through a program

Settling types, numbering locals and checking go through a program in the same way. They take the items of
a block one after the other, and they take the clauses of a statement one after the other and put the
statement together again. `Traversal` says this of a pass, and the three passes are traversals.

What is shown of all that such a pass does is shown by `Traversal.Rules`: for the items of a block in a row,
for each kind of item and each kind of clause, and for the clauses of a statement in a row.
-/

namespace Jaf

/-! ## Passes -/

/-- What a pass does with the parts of a program. -/
structure Pass (σ : Type) where
  block : Block → σ → Step σ Block Unit
  item : Item → σ → Step σ Item Unit
  stmt : Stmt → σ → Step σ Stmt Unit
  var : VarDecl → σ → Step σ VarDecl Unit
  value : Option Expr → σ → Step σ (Option Expr) Unit
  result : Span → Option Expr → σ → Step σ (Option Expr) Unit
  within : ∀ {τ : Type}, (σ → Step σ τ Unit) → σ → Step σ τ Unit

namespace Pass

variable {σ : Type} (w : Pass σ)

/-- What a pass does with a clause. -/
def clause : Clause → σ → Step σ Clause Unit
  | .value e, s => (w.value e s).map .value
  | .result p e, s => (w.result p e s).map (.result p)
  | .scope b, s => (w.within (w.block b) s).map .scope
  | .opening b, s => (w.block b s).map .opening
  | .inner x, s => (w.stmt x s).map .inner

/-- What a pass does with the clauses of a statement. -/
def clauses (x : Stmt) (s : σ) : Step σ (List Clause) Unit :=
  if x.isScope then w.within (Step.each w.clause x.clauses) s else Step.each w.clause x.clauses s

/-- Checking a program. -/
def check : Pass Checker where
  block := Block.check
  item := Item.check
  stmt := Stmt.check
  var := VarDecl.check
  value := Expr.checkOption
  result p e := Expr.checkReturn e p
  within step k := k.inBlock step

/-- Updating the types of a program. -/
def updateTypes (f : TypeSpec → σ → Step σ TypeSpec Unit) : Pass σ where
  block := Block.updateTypes f
  item := Item.updateTypes f
  stmt := Stmt.updateTypes f
  var d s := if d.isForward then .done d s () else (f d.type s).map fun t => { d with type := t }
  value e s := .done e s ()
  result _ e s := .done e s ()
  within step s := step s

/-- Numbering the locals of a function. -/
def allotLocals (c : Container) : Pass (List Variable) where
  block := Block.allotLocals c
  item := Item.allotLocals c
  stmt := Stmt.allotLocals c
  var := VarDecl.allot c
  value e s := .done e s ()
  result _ e s := .done e s ()
  within step s := step s

end Pass

/-- A pass that goes through the items of blocks and the clauses of statements. -/
structure Traversal (σ : Type) extends Pass σ where
  block_eq : ∀ items p s, block ⟨items, p⟩ s = (Step.each item items s).map (⟨·, p⟩)
  item_var : ∀ d s, item (.var d) s = (var d s).map .var
  item_stmt : ∀ x s, item (.stmt x) s = (stmt x s).map .stmt
  stmt_eq : ∀ x s, stmt x s = (toPass.clauses x s).map x.withClauses
  value_isSome : ∀ e s, (value e s).tree.isSome = e.isSome
  within_eq : ∀ s, ∃ s' f, ∀ {τ : Type} (step : σ → Step σ τ Unit), within step s = (step s').mapState f

/-- A run leaves things that are related one by one to those that it has come to. -/
theorem Step.forall₂_each {σ τ : Type} {f : τ → σ → Step σ τ Unit} {R : τ → τ → Prop}
    (h : ∀ t s, R t (f t s).tree) (hrefl : ∀ t, R t t) (ts : List τ) (s : σ) :
    List.Forall₂ R ts (Step.each f ts s).tree := by
  induction ts generalizing s with
  | nil => exact .nil
  | cons t ts ih =>
      rw [Step.each]
      refine Step.tree_andThen (P := List.Forall₂ R (t :: ts)) ?_ fun _ => ?_
      · exact .cons (h t s) (List.forall₂_same.mpr fun u _ => hrefl u)
      · exact .cons (h t s) (ih _)

/-- A run that succeeds leaves things that are related one by one, if each of its steps does. -/
theorem Step.Ends.forall₂_each {σ τ : Type} {f : τ → σ → Step σ τ Unit} {R : τ → τ → Prop}
    {E : SemanticError → σ → Prop} {ts : List τ}
    (h : ∀ t ∈ ts, ∀ s, (f t s).Ends (fun t' _ _ => R t t') E) (s : σ) :
    (Step.each f ts s).Ends (fun ts' _ _ => List.Forall₂ R ts ts') E := by
  induction ts generalizing s with
  | nil => exact .done .nil
  | cons t ts ih =>
      obtain ⟨ht, hts⟩ := List.forall_mem_cons.mp h
      refine (ht s).andThen fun t' _ s' ht' => .map ((ih hts s').mono ?_ fun _ _ he => he)
      exact fun ts' _ _ hts' => .cons ht' hts'

namespace Traversal

variable {σ κ : Type} (w : Traversal σ)

theorem like_clause (c : Clause) (s : σ) : Clause.Like c (w.clause c s).tree := by
  cases c with
  | value e =>
      have hsome := w.value_isSome e s
      show Clause.Like (.value e) (.value (w.value e s).tree)
      cases e <;> cases h : (w.value _ s).tree
      all_goals first | constructor | (rw [h] at hsome; cases hsome)
  | result => exact .result
  | scope => exact .scope
  | opening => exact .opening
  | inner => exact .inner

/-- The clauses that are left are of the same kinds. -/
theorem like_clauses (x : Stmt) (s : σ) : List.Forall₂ Clause.Like x.clauses (w.clauses x s).tree := by
  have heach := Step.forall₂_each w.like_clause .refl x.clauses
  unfold Pass.clauses
  split
  · obtain ⟨s', f, hwithin⟩ := w.within_eq s
    rw [hwithin]
    exact heach s'
  · exact heach s

/-- The statement that is left has the clauses that are left. -/
@[simp] theorem clauses_tree (x : Stmt) (s : σ) :
    (x.withClauses (w.clauses x s).tree).clauses = (w.clauses x s).tree :=
  Stmt.clauses_withClauses (w.like_clauses x s)

/--
What has to be shown of a pass to know something about all it does: for blocks `B`, for items `I`, for
statements `S`, for clauses `C`, each said of the tree, of the state before and of the step.
-/
structure Rules (B : Block → σ → Step σ Block Unit → Prop) (I : Item → σ → Step σ Item Unit → Prop)
    (S : Stmt → σ → Step σ Stmt Unit → Prop) (C : Clause → σ → Step σ Clause Unit → Prop) : Prop where
  block : ∀ items p, (∀ i ∈ items, ∀ s, I i s (w.item i s)) →
    ∀ s, B ⟨items, p⟩ s ((Step.each w.item items s).map (⟨·, p⟩))
  var : ∀ d s, I (.var d) s ((w.var d s).map .var)
  func : ∀ h body, (∀ s, B body s (w.block body s)) → ∀ s, I (.func h body) s (w.item (.func h body) s)
  stmt : ∀ x, (∀ s, S x s (w.stmt x s)) → ∀ s, I (.stmt x) s ((w.stmt x s).map .stmt)
  value : ∀ e s, C (.value e) s ((w.value e s).map .value)
  result : ∀ p e s, C (.result p e) s ((w.result p e s).map (.result p))
  scope : ∀ b, (∀ s, B b s (w.block b s)) → ∀ s, C (.scope b) s ((w.within (w.block b) s).map .scope)
  opening : ∀ b, (∀ s, B b s (w.block b s)) → ∀ s, C (.opening b) s ((w.block b s).map .opening)
  inner : ∀ x, (∀ s, S x s (w.stmt x s)) → ∀ s, C (.inner x) s ((w.stmt x s).map .inner)
  clauses : ∀ x, (∀ c ∈ x.clauses, ∀ s, C c s (w.clause c s)) →
    ∀ s, S x s ((w.clauses x s).map x.withClauses)

namespace Rules

variable {w} {B : Block → σ → Step σ Block Unit → Prop} {I : Item → σ → Step σ Item Unit → Prop}
  {S : Stmt → σ → Step σ Stmt Unit → Prop} {C : Clause → σ → Step σ Clause Unit → Prop}

theorem clause_of_has (h : w.Rules B I S C) {c : Clause}
    (hc : c.Has (fun b => ∀ s, B b s (w.block b s)) fun x => ∀ s, S x s (w.stmt x s)) (s : σ) :
    C c s (w.clause c s) := by
  cases c with
  | value e => exact h.value e s
  | result p e => exact h.result p e s
  | scope b => exact h.scope b hc s
  | opening b => exact h.opening b hc s
  | inner x => exact h.inner x hc s

/-- The rules of a pass are rules for trees. -/
theorem tree (h : w.Rules B I S C) : TreeRules (fun b => ∀ s, B b s (w.block b s))
    (fun i => ∀ s, I i s (w.item i s)) fun x => ∀ s, S x s (w.stmt x s) where
  block items p hitems s := by
    rw [w.block_eq]
    exact h.block items p hitems s
  var d s := by
    rw [w.item_var]
    exact h.var d s
  func := h.func
  stmt x hx s := by
    rw [w.item_stmt]
    exact h.stmt x hx s
  clauses x hclauses s := by
    rw [w.stmt_eq]
    exact h.clauses x (fun c hc => h.clause_of_has (hclauses c hc)) s

theorem forBlock (h : w.Rules B I S C) (b : Block) (s : σ) : B b s (w.block b s) := h.tree.forBlock b s

theorem forItem (h : w.Rules B I S C) (i : Item) (s : σ) : I i s (w.item i s) := h.tree.forItem i s

theorem forStmt (h : w.Rules B I S C) (x : Stmt) (s : σ) : S x s (w.stmt x s) := h.tree.forStmt x s

theorem forClause (h : w.Rules B I S C) (c : Clause) (s : σ) : C c s (w.clause c s) :=
  h.clause_of_has (h.tree.has c) s

end Rules

/-! ### Declarations only -/

/-- A pass that does something at declarations only. -/
structure Plain : Prop where
  value_eq : ∀ e s, w.value e s = .done e s ()
  result_eq : ∀ p e s, w.result p e s = .done e s ()
  within_eq : ∀ {τ : Type} (step : σ → Step σ τ Unit) s, w.within step s = step s

variable {w}

theorem Plain.clauses_eq (hw : w.Plain) (x : Stmt) (s : σ) :
    w.clauses x s = Step.each w.clause x.clauses s := by
  unfold Pass.clauses
  rw [hw.within_eq, ite_self]

/-- Such a pass is a run along a listing if it is one at declarations. -/
theorem Plain.runs (hw : w.Plain) (L : TreeList κ) {f : κ → σ → Step σ κ Unit}
    (hscope : ∀ {τ : Type} {r : Step σ τ Unit} {g : τ → List κ} {ts : List κ} {s : σ},
      r.map g = Step.each f ts s → r.map (fun t => L.scope (g t)) = Step.each f (L.scope ts) s)
    (hvalue : ∀ e s, Step.each f (L.clause (.value e)) s = .done (L.clause (.value e)) s ())
    (hresult : ∀ p e s, Step.each f (L.clause (.result p e)) s = .done (L.clause (.result p e)) s ())
    (hvar : ∀ d s, (w.var d s).map (fun d => L.item (.var d)) = Step.each f (L.item (.var d)) s)
    (hfunc : ∀ h body, (∀ s, (w.block body s).map L.block = Step.each f (L.block body) s) →
      ∀ s, (w.item (.func h body) s).map L.item = Step.each f (L.item (.func h body)) s) :
    w.Rules (fun b s r => r.map L.block = Step.each f (L.block b) s)
      (fun i s r => r.map L.item = Step.each f (L.item i) s)
      (fun x s r => r.map L.stmt = Step.each f (L.stmt x) s)
      fun c s r => r.map L.clause = Step.each f (L.clause c) s where
  block items p hitems s := by
    rw [L.block_eq, ← Step.each_flatMap hitems, Step.map_map]
    simp only [L.block_eq]
  var := hvar
  func := hfunc
  stmt x hx s := by
    simp only [Step.map_map, L.item_stmt]
    exact hx s
  value e s := by
    rw [hw.value_eq, hvalue]
    rfl
  result p e s := by
    rw [hw.result_eq, hresult]
    rfl
  scope b hb s := by
    simp only [Step.map_map, L.clause_scope, hw.within_eq]
    exact hscope (hb s)
  opening b hb s := by
    simp only [Step.map_map, L.clause_opening]
    exact hb s
  inner x hx s := by
    simp only [Step.map_map, L.clause_inner]
    exact hx s
  clauses x hclauses s := by
    have hrun := Step.each_flatMap hclauses s
    rw [← hw.clauses_eq] at hrun
    have hstmt : (w.clauses x s).map (fun cs => L.stmt (x.withClauses cs)) = (w.clauses x s).map
        fun cs => if x.isScope then L.scope (cs.flatMap L.clause) else cs.flatMap L.clause :=
      Step.map_congr (by rw [L.stmt_eq, w.clauses_tree, Stmt.isScope_withClauses])
    rw [Step.map_map, hstmt, L.stmt_eq]
    split
    · exact hscope hrun
    · exact hrun

end Traversal

/-! ## The three passes -/

section Passes

variable {σ : Type} {f : TypeSpec → σ → Step σ TypeSpec Unit} {c : Container}

theorem Item.checkAll_eq_each (is : List Item) (k : Checker) :
    Item.checkAll is k = Step.each Item.check is k := by
  induction is generalizing k with
  | nil => unfold Item.checkAll; rfl
  | cons i is ih =>
      unfold Item.checkAll
      simp only [Step.each, ih]

theorem Item.updateTypesOf_eq_each (is : List Item) (s : σ) :
    Item.updateTypesOf f is s = Step.each (Item.updateTypes f) is s := by
  induction is generalizing s with
  | nil => unfold Item.updateTypesOf; rfl
  | cons i is ih =>
      unfold Item.updateTypesOf
      simp only [Step.each, ih]

theorem Item.allotLocalsOf_eq_each (is : List Item) (vars : List Variable) :
    Item.allotLocalsOf c is vars = Step.each (Item.allotLocals c) is vars := by
  induction is generalizing vars with
  | nil => unfold Item.allotLocalsOf; rfl
  | cons i is ih =>
      unfold Item.allotLocalsOf
      simp only [Step.each, ih]

theorem Expr.checkOption_some (e : Expr) (k : Checker) : Expr.checkOption (some e) k = (e.check k).map some :=
  rfl

theorem Checker.map_inBlock {τ υ : Type} (k : Checker) (step : Checker → Step Checker τ Unit) (g : τ → υ) :
    (k.inBlock step).map g = k.inBlock fun k => (step k).map g := by
  unfold Checker.inBlock
  split <;> rfl

/-- A function is checked by its entry, or not at all. -/
theorem Item.check_func (h : FuncHead) (k : Checker) :
    (∃ e, ∀ body, (Item.func h body).check k = .ofResult (.func h body) k (.error e)) ∨
      ∃ n f, h.number = some n ∧ k.container.functions[n]? = some f ∧ ∀ body, (Item.func h body).check k =
        (Checker.inFunction { k with session := k.session.note (.functionEntered h.name) } n f.argCount
          body.check).map (.func h) := by
  simp only [Item.check]
  cases hn : h.number with
  | none => exact .inl ⟨_, fun _ => rfl⟩
  | some n =>
      dsimp only
      cases hf : k.container.functions[n]? with
      | none => exact .inl ⟨_, fun _ => rfl⟩
      | some f => exact .inr ⟨n, f, rfl, hf, fun _ => rfl⟩

/-- A check goes through the clauses of a statement. -/
theorem Stmt.check_eq (x : Stmt) (k : Checker) :
    x.check k = (Pass.check.clauses x k).map x.withClauses := by
  cases x with
  | _ =>
      rw [Stmt.check]
      simp only [Pass.clauses, isScope, Bool.false_eq_true, if_false, if_true, clauses, Step.each_nil,
        Step.each_singleton, Step.each_cons_cons, Pass.clause, Pass.check, Expr.checkOption_some,
        Checker.map_inBlock, Step.map_andThen, Step.andThen_map, Step.map_map, Step.map_done, withClauses]

theorem Stmt.updateTypes_eq (x : Stmt) (s : σ) :
    x.updateTypes f s = ((Pass.updateTypes f).clauses x s).map x.withClauses := by
  cases x with
  | _ =>
      rw [Stmt.updateTypes]
      simp only [Pass.clauses, isScope, Bool.false_eq_true, if_false, if_true, clauses, Step.each_nil,
        Step.each_singleton, Step.each_cons_cons, Pass.clause, Pass.updateTypes, Step.map_andThen,
        Step.andThen_map, Step.andThen_done, Step.map_map, Step.map_done, withClauses]

theorem Stmt.allotLocals_eq (x : Stmt) (vars : List Variable) :
    x.allotLocals c vars = ((Pass.allotLocals c).clauses x vars).map x.withClauses := by
  cases x with
  | _ =>
      rw [Stmt.allotLocals]
      simp only [Pass.clauses, isScope, Bool.false_eq_true, if_false, if_true, clauses, Step.each_nil,
        Step.each_singleton, Step.each_cons_cons, Pass.clause, Pass.allotLocals, Step.map_andThen,
        Step.andThen_map, Step.andThen_done, Step.map_map, Step.map_done, withClauses]

namespace Traversal

def check : Traversal Checker where
  toPass := .check
  block_eq items p k := by
    show Block.check ⟨items, p⟩ k = _
    rw [Block.check, Item.checkAll_eq_each]
    rfl
  item_var d k := by
    show (Item.var d).check k = _
    rw [Item.check]
    rfl
  item_stmt x k := by
    show (Item.stmt x).check k = _
    rw [Item.check]
    rfl
  stmt_eq := Stmt.check_eq
  value_isSome e k := by cases e <;> rfl
  within_eq k := by
    cases h : k.scopes.enterBlock? with
    | some scopes => exact ⟨{ k with scopes }, Checker.leave, fun step => by simp only [Pass.check, Checker.inBlock, h]⟩
    | none => exact ⟨k, id, fun step => by simp only [Pass.check, Checker.inBlock, h]; rfl⟩

def updateTypes (f : TypeSpec → σ → Step σ TypeSpec Unit) : Traversal σ where
  toPass := .updateTypes f
  block_eq items p s := by
    show Block.updateTypes f ⟨items, p⟩ s = _
    rw [Block.updateTypes, Item.updateTypesOf_eq_each]
    rfl
  item_var d s := by
    show (Item.var d).updateTypes f s = (if d.isForward then _ else _ : Step σ VarDecl Unit).map _
    rw [Item.updateTypes]
    split <;> rfl
  item_stmt x s := by
    show (Item.stmt x).updateTypes f s = _
    rw [Item.updateTypes]
    rfl
  stmt_eq := Stmt.updateTypes_eq
  value_isSome _ _ := rfl
  within_eq s := ⟨s, id, fun _ => rfl⟩

def allotLocals (c : Container) : Traversal (List Variable) where
  toPass := .allotLocals c
  block_eq items p vars := by
    show Block.allotLocals c ⟨items, p⟩ vars = _
    rw [Block.allotLocals, Item.allotLocalsOf_eq_each]
    rfl
  item_var d vars := by
    show (Item.var d).allotLocals c vars = _
    rw [Item.allotLocals]
    rfl
  item_stmt x vars := by
    show (Item.stmt x).allotLocals c vars = _
    rw [Item.allotLocals]
    rfl
  stmt_eq := Stmt.allotLocals_eq
  value_isSome _ _ := rfl
  within_eq vars := ⟨vars, id, fun _ => rfl⟩

theorem plain_updateTypes : (updateTypes f).Plain := ⟨fun _ _ => rfl, fun _ _ _ => rfl, fun _ _ => rfl⟩

theorem plain_allotLocals : (allotLocals c).Plain := ⟨fun _ _ => rfl, fun _ _ _ => rfl, fun _ _ => rfl⟩

end Traversal

end Passes

end Jaf
