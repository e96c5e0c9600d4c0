import Jaf.Proofs.Analysis.Traversals
import Jaf.Proofs.Tree.ExprSites

/-!
# The types of a program in a row

Settling types walks over blocks, declarations and statements, but all it does is to update one type
after the other. `Block.types` lists these types in the order of the walk, and `Block.types_updateTypes`
says that the walk is a run along this list, whether it gets to the end or not. So what is proved by
induction on a list of types holds of programs, and nothing else has to know the forms of statements.

A declaration that is nothing but a type name is no part of the list, before the walk or after it. That
takes an update that makes no other type a mere name (`TypeSpec.AddsNoName`), as both updates of the
pass are.
-/

namespace Jaf

/-! ## Lists of types -/

/-- The types of a function head: result and parameters. -/
def FuncHead.types (h : FuncHead) : List TypeSpec := h.result :: h.params.map (·.type)

/-- The types that a declaration itself writes, unless it is a type name alone. -/
def Item.types : Item → List TypeSpec
  | .var d => if d.isForward then [] else [d.type]
  | .func h _ => h.types
  | .stmt _ => []

/-- The types that declarations write. -/
def Item.typesOf (is : List Item) : List TypeSpec := is.flatMap Item.types

@[simp] theorem Item.typesOf_append {is js : List Item} :
    Item.typesOf (is ++ js) = Item.typesOf is ++ Item.typesOf js := List.flatMap_append

/-- The types that the declarations of a block write, at any depth. -/
def Block.types (b : Block) : List TypeSpec := Item.typesOf b.declarations

theorem Stmt.types_clauses (x : Stmt) :
    Item.typesOf x.declarations = x.clauses.flatMap fun c => Item.typesOf c.declarations := by
  rw [Stmt.declarations_clauses, Item.typesOf, List.flatMap_assoc]
  rfl

/-- The types that a program writes, at any depth. -/
def TreeList.types : TreeList TypeSpec where
  block := Block.types
  item i := Item.typesOf i.declarations
  stmt x := Item.typesOf x.declarations
  clause c := Item.typesOf c.declarations
  scope ts := ts
  block_eq items p := by
    rw [Block.types, Block.declarations, Item.declarationsOf_eq_flatMap, Item.typesOf, List.flatMap_assoc]
    rfl
  item_stmt _ := rfl
  stmt_eq x := by
    rw [ite_self]
    exact x.types_clauses
  clause_scope _ := rfl
  clause_opening _ := rfl
  clause_inner _ := rfl

/-- An update that makes no type a mere name. -/
def TypeSpec.AddsNoName {σ : Type} (f : TypeSpec → σ → Step σ TypeSpec Unit) : Prop :=
  ∀ t s, ((f t s).tree.kind = .typedef) → (t.kind = .typedef)

/-! ## The walk as a run along the list -/

section Walk

open TypeSpec

variable {σ : Type} {f : TypeSpec → σ → Step σ TypeSpec Unit}

theorem VarDecl.types_updateTypes (ds : List VarDecl) (s : σ) :
    (VarDecl.updateTypes f ds s).map (fun ds => ds.map (·.type)) =
      Step.each f (ds.map (·.type)) s := by
  induction ds generalizing s with
  | nil => rfl
  | cons d ds ih =>
      simp only [VarDecl.updateTypes, List.map_cons, Step.each, Step.map_andThen, Step.map_map, ← ih]

theorem FuncHead.types_updateTypes (h : FuncHead) (s : σ) :
    (h.updateTypes f s).map FuncHead.types = Step.each f h.types s := by
  simp only [FuncHead.updateTypes, FuncHead.types, Step.each, Step.map_andThen, Step.map_map,
    ← VarDecl.types_updateTypes]

theorem VarDecl.types_updateType (hf : AddsNoName f) {d : VarDecl} (hd : d.isForward = false) (s : σ) :
    (f d.type s).map (fun t => Item.types (.var { d with type := t })) =
      Step.each f (Item.types (.var d)) s := by
  rw [Item.types, hd, if_neg Bool.false_ne_true, Step.each_singleton]
  apply Step.map_congr
  -- the declaration is still no type name alone
  have hstill : VarDecl.isForward { d with type := (f d.type s).tree } = false := by
    unfold VarDecl.isForward at hd ⊢
    cases hname : d.name with
    | some name => rfl
    | none =>
        have hkind : d.type.kind ≠ .typedef := by simpa [hname] using hd
        simpa using fun h => hkind (hf _ _ h)
  rw [Item.types, hstill, if_neg Bool.false_ne_true]

theorem Traversal.types_updateTypes (hf : AddsNoName f) : (updateTypes f).Rules
    (fun b s r => r.map Block.types = Step.each f b.types s)
    (fun i s r => r.map (fun i => Item.typesOf i.declarations) = Step.each f (Item.typesOf i.declarations) s)
    (fun x s r => r.map (fun x => Item.typesOf x.declarations) = Step.each f (Item.typesOf x.declarations) s)
    fun c s r => r.map (fun c => Item.typesOf c.declarations) = Step.each f (Item.typesOf c.declarations) s := by
  refine plain_updateTypes.runs TreeList.types id (fun _ _ => rfl) (fun _ _ _ => rfl) ?_ ?_
  · intro d s
    show (if d.isForward then Step.done d s () else (f d.type s).map fun t => { d with type := t }).map
      (fun d => Item.types (.var d) ++ []) = Step.each f (Item.types (.var d) ++ []) s
    simp only [List.append_nil]
    split
    next hd => simp [Item.types, hd]
    next hd => exact VarDecl.types_updateType hf (Bool.eq_false_iff.mpr hd) s
  · intro h body hbody s
    show ((Item.func h body).updateTypes f s).map (fun i => Item.typesOf i.declarations) = _
    unfold Item.updateTypes
    simp only [Step.map_andThen, Step.map_map]
    exact Step.each_both (FuncHead.types_updateTypes h s) hbody

/-- **The walk over a program is a run along its types.** -/
theorem Block.types_updateTypes (hf : AddsNoName f) (b : Block) (s : σ) :
    (b.updateTypes f s).map Block.types = Step.each f b.types s :=
  (Traversal.types_updateTypes hf).forBlock b s

end Walk

end Jaf
