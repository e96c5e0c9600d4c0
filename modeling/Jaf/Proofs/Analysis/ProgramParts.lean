import Jaf.Proofs.Analysis.StructMembers
import Jaf.Proofs.Analysis.TableNumbers

/-!
# A program in a row

Every pass goes through blocks and statements in the same way, and does something at a few spots only: a
declaration, an expression, the start and the end of a block. `Block.parts` lists these spots in the order
of the walk. Settling types and numbering locals are runs along this list (`Block.parts_updateTypes`,
`Block.parts_allotLocals`), so what they do to a program is found by induction on a list, and a program can
be compared with what has become of it part by part.

`Part.bare` is a part without its types. Settling types changes nothing else, and numbering gives slots to
the named variables in their order (`Part.numberFrom`).
-/

namespace Jaf

/-! ## Parts -/

/-- The spots of a program at which a pass does something. -/
inductive Part where
  | var (decl : VarDecl)
  | head (head : FuncHead)
  | value (e : Expr)
  | result (span : Span) (e : Option Expr)
  | enter
  | leave

/-- An expression that need not be there. -/
def Part.option (e : Option Expr) : List Part := (e.map .value).toList

mutual

/-- The parts of a block. -/
@[simp] def Block.parts : Block → List Part
  | ⟨items, _⟩ => Item.partsOf items

/-- The parts of items. -/
@[simp] def Item.partsOf : List Item → List Part
  | [] => []
  | i :: is => i.parts ++ Item.partsOf is

/-- The parts of an item; a function body is a block. -/
@[simp] def Item.parts : Item → List Part
  | .var d => [.var d]
  | .func h body => [.head h] ++ (body.parts ++ [.leave])
  | .stmt x => x.parts

/-- The parts of a statement. The condition of a loop comes before the body, wherever it is written. -/
@[simp] def Stmt.parts : Stmt → List Part
  | .expr _ e => [.value e]
  | .compound _ b => [.enter] ++ (b.parts ++ [.leave])
  | .ifThen _ e x | .whileLoop _ e x | .doLoop _ x e | .caseLabel _ e x => [.value e] ++ x.parts
  | .ifElse _ e y n => [.value e] ++ (y.parts ++ n.parts)
  | .forLoop _ i e u x =>
    [.enter] ++ (i.parts ++ ((Part.option e ++ Part.option u) ++ (x.parts ++ [.leave])))
  | .switch _ e b => [.value e, .enter] ++ (b.parts ++ [.leave])
  | .defaultLabel _ x | .label _ _ x => x.parts
  | .returnFrom p e => [.result p e]
  | .empty _ | .goto _ _ | .breakOut _ | .continueOn _ => []

end

theorem Item.partsOf_eq_flatMap (is : List Item) : Item.partsOf is = is.flatMap Item.parts := by
  induction is with
  | nil => rfl
  | cons i is ih => rw [Item.partsOf, ih]; rfl

/-- Parts between the two ends of a block. -/
def Part.within (ps : List Part) : List Part := [.enter] ++ (ps ++ [.leave])

/-- The parts of a clause. -/
def Clause.parts : Clause → List Part
  | .value e => Part.option e
  | .result p e => [.result p e]
  | .scope b => Part.within b.parts
  | .opening b => b.parts
  | .inner x => x.parts

theorem Stmt.parts_clauses (x : Stmt) :
    x.parts = if x.isScope then Part.within (x.clauses.flatMap Clause.parts)
      else x.clauses.flatMap Clause.parts := by
  cases x <;> simp [Stmt.clauses, Stmt.isScope, Clause.parts, Part.within, Part.option]

/-- The parts of a program. -/
def TreeList.parts : TreeList Part where
  block := Block.parts
  item := Item.parts
  stmt := Stmt.parts
  clause := Clause.parts
  scope := Part.within
  block_eq items _ := Item.partsOf_eq_flatMap items
  item_stmt _ := rfl
  stmt_eq := Stmt.parts_clauses
  clause_scope _ := rfl
  clause_opening _ := rfl
  clause_inner _ := rfl

/-! ## Parts and declarations -/

/-- A declaration without the body that belongs to it. -/
def Item.shallow : Item → Item
  | .func h _ => .func h ⟨[], .point 0⟩
  | i => i

/-- The declaration that a part is, without a body. -/
def Part.shallow? : Part → Option Item
  | .var d => some (.var d)
  | .head h => some (.func h ⟨[], .point 0⟩)
  | _ => none

theorem Part.shallow?_within (ps : List Part) :
    (Part.within ps).filterMap Part.shallow? = ps.filterMap Part.shallow? := by
  simp [Part.within, List.filterMap_cons, Part.shallow?]

/-- If parts show declarations thing by thing, then they show them all. -/
theorem Part.shallow_flatMap {τ : Type} {parts : τ → List Part} {declarations : τ → List Item}
    {ts : List τ} (h : ∀ t ∈ ts, (parts t).filterMap Part.shallow? = (declarations t).map Item.shallow) :
    (ts.flatMap parts).filterMap Part.shallow? = (ts.flatMap declarations).map Item.shallow := by
  rw [List.filterMap_flatMap, List.map_flatMap]
  exact List.flatMap_congr h

theorem Clause.shallow_parts {c : Clause}
    (h : c.Has (fun b => b.parts.filterMap Part.shallow? = b.declarations.map Item.shallow)
      fun x => x.parts.filterMap Part.shallow? = x.declarations.map Item.shallow) :
    c.parts.filterMap Part.shallow? = c.declarations.map Item.shallow := by
  cases c with
  | value e => cases e <;> rfl
  | result p e => rfl
  | scope b => exact (Part.shallow?_within b.parts).trans h
  | opening | inner => exact h

theorem TreeRules.shallow_parts :
    TreeRules (fun b => b.parts.filterMap Part.shallow? = b.declarations.map Item.shallow)
      (fun i => i.parts.filterMap Part.shallow? = i.declarations.map Item.shallow)
      fun x => x.parts.filterMap Part.shallow? = x.declarations.map Item.shallow where
  block items p hitems := by
    rw [Block.parts, Item.partsOf_eq_flatMap, Block.declarations, Item.declarationsOf_eq_flatMap]
    exact Part.shallow_flatMap hitems
  var d := rfl
  func h body hbody := by simp [Part.shallow?, Item.shallow, hbody]
  stmt x hx := hx
  clauses x hx := by
    have hclauses := Part.shallow_flatMap fun c hc => Clause.shallow_parts (hx c hc)
    rw [Stmt.parts_clauses, Stmt.declarations_clauses, ← hclauses]
    split
    · exact Part.shallow?_within _
    · rfl

/-- The declarations of a block are among its parts, in the same order. -/
theorem Block.shallow_parts (b : Block) :
    b.parts.filterMap Part.shallow? = b.declarations.map Item.shallow :=
  TreeRules.shallow_parts.forBlock b

/-- The variable that a part declares under a name. -/
def Part.declared? : Part → Option VarDecl
  | .var d => if d.name.isSome then some d else none
  | _ => none

/-- The named variables among parts. -/
def Part.variables (ps : List Part) : List VarDecl := ps.filterMap Part.declared?

/-- The types that a part writes, unless it is a type name alone. -/
def Part.types : Part → List TypeSpec
  | .var d => Item.types (.var d)
  | .head h => h.types
  | _ => []

/-- Whether a part starts a function. -/
def Part.isHead : Part → Bool
  | .head _ => true
  | _ => false

theorem Item.variables_shallow (is : List Item) :
    Item.variables (is.map Item.shallow) = Item.variables is := by
  rw [Item.variables, Item.variables, List.filterMap_map]
  apply List.filterMap_congr
  intro i _
  cases i <;> rfl

theorem Part.variables_shallow (ps : List Part) :
    Item.variables (ps.filterMap Part.shallow?) = Part.variables ps := by
  rw [Item.variables, List.filterMap_filterMap, Part.variables]
  apply List.filterMap_congr
  intro p _
  cases p <;> rfl

/-- The named variables of a block, at any depth. -/
theorem Block.variables_parts (b : Block) : Part.variables b.parts = Item.variables b.declarations := by
  rw [← Part.variables_shallow, Block.shallow_parts, Item.variables_shallow]

theorem Part.types_shallow (ps : List Part) :
    (ps.filterMap Part.shallow?).flatMap Item.types = ps.flatMap Part.types := by
  induction ps with
  | nil => rfl
  | cons p ps ih =>
      cases p with
      | var | head => simp [Part.shallow?, Part.types, Item.types, ← ih]
      | _ => simpa [List.filterMap_cons, Part.shallow?, Part.types] using ih

theorem Item.typesOf_shallow (is : List Item) :
    Item.typesOf (is.map Item.shallow) = Item.typesOf is := by
  rw [Item.typesOf, List.flatMap_map, Item.typesOf]
  congr 1
  funext i
  cases i <;> rfl

/-- A block has no functions in it if all its declarations are variables. -/
theorem Block.isHead_parts {b : Block} (h : ∀ i ∈ b.declarations, i.isVariable = true) :
    ∀ p ∈ b.parts, p.isHead = false := by
  intro p hp
  cases p with
  | head head =>
      have hmem : Item.func head ⟨[], .point 0⟩ ∈ b.declarations.map Item.shallow := by
        rw [← Block.shallow_parts]
        exact List.mem_filterMap.mpr ⟨.head head, hp, rfl⟩
      obtain ⟨i, hi, hshallow⟩ := List.mem_map.mp hmem
      have hvar := h i hi
      cases i with
      | var | stmt => cases hshallow
      | func => cases hvar
  | _ => rfl

/-- No statement is a declaration. -/
theorem Block.isDeclaration_declarations {b : Block} : ∀ i ∈ b.declarations, i.isDeclaration = true := by
  intro i hi
  have hmem := List.mem_map_of_mem (f := Item.shallow) hi
  rw [← Block.shallow_parts] at hmem
  obtain ⟨p, _, hp⟩ := List.mem_filterMap.mp hmem
  cases i with
  | var | func => rfl
  | stmt => cases p <;> cases hp

/-- The function that a part starts. -/
def Part.head? : Part → Option FuncHead
  | .head h => some h
  | _ => none

/-- The functions of a block, at any depth. -/
theorem Block.heads_parts (b : Block) :
    b.parts.filterMap Part.head? = (Item.functions b.declarations).map (·.1) := by
  have hparts : b.parts.filterMap Part.head? =
      (Item.functions (b.parts.filterMap Part.shallow?)).map (·.1) := by
    rw [Item.functions, List.filterMap_filterMap, List.map_filterMap]
    apply List.filterMap_congr
    intro p _
    cases p <;> rfl
  have hshallow : (Item.functions (b.declarations.map Item.shallow)).map (·.1) =
      (Item.functions b.declarations).map (·.1) := by
    rw [Item.functions, Item.functions, List.filterMap_map, List.map_filterMap, List.map_filterMap]
    apply List.filterMap_congr
    intro i _
    cases i <;> rfl
  rw [hparts, Block.shallow_parts, hshallow]

theorem Block.functions_eq_nil {b : Block} :
    Item.functions b.declarations = [] ↔ ∀ p ∈ b.parts, p.isHead = false := by
  rw [← List.map_eq_nil_iff (f := (·.1)), ← Block.heads_parts, List.filterMap_eq_nil_iff]
  exact forall₂_congr fun p _ => by cases p <;> simp [Part.head?, Part.isHead]

/-! ## Runs along the parts -/

section Quiet

open Step

variable {σ : Type} {f : Part → σ → Step σ Part Unit}

/-- A run that does something at declarations only. -/
def Part.Quiet (f : Part → σ → Step σ Part Unit) : Prop :=
  ∀ p s, p.shallow? = none → f p s = .done p s ()

/-- Parts that are no declarations may stand before. -/
theorem Part.Quiet.left (hf : Part.Quiet f) {us : List Part} (h : us.filterMap Part.shallow? = [])
    (ts : List Part) (s : σ) : each f (us ++ ts) s = (each f ts s).map (us ++ ·) := by
  induction us with
  | nil => rfl
  | cons u us ih =>
      obtain ⟨hu, hus⟩ := List.forall_mem_cons.mp (List.filterMap_eq_nil_iff.mp h)
      rw [List.cons_append, each, hf u s hu, Step.andThen, Step.done]
      simp only [ih (List.filterMap_eq_nil_iff.mpr hus), map_map, List.cons_append]

theorem Part.Quiet.done (hf : Part.Quiet f) {us : List Part} (h : us.filterMap Part.shallow? = []) (s : σ) :
    each f us s = .done us s () := by
  have hleft := hf.left h [] s
  rwa [List.append_nil, each_nil, map_done, List.append_nil] at hleft

/-- Parts that are no declarations may stand behind. -/
theorem Part.Quiet.right (hf : Part.Quiet f) {us : List Part} (h : us.filterMap Part.shallow? = [])
    (ts : List Part) (s : σ) : each f (ts ++ us) s = (each f ts s).map (· ++ us) := by
  rw [each_append]
  obtain ⟨ts', s', result⟩ := each f ts s
  cases result with
  | ok u => simp [Step.andThen, Step.map, hf.done h, Step.done]
  | error e => rfl

/-- The ends of a block may stand around. -/
theorem Part.Quiet.within (hf : Part.Quiet f) {τ : Type} {r : Step σ τ Unit} {g : τ → List Part}
    {ts : List Part} {s : σ} (h : r.map g = each f ts s) :
    r.map (fun t => Part.within (g t)) = each f (Part.within ts) s := by
  rw [Part.within, hf.left rfl, hf.right rfl, ← h]
  rfl

/-- **A pass that does something at declarations only is a run along the parts.** -/
theorem Part.Quiet.runs (hf : Part.Quiet f) {w : Traversal σ} (hw : w.Plain)
    (hvar : ∀ d s, f (.var d) s = (w.var d s).map .var)
    (hfunc : ∀ h body, (∀ s, (w.block body s).map Block.parts = each f body.parts s) →
      ∀ s, (w.item (.func h body) s).map Item.parts = each f (Item.func h body).parts s) :
    w.Rules (fun b s r => r.map Block.parts = each f b.parts s)
      (fun i s r => r.map Item.parts = each f i.parts s)
      (fun x s r => r.map Stmt.parts = each f x.parts s)
      fun c s r => r.map Clause.parts = each f c.parts s := by
  refine hw.runs .parts hf.within (fun e s => hf.done ?_ s) (fun p e s => hf.done rfl s) (fun d s => ?_) hfunc
  · cases e <;> rfl
  · exact ((each_singleton _ s).trans (congrArg (Step.map ([·])) (hvar d s))).symm

end Quiet

/-! ## Settling types -/

section UpdateTypes

variable {σ : Type} {f : TypeSpec → σ → Step σ TypeSpec Unit}

/-- Updates the types of a part. -/
def Part.updateTypes (f : TypeSpec → σ → Step σ TypeSpec Unit) : Part → σ → Step σ Part Unit
  | .var d, s =>
    if d.isForward then .done (.var d) s ()
    else (f d.type s).map fun t => .var { d with type := t }
  | .head h, s => (h.updateTypes f s).map .head
  | p, s => .done p s ()

theorem Part.quiet_updateTypes : Part.Quiet (Part.updateTypes f) := by
  intro p s hp
  cases p with
  | var | head => cases hp
  | _ => rfl

theorem Traversal.parts_updateTypes : (updateTypes f).Rules
    (fun b s r => r.map Block.parts = Step.each (Part.updateTypes f) b.parts s)
    (fun i s r => r.map Item.parts = Step.each (Part.updateTypes f) i.parts s)
    (fun x s r => r.map Stmt.parts = Step.each (Part.updateTypes f) x.parts s)
    fun c s r => r.map Clause.parts = Step.each (Part.updateTypes f) c.parts s := by
  refine Part.quiet_updateTypes.runs plain_updateTypes (fun d s => ?_) fun h body hbody s => ?_
  · show (if d.isForward then _ else _ : Step σ Part Unit) = (if d.isForward then _ else _ : Step σ _ Unit).map _
    split <;> rfl
  · show ((Item.func h body).updateTypes f s).map Item.parts = _
    unfold Item.updateTypes
    simp only [Item.parts, Step.map_andThen, Step.map_map]
    have hhead : (h.updateTypes f s).map (fun h => [Part.head h]) =
        Step.each (Part.updateTypes f) [.head h] s := by
      rw [Step.each_singleton]
      rfl
    have hrest : ∀ s, (body.updateTypes f s).map (fun b => b.parts ++ [Part.leave]) =
        Step.each (Part.updateTypes f) (body.parts ++ [.leave]) s := by
      intro s
      rw [Part.quiet_updateTypes.right rfl, ← hbody s]
      rfl
    exact Step.each_both hhead hrest

/-- **Settling types is a run along the parts.** -/
theorem Block.parts_updateTypes (b : Block) (s : σ) :
    (b.updateTypes f s).map Block.parts = Step.each (Part.updateTypes f) b.parts s :=
  Traversal.parts_updateTypes.forBlock b s

end UpdateTypes

/-! ## Parts without their types -/

/-- A type in the place of any other. -/
def TypeSpec.blank : TypeSpec := .simple .void (.point 0)

/-- A variable without its type. -/
def VarDecl.bare (d : VarDecl) : VarDecl := { d with type := .blank }

/-- A function head without its types. -/
def FuncHead.bare (h : FuncHead) : FuncHead :=
  { h with result := .blank, params := h.params.map VarDecl.bare }

/-- A part without its types. -/
def Part.bare : Part → Part
  | .var d => .var d.bare
  | .head h => .head h.bare
  | p => p

/-- What settling types leaves as it is in a part: all but the types, and how many there are. -/
def Part.outline (p : Part) : Part × Nat := (p.bare, p.types.length)

section Outline

open TypeSpec

variable {σ : Type} {f : TypeSpec → σ → Step σ TypeSpec Unit}

theorem VarDecl.bare_updateTypes (ds : List VarDecl) (s : σ) :
    (VarDecl.updateTypes f ds s).tree.map VarDecl.bare = ds.map VarDecl.bare := by
  induction ds generalizing s with
  | nil => rfl
  | cons d ds ih =>
      rw [VarDecl.updateTypes]
      refine Step.tree_andThen rfl (P := fun es : List VarDecl =>
        es.map VarDecl.bare = (d :: ds).map VarDecl.bare) fun _ => ?_
      rw [Step.map, List.map_cons, List.map_cons, ih]
      rfl

theorem FuncHead.bare_updateTypes (h : FuncHead) (s : σ) :
    (h.updateTypes f s).tree.bare = h.bare := by
  unfold FuncHead.updateTypes
  refine Step.tree_andThen (P := fun h' => FuncHead.bare h' = h.bare) rfl fun _ => ?_
  simp only [Step.map, FuncHead.bare, VarDecl.bare_updateTypes]

theorem FuncHead.length_types (h : FuncHead) : h.types.length = h.bare.params.length + 1 := by
  simp [FuncHead.types, FuncHead.bare]

/-- Settling types leaves the outline of a part as it is. -/
theorem Part.outline_updateTypes (hf : AddsNoName f) (p : Part) (s : σ) :
    (p.updateTypes f s).tree.outline = p.outline := by
  cases p with
  | var d =>
      rw [Part.updateTypes]
      split
      next => rfl
      next hd =>
        -- the declaration has one type, before and after
        have htypes : Item.types (.var { d with type := (f d.type s).tree }) =
            (Step.each f (Item.types (.var d)) s).tree :=
          congrArg Step.tree (VarDecl.types_updateType hf (Bool.eq_false_iff.mpr hd) s)
        have hone : (Item.types (.var { d with type := (f d.type s).tree })).length = 1 := by
          rw [htypes, Item.types, if_neg hd, Step.each_singleton]
          rfl
        have hone' : (Item.types (.var d)).length = 1 := by
          rw [Item.types, if_neg hd]
          rfl
        exact Prod.ext rfl (hone.trans hone'.symm)
  | head h =>
      have hbare := FuncHead.bare_updateTypes (f := f) h s
      refine Prod.ext (congrArg Part.head hbare) ?_
      show (h.updateTypes f s).tree.types.length = h.types.length
      rw [FuncHead.length_types, FuncHead.length_types, hbare]
  | _ => rfl

theorem Item.outline_updateTypes (hf : AddsNoName f) (i : Item) (s : σ) :
    (i.updateTypes f s).tree.parts.map Part.outline = i.parts.map Part.outline := by
  have hparts : (i.updateTypes f s).tree.parts = (Step.each (Part.updateTypes f) i.parts s).tree :=
    congrArg Step.tree (Traversal.parts_updateTypes.forItem i s)
  rw [hparts]
  exact Step.tree_each (Part.outline_updateTypes hf) i.parts s

/-- **Settling types changes nothing but types**, item by item. -/
theorem Block.outline_updateTypes (hf : AddsNoName f) (b : Block) (s : σ) :
    (b.updateTypes f s).tree.items.map (fun i => i.parts.map Part.outline) =
      b.items.map fun i => i.parts.map Part.outline := by
  obtain ⟨items, p⟩ := b
  unfold Block.updateTypes
  rw [Item.updateTypesOf_eq_each]
  exact Step.tree_each (Item.outline_updateTypes hf) items s

end Outline

/-! ## Numbering locals -/

section Allot

variable {c : Container}

/-- Gives a slot to the variable that a part declares; a function has no place inside of another. -/
def Part.allot (c : Container) : Part → List Variable → Step (List Variable) Part Unit
  | .var d, vars => (d.allot c vars).map .var
  | .head h, vars => .fail (.head h) vars h.span .nestedFunction
  | p, vars => .done p vars ()

theorem Part.quiet_allot : Part.Quiet (Part.allot c) := by
  intro p s hp
  cases p with
  | var | head => cases hp
  | _ => rfl

theorem Traversal.parts_allotLocals : (allotLocals c).Rules
    (fun b vars r => r.map Block.parts = Step.each (Part.allot c) b.parts vars)
    (fun i vars r => r.map Item.parts = Step.each (Part.allot c) i.parts vars)
    (fun x vars r => r.map Stmt.parts = Step.each (Part.allot c) x.parts vars)
    fun d vars r => r.map Clause.parts = Step.each (Part.allot c) d.parts vars := by
  refine Part.quiet_allot.runs plain_allotLocals (fun _ _ => rfl) fun h body _ vars => ?_
  -- a function inside of a function is refused, with all that stands in it
  show ((Item.func h body).allotLocals c vars).map Item.parts = _
  unfold Item.allotLocals
  rfl

/-- **Numbering locals is a run along the parts.** -/
theorem Block.parts_allotLocals (b : Block) (vars : List Variable) :
    (b.allotLocals c vars).map Block.parts = Step.each (Part.allot c) b.parts vars :=
  Traversal.parts_allotLocals.forBlock b vars

/-- Variables with the slots from a number on. -/
def VarDecl.numberFrom : Nat → List VarDecl → List VarDecl
  | _, [] => []
  | n, d :: ds => { d with slot := some n } :: numberFrom (n + 1) ds

/-- Parts whose named variables have the slots from a number on. -/
def Part.numberFrom : Nat → List Part → List Part
  | _, [] => []
  | n, p :: ps =>
    match p.declared? with
    | some d => .var { d with slot := some n } :: numberFrom (n + 1) ps
    | none => p :: numberFrom n ps

theorem Part.declared?_eq_some {p : Part} {d : VarDecl} (h : p.declared? = some d) :
    p = .var d ∧ d.name.isSome = true := by
  cases p with
  | var e =>
      unfold Part.declared? at h
      dsimp only at h
      split at h
      next hname => cases h; exact ⟨rfl, hname⟩
      next => cases h
  | _ => cases h

theorem Part.variables_numberFrom (n : Nat) (ps : List Part) :
    Part.variables (Part.numberFrom n ps) = VarDecl.numberFrom n (Part.variables ps) := by
  unfold Part.variables
  induction ps generalizing n with
  | nil => rfl
  | cons p ps ih =>
      rw [Part.numberFrom]
      cases hp : p.declared? with
      | some d =>
          have hname := (Part.declared?_eq_some hp).2
          have hnumbered : Part.declared? (.var { d with slot := some n }) =
              some { d with slot := some n } := if_pos hname
          dsimp only
          rw [List.filterMap_cons_some hnumbered, List.filterMap_cons_some hp, ih,
            VarDecl.numberFrom]
      | none =>
          dsimp only
          rw [List.filterMap_cons_none hp, List.filterMap_cons_none hp, ih]

theorem Part.declared?_bare (p : Part) : p.bare.declared? = p.declared?.map VarDecl.bare := by
  cases p with
  | var d =>
      unfold Part.bare Part.declared?
      dsimp only [VarDecl.bare]
      split <;> rfl
  | _ => rfl

theorem Part.heads_bare (ps : List Part) :
    (ps.map Part.bare).filterMap Part.head? = (ps.filterMap Part.head?).map FuncHead.bare := by
  rw [List.filterMap_map, List.map_filterMap]
  apply List.filterMap_congr
  intro p _
  cases p <;> rfl

/-- Slots do not depend on types. -/
theorem Part.bare_numberFrom (n : Nat) (ps : List Part) :
    (Part.numberFrom n ps).map Part.bare = Part.numberFrom n (ps.map Part.bare) := by
  induction ps generalizing n with
  | nil => rfl
  | cons p ps ih =>
      rw [List.map_cons, Part.numberFrom, Part.numberFrom, Part.declared?_bare]
      cases p.declared? with
      | some d => exact congrArg _ (ih (n + 1))
      | none => exact congrArg _ (ih n)

/-- Numbering a part gives the next slot to the variable it declares. -/
theorem Part.allot_eq_ok {p p' : Part} {vars vars' : List Variable}
    (h : p.allot c vars = ⟨p', vars', .ok ()⟩) :
    p.isHead = false ∧ ∀ ps, Part.numberFrom vars.length (p :: ps) =
      p' :: Part.numberFrom vars'.length ps := by
  cases p with
  | var d =>
      obtain ⟨d', hd, rfl⟩ := Step.map_eq_ok.mp h
      refine ⟨rfl, fun ps => ?_⟩
      rcases VarDecl.allot_eq_ok hd with ⟨hname, rfl, rfl⟩ | ⟨name, t, hname, _, rfl, rfl⟩
      · simp [Part.numberFrom, Part.declared?, hname]
      · simp [Part.numberFrom, Part.declared?, hname]
  | head head => simp [Part.allot] at h
  | _ =>
      obtain ⟨rfl, rfl, _⟩ := Step.done_eq_ok.mp h
      exact ⟨rfl, fun ps => rfl⟩

theorem Part.each_allot_eq_ok {ps ps' : List Part} {vars vars' : List Variable}
    (h : Step.each (Part.allot c) ps vars = ⟨ps', vars', .ok ()⟩) :
    (∀ p ∈ ps, p.isHead = false) ∧ ps' = Part.numberFrom vars.length ps := by
  induction ps generalizing ps' vars with
  | nil =>
      obtain ⟨rfl, rfl, _⟩ := Step.done_eq_ok.mp h
      exact ⟨by simp, rfl⟩
  | cons p ps ih =>
      obtain ⟨p', u, _, hp, h⟩ := Step.andThen_eq_ok.mp h
      obtain ⟨rest, hrest, rfl⟩ := Step.map_eq_ok.mp h
      obtain ⟨hhead, hnumber⟩ := Part.allot_eq_ok hp
      obtain ⟨hheads, rfl⟩ := ih hrest
      exact ⟨List.forall_mem_cons.mpr ⟨hhead, hheads⟩, (hnumber ps).symm⟩

/-- **Numbering the locals of a body gives them slots in their order** and changes nothing else. -/
theorem Block.allotLocals_eq_ok {b b' : Block} {vars vars' : List Variable}
    (h : b.allotLocals c vars = ⟨b', vars', .ok ()⟩) :
    (∀ p ∈ b.parts, p.isHead = false) ∧ b'.parts = Part.numberFrom vars.length b.parts := by
  have hrun : Step.each (Part.allot c) b.parts vars = ⟨b'.parts, vars', .ok ()⟩ := by
    rw [← Block.parts_allotLocals, h]
    rfl
  exact Part.each_allot_eq_ok hrun

theorem VarDecl.allotParams_eq_ok {ds ds' : List VarDecl} {vars vars' : List Variable}
    (h : VarDecl.allotParams c ds vars = ⟨ds', vars', .ok ()⟩) :
    (∀ d ∈ ds, d.name.isSome = true) ∧ ds' = VarDecl.numberFrom vars.length ds ∧
      vars'.length = vars.length + ds.length := by
  induction ds generalizing ds' vars with
  | nil =>
      obtain ⟨rfl, rfl, _⟩ := Step.done_eq_ok.mp h
      exact ⟨by simp, rfl, rfl⟩
  | cons d ds ih =>
      unfold VarDecl.allotParams at h
      split at h
      next hsome =>
        obtain ⟨d', u, _, hd, h⟩ := Step.andThen_eq_ok.mp h
        obtain ⟨rest, hrest, rfl⟩ := Step.map_eq_ok.mp h
        obtain ⟨hnames, rfl, hlength⟩ := ih hrest
        rcases VarDecl.allot_eq_ok hd with ⟨hn, _, _⟩ | ⟨name, t, hn, _, rfl, rfl⟩
        · simp [hn] at hsome
        · rw [List.length_append, List.length_singleton] at hlength ⊢
          refine ⟨List.forall_mem_cons.mpr ⟨hsome, hnames⟩, rfl, ?_⟩
          rw [hlength, List.length_cons]
          omega
      next => simp at h

end Allot

end Jaf
