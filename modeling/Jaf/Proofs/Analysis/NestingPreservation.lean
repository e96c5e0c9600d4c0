import Jaf.Analysis
import Jaf.Proofs.Analysis.TableNumbers
import Jaf.Proofs.Analysis.TypeRules
import Jaf.Proofs.Parser.TreePlaces

/-!
# Analysis keeps places nested

Analysis writes types, numbers and slots into a tree and replaces constant expressions by their values. A
value takes the place of the operator it comes from. A conditional may give way to one of its branches, and
a comma list to its last item, so folding can leave a smaller place than there was, and a shorter row. No
step moves anything outward: what a pass leaves may stand where the old node stood (`Node.Narrows`), for each
of the three passes and hence for the whole analysis.
-/

namespace Jaf

open Node

/-! ## Folding -/

namespace Node.Narrows

variable {n c : Node} {e e' : Expr} {note : Note}

/-- A node may give way to one of its children. -/
theorem child (hn : ∀ d, n ≠ .var d) (hc : c ∈ n.children) : n.Narrows c := by
  intro hnested
  obtain ⟨hstart, hstop⟩ := hnested.row.within c hc
  exact ⟨hnested.row.nested c hc, hstart, hstop, fun d hd => absurd hd (hn d)⟩

theorem operand (hc : .expr e' ∈ e.children) : Narrows (.expr e) (.expr e') :=
  child (fun _ hd => by cases hd) hc

/-- An expression may give way to a value. -/
theorem value {v : Value} (hspan : e.span = note.span) : Narrows (.expr e) (.expr (v.toExpr note)) := by
  refine of_row ?_ (fun _ => ?_) fun _ _ hd => by cases hd
  · cases v <;> exact hspan.symm
  · cases v <;> exact .nil

/-- An operator may give way to its value, or stay. -/
theorem orKeep {v : Option Value} (hspan : e.span = note.span) (h : Narrows (.expr e) (.expr e')) :
    Narrows (.expr e) (.expr (Expr.orKeep note v e')) :=
  Expr.orKeep_cases (P := fun x => Narrows (.expr e) (.expr x)) (fun _ _ => value hspan) h

end Node.Narrows

namespace Expr

theorem narrows_exprs {es fs : List Expr}
    (h : List.Forall₂ (fun e e' => Narrows (.expr e) (.expr e')) es fs) :
    List.Forall₂ Narrows (es.map .expr) (fs.map .expr) :=
  List.forall₂_map_left_iff.mpr (List.forall₂_map_right_iff.mpr h)

/-- What is left of a comma list may stand where the list stood. -/
theorem narrows_ofItems (n : Note) (es : List Expr) :
    Narrows (.expr (comma n es)) (.expr (ofItems n (effective es))) := by
  have hsub : Narrows (.expr (comma n es)) (.expr (comma n (effective es))) :=
    .of_row rfl (fun hn => hn.row.sublist ((effective_sublist es).map _)) fun _ _ hd => by cases hd
  rcases ofItems_cases n (effective es) with ⟨e, heq, hitem⟩ | hitem
  · rw [hitem]
    refine hsub.trans (.operand ?_)
    rw [heq]
    exact List.mem_singleton.mpr rfl
  · rw [hitem]
    exact hsub

theorem narrows_foldList {es : List Expr} (h : ∀ e ∈ es, Narrows (.expr e) (.expr e.fold)) :
    List.Forall₂ Narrows (es.map .expr) ((foldList es).map .expr) := by
  rw [foldList_eq_map]
  exact narrows_exprs (List.forall₂_map_right_iff.mpr (List.forall₂_same.mpr h))

/-- A folded expression may stand where the expression stood. -/
theorem narrows_fold (e : Expr) : Narrows (.expr e) (.expr e.fold) := by
  induction e using induct with
  | int | float | string | ident => rw [fold]; exact .refl _
  | unary n op e ih =>
      rw [fold]
      exact .orKeep rfl (.expr rfl (.cons ih .nil))
  | cast n t e ih =>
      rw [fold]
      exact .orKeep rfl (.expr rfl (.cons ih .nil))
  | binary n op l r hl hr =>
      rw [fold]
      exact .orKeep rfl (.expr rfl (.cons hl (.cons hr .nil)))
  | assign n op t v ht hv =>
      rw [fold]
      exact .expr rfl (.cons ht (.cons hv .nil))
  | member n o f p ih =>
      rw [fold]
      exact .expr rfl (.cons ih .nil)
  | call n name es k ih =>
      rw [fold]
      exact .expr rfl (narrows_foldList ih)
  | comma n es ih =>
      rw [fold]
      have hitems : Narrows (.expr (.comma n es)) (.expr (.comma n (foldList es))) :=
        .expr rfl (narrows_foldList ih)
      exact hitems.trans (narrows_ofItems n (foldList es))
  | ternary n c y o hc hy ho =>
      rcases fold_ternary (n := n) (c := c) (y := y) (o := o) with ⟨m, v, _, hfold⟩ | hfold
      · rw [hfold]
        split
        · exact .trans (.operand (List.mem_cons_of_mem _ (List.mem_cons_of_mem _ List.mem_cons_self))) ho
        · exact .trans (.operand (List.mem_cons_of_mem _ List.mem_cons_self)) hy
      · rw [hfold]
        exact .expr rfl (.cons hc (.cons hy (.cons ho .nil)))

end Expr

/-! ## Types of expressions -/

namespace Expr

/-- Erasing notes moves nothing, and nor does writing them. -/
theorem narrows_erase (e : Expr) : Narrows (.expr e) (.expr e.erase) ∧ Narrows (.expr e.erase) (.expr e) := by
  have hlist : ∀ {es : List Expr},
      (∀ e ∈ es, Narrows (.expr e) (.expr e.erase) ∧ Narrows (.expr e.erase) (.expr e)) →
      List.Forall₂ Narrows (es.map .expr) ((eraseAll es).map .expr) ∧
        List.Forall₂ Narrows ((eraseAll es).map .expr) (es.map .expr) := by
    intro es h
    induction es with
    | nil => exact ⟨.nil, .nil⟩
    | cons e es ih =>
        obtain ⟨he, hes⟩ := List.forall_mem_cons.mp h
        exact ⟨.cons he.1 (ih hes).1, .cons he.2 (ih hes).2⟩
  induction e using induct with
  | int | float | string | ident => exact ⟨.expr rfl .nil, .expr rfl .nil⟩
  | unary _ _ _ h | cast _ _ _ h | member _ _ _ _ h =>
      exact ⟨.expr rfl (.cons h.1 .nil), .expr rfl (.cons h.2 .nil)⟩
  | binary _ _ _ _ hl hr | assign _ _ _ _ hl hr =>
      exact ⟨.expr rfl (.cons hl.1 (.cons hr.1 .nil)), .expr rfl (.cons hl.2 (.cons hr.2 .nil))⟩
  | ternary _ _ _ _ hc hy ho =>
      exact ⟨.expr rfl (.cons hc.1 (.cons hy.1 (.cons ho.1 .nil))),
        .expr rfl (.cons hc.2 (.cons hy.2 (.cons ho.2 .nil)))⟩
  | call _ _ _ _ h | comma _ _ h => exact ⟨.expr rfl (hlist h).1, .expr rfl (hlist h).2⟩

/-- Deriving types moves nothing. -/
theorem narrows_infer {env : Lookup} {e x : Expr} {t : ValueType} (h : e.infer env = ⟨x, .ok t⟩) :
    Narrows (.expr e) (.expr x) := by
  have hx := (narrows_erase x).2
  rw [erase_of_infer h] at hx
  exact (narrows_erase e).1.trans hx

end Expr

/-! ## Types -/

/-- A step that, if it succeeds, leaves a node for the place of the given one. -/
def Step.Narrows {σ τ α : Type} (r : Step σ τ α) (n : Node) (node : τ → Node) : Prop :=
  r.Ends (fun t _ _ => n.Narrows (node t)) fun _ _ => True

/-- The same for a row of nodes. -/
def Step.NarrowsAll {σ τ α : Type} (r : Step σ τ α) (ns : List Node) (nodes : τ → List Node) : Prop :=
  r.Ends (fun t _ _ => List.Forall₂ Node.Narrows ns (nodes t)) fun _ _ => True

section Steps

variable {σ τ υ α : Type} {r : Step σ τ α} {n n' : Node} {ns : List Node} {wrap : τ → υ}

/-- A larger node around the one that a step leaves. -/
theorem Step.Narrows.map {node : τ → Node} {node' : υ → Node} (h : r.Narrows n node)
    (hwrap : ∀ t, n.Narrows (node t) → n'.Narrows (node' (wrap t))) : (r.map wrap).Narrows n' node' :=
  ⟨fun a ha => hwrap r.tree (h.ok a ha), fun _ _ => trivial⟩

theorem Step.Narrows.option {r : Step σ Expr α} {e : Expr} (h : r.Narrows (.expr e) .expr) :
    (r.map some).NarrowsAll (ofOption (some e)) ofOption :=
  ⟨fun a ha => .cons (h.ok a ha) .nil, fun _ _ => trivial⟩

/-- A node around the row that a step leaves. -/
theorem Step.NarrowsAll.map {nodes : τ → List Node} {node : υ → Node} (h : r.NarrowsAll ns nodes)
    (hwrap : ∀ t, List.Forall₂ Node.Narrows ns (nodes t) → n.Narrows (node (wrap t))) :
    (r.map wrap).Narrows n node :=
  ⟨fun a ha => hwrap r.tree (h.ok a ha), fun _ _ => trivial⟩

/-- One more node in front of the row that a step leaves. -/
theorem Step.NarrowsAll.cons {nodes : τ → List Node} {nodes' : υ → List Node} (h : r.NarrowsAll ns nodes)
    (hn : n.Narrows n') (hcons : ∀ t, nodes' (wrap t) = n' :: nodes t) :
    (r.map wrap).NarrowsAll (n :: ns) nodes' := by
  refine Ends.map ⟨fun a ha => ?_, fun _ _ => trivial⟩
  rw [hcons]
  exact .cons hn (h.ok a ha)

end Steps

/-- A type at the same place that may stand for another one. -/
structure TypeSpec.Stays (t t' : TypeSpec) : Prop where
  span : t'.span = t.span
  narrows : Narrows (.type t) (.type t')

/-- Only the place and the members of a type matter. -/
theorem TypeSpec.stays_of_members {t t' : TypeSpec} (hspan : t'.span = t.span)
    (h : List.Forall₂ Narrows ((t.members.getD []).map .var) ((t'.members.getD []).map .var)) : t.Stays t' :=
  ⟨hspan, .type hspan h⟩

/-! ## Going through a program -/

theorem Node.narrows_refl (ns : List Node) : List.Forall₂ Narrows ns ns :=
  List.forall₂_same.mpr fun n _ => .refl n

/-- A statement may give way to one with other clauses if its clauses may. -/
theorem Stmt.narrows_withClauses {x : Stmt} {cs : List Clause}
    (h : List.Forall₂ (fun c d => List.Forall₂ Narrows c.nodes d.nodes) x.clauses cs) :
    Narrows (.stmt x) (.stmt (x.withClauses cs)) := by
  have hrow : List.Forall₂ Narrows (x.clauses.flatMap Clause.nodes) (cs.flatMap Clause.nodes) :=
    List.rel_flatMap h fun _ _ hnodes => hnodes
  fun_cases Stmt.withClauses x cs
  case case5 =>
    -- the body of a `do` loop is written before the condition
    obtain _ | ⟨he, _ | ⟨hx, _⟩⟩ := h
    exact .stmt rfl (List.rel_append hx he)
  case case12 => exact .stmt rfl (List.forall₂_cons.mp h).1
  case case13 => exact .refl _
  all_goals exact .stmt rfl hrow

/-- **A pass moves nothing outward if it does not do so at declarations and expressions.** -/
theorem Traversal.narrows {σ : Type} {w : Traversal σ} (hvar : ∀ d s, (w.var d s).Narrows (.var d) .var)
    (hvalue : ∀ e s, (w.value e s).NarrowsAll (ofOption e) ofOption)
    (hresult : ∀ p e s, (w.result p e s).NarrowsAll (ofOption e) ofOption)
    (hfunc : ∀ h body, (∀ s, (w.block body s).Narrows (.block body) .block) →
      ∀ s, (w.item (.func h body) s).Narrows (.func h body) ofItem) :
    w.Rules (fun b _ r => r.Narrows (.block b) .block) (fun i _ r => r.Narrows (ofItem i) ofItem)
      (fun x _ r => r.Narrows (.stmt x) .stmt) fun c _ r => r.NarrowsAll c.nodes Clause.nodes where
  block items p hitems s := by
    refine Step.Ends.map ((Step.Ends.forall₂_each hitems s).mono (fun is _ _ his => .block ?_) fun _ _ he => he)
    exact List.forall₂_map_left_iff.mpr (List.forall₂_map_right_iff.mpr his)
  var d s := (hvar d s).map fun _ hd => hd
  func := hfunc
  stmt x hx s := (hx s).map fun _ hx => hx
  value e s := Step.Ends.map (hvalue e s)
  result p e s := Step.Ends.map (hresult p e s)
  scope b hb s := by
    obtain ⟨s', f, hwithin⟩ := w.within_eq s
    rw [hwithin]
    exact Step.Ends.map (.mapState ((hb s').mono (fun _ _ _ hb => .cons hb .nil) fun _ _ he => he))
  opening b hb s := Step.Ends.map ((hb s).mono (fun _ _ _ hb => .cons hb .nil) fun _ _ he => he)
  inner x hx s := Step.Ends.map ((hx s).mono (fun _ _ _ hx => .cons hx .nil) fun _ _ he => he)
  clauses x hclauses s := by
    have hrun : (w.clauses x s).Ends (fun cs _ _ =>
        List.Forall₂ (fun c d => List.Forall₂ Narrows c.nodes d.nodes) x.clauses cs) fun _ _ => True := by
      unfold Pass.clauses
      split
      · obtain ⟨s', f, hwithin⟩ := w.within_eq s
        rw [hwithin]
        exact .mapState (Step.Ends.forall₂_each hclauses s')
      · exact Step.Ends.forall₂_each hclauses s
    exact Step.Ends.map (hrun.mono (fun cs _ _ hcs => Stmt.narrows_withClauses hcs) fun _ _ he => he)

/-! ## Types -/

theorem VarDecl.narrows_type {d : VarDecl} {t : TypeSpec} (h : d.type.Stays t) :
    Narrows (.var d) (.var { d with type := t }) :=
  .var rfl h.span h.narrows (List.forall₂_same.mpr fun n _ => .refl n)

mutual

/-- Kinds and struct numbers have no places. -/
theorem TypeSpec.stays_of_bare : ∀ {t t' : TypeSpec}, t'.bare = t.bare → t.Stays t'
  | ⟨_, _, _, none, _⟩, ⟨_, _, _, none, _⟩, h => by
    obtain ⟨_, _, _, _, hspan⟩ := TypeSpec.mk.inj h
    exact TypeSpec.stays_of_members hspan .nil
  | ⟨_, _, _, some _, _⟩, ⟨_, _, _, some _, _⟩, h => by
    obtain ⟨_, _, _, hmembers, hspan⟩ := TypeSpec.mk.inj h
    exact TypeSpec.stays_of_members hspan (VarDecl.narrows_of_bareAll (Option.some.inj hmembers))
  | ⟨_, _, _, none, _⟩, ⟨_, _, _, some _, _⟩, h => nomatch congrArg TypeSpec.members h
  | ⟨_, _, _, some _, _⟩, ⟨_, _, _, none, _⟩, h => nomatch congrArg TypeSpec.members h

theorem VarDecl.narrows_of_bareAll : ∀ {ds ds' : List VarDecl}, VarDecl.bareAll ds' = VarDecl.bareAll ds →
    List.Forall₂ Narrows (ds.map .var) (ds'.map .var)
  | [], [], _ => .nil
  | ⟨_, _, _, _, _⟩ :: _, ⟨_, t', _, _, _⟩ :: _, h => by
    unfold VarDecl.bareAll at h
    obtain ⟨hd, hds⟩ := List.cons.inj h
    obtain ⟨rfl, ht, rfl, rfl, rfl⟩ := VarDecl.mk.inj hd
    exact .cons (VarDecl.narrows_type (TypeSpec.stays_of_bare ht)) (VarDecl.narrows_of_bareAll hds)
  | [], ⟨_, _, _, _, _⟩ :: _, h => nomatch h
  | ⟨_, _, _, _, _⟩ :: _, [], h => nomatch h

end

section Walk

variable {f : TypeSpec → Session → Step Session TypeSpec Unit}

theorem FuncHead.narrows_updateTypes (hf : TypeSpec.Modest f) (h : FuncHead) (s : Session) :
    (h.updateTypes f s).Ends (fun h' _ _ => ∀ body body', Narrows (.block body) (.block body') →
      Narrows (.func h body) (.func h' body')) fun _ _ => True := by
  refine .of_eq_ok fun h' _ s' hok body body' hbody => ?_
  obtain ⟨t, u, _, ht, hok⟩ := Step.andThen_eq_ok.mp hok
  obtain ⟨ds, hds, rfl⟩ := Step.map_eq_ok.mp hok
  have hparams := VarDecl.updateTypes_keeps hf h.params hds
  exact .func rfl (TypeSpec.stays_of_bare (hf ht).1).narrows (VarDecl.narrows_of_bareAll hparams.1) hbody

/-- Settling types moves nothing. -/
theorem Block.narrows_updateTypes (hf : TypeSpec.Modest f) (b : Block) (s : Session) :
    (b.updateTypes f s).Narrows (.block b) .block := by
  refine (Traversal.narrows (w := .updateTypes f) (fun d s => ?_) (fun e s => .done (Node.narrows_refl _))
    (fun p e s => .done (Node.narrows_refl _)) fun h body hbody s => ?_).forBlock b s
  · show Step.Narrows (if d.isForward then _ else _) _ _
    split
    · exact .done (.refl _)
    · exact Step.Ends.map (.of_eq_ok fun t _ s' ht => VarDecl.narrows_type (TypeSpec.stays_of_bare (hf ht).1))
  · show ((Item.func h body).updateTypes f s).Narrows (.func h body) ofItem
    unfold Item.updateTypes
    exact (FuncHead.narrows_updateTypes hf h s).andThen fun _ _ s hh =>
      (hbody s).map fun _ hbody => hh _ _ hbody

end Walk

theorem Block.narrows_bindTypes (b : Block) (s : Session) : (b.bindTypes s).Narrows (.block b) .block := by
  unfold Block.bindTypes
  refine (Block.narrows_updateTypes TypeSpec.modest_registerNew b s).andThen fun b' _ s' hb => ?_
  refine (Block.narrows_updateTypes TypeSpec.modest_bind b' s').mono ?_ ?_
  · exact fun _ _ _ hb' => hb.trans hb'
  · exact fun _ _ h => h

/-! ## Numbers -/

theorem VarDecl.narrows_slot (d : VarDecl) (n : Nat) : Narrows (.var d) (.var { d with slot := some n }) :=
  .var rfl rfl (.refl _) (List.forall₂_same.mpr fun n _ => .refl n)

theorem VarDecl.narrows_allot (c : Container) (d : VarDecl) (vars : List Variable) :
    (d.allot c vars).Narrows (.var d) .var := by
  unfold VarDecl.allot
  split
  · exact .done (.refl _)
  · dsimp only
    split
    · exact .done (d.narrows_slot _)
    · exact .failed trivial

theorem VarDecl.narrows_allotParams (c : Container) : ∀ (ds : List VarDecl) (vars : List Variable),
    (VarDecl.allotParams c ds vars).NarrowsAll (ds.map .var) fun ds => ds.map .var := by
  intro ds
  induction ds with
  | nil =>
      intro vars
      unfold VarDecl.allotParams
      exact .done .nil
  | cons d ds ih =>
      intro vars
      unfold VarDecl.allotParams
      split
      · exact (VarDecl.narrows_allot c d vars).andThen fun _ _ vars hd => (ih vars).cons hd fun _ => rfl
      · exact .fail trivial

/-- Handing out slots moves nothing. -/
theorem Block.narrows_allotLocals (c : Container) (b : Block) (vars : List Variable) :
    (b.allotLocals c vars).Narrows (.block b) .block := by
  refine (Traversal.narrows (w := .allotLocals c) (VarDecl.narrows_allot c)
    (fun e s => .done (Node.narrows_refl _)) (fun p e s => .done (Node.narrows_refl _))
    fun h body _ vars => ?_).forBlock b vars
  show ((Item.func h body).allotLocals c vars).Narrows (.func h body) ofItem
  unfold Item.allotLocals
  exact .fail trivial

theorem FuncHead.narrows_allot (h : FuncHead) (body : Block) (s : Session) :
    (h.allot body s).Narrows (.func h body) fun t => .func t.1 t.2 := by
  refine .of_eq_ok fun p _ s' hs => ?_
  obtain ⟨_, _, _, _, _, _, _, hparams, hbody, rfl, _⟩ := FuncHead.allot_eq_ok hs
  exact .func rfl (.refl _) ((VarDecl.narrows_allotParams _ _ _).eq_ok hparams)
    ((Block.narrows_allotLocals _ _ _).eq_ok hbody)

theorem VarDecl.narrows_allotGlobal (d : VarDecl) (s : Session) : (d.allotGlobal s).Narrows (.var d) .var := by
  unfold VarDecl.allotGlobal
  split
  · exact .done (.refl _)
  · split
    · exact .fail trivial
    · split
      · exact .failed trivial
      · exact .done (d.narrows_slot _)

theorem Item.narrows_allot (i : Item) (s : Session) : (i.allot s).Narrows (ofItem i) ofItem := by
  cases i with
  | var d => exact (VarDecl.narrows_allotGlobal d s).map fun _ h => h
  | func h body => exact ⟨(FuncHead.narrows_allot h body s).ok, fun _ _ => trivial⟩
  | stmt x => exact .done (.refl _)

theorem Item.narrows_allotAll : ∀ (is : List Item) (s : Session),
    (Item.allotAll is s).NarrowsAll (is.map ofItem) fun is => is.map ofItem := by
  intro is
  induction is with
  | nil => exact fun s => .done .nil
  | cons i is ih =>
      intro s
      exact (Item.narrows_allot i s).andThen fun _ _ s hi => (ih s).cons hi fun _ => rfl

theorem Block.narrows_allot (b : Block) (s : Session) : (b.allot s).Narrows (.block b) .block := by
  obtain ⟨items, place⟩ := b
  exact (Item.narrows_allotAll items s).map fun _ h => .block h

/-! ## Checks -/

theorem Expr.narrows_check (e : Expr) (k : Checker) : (e.check k).Narrows (.expr e) .expr := by
  unfold Expr.check
  split
  next e' t hinfer => exact .done ((Expr.narrows_infer hinfer).trans (Expr.narrows_fold e'))
  next => exact .failed trivial

theorem Expr.narrows_checkTyped (e : Expr) (expected : ValueType) (k : Checker) :
    (e.checkTyped expected k).Narrows (.expr e) .expr :=
  (Expr.narrows_check e k).andThen fun _ _ _ he => .ofResult (fun _ _ => he) fun _ _ => trivial

theorem Expr.narrows_checkOption (e : Option Expr) (k : Checker) :
    (Expr.checkOption e k).NarrowsAll (ofOption e) ofOption := by
  cases e with
  | none => exact .done .nil
  | some e => exact (Expr.narrows_check e k).option

theorem Expr.narrows_checkReturn (e : Option Expr) (p : Span) (k : Checker) :
    (Expr.checkReturn e p k).NarrowsAll (ofOption e) ofOption := by
  unfold Expr.checkReturn
  split
  · exact .failed trivial
  next f _ =>
    cases e with
    | none =>
        dsimp only
        split
        · exact .done .nil
        · exact .fail trivial
    | some e => exact (Expr.narrows_checkTyped e f.result.valueType k).option

theorem Expr.narrows_checkInitval (e : Expr) (name : String) (slot : Nat) (expected : ValueType)
    (k : Checker) : (e.checkInitval name slot expected k).Narrows (.expr e) .expr := by
  refine (Expr.narrows_checkTyped e expected k).andThen fun e' _ k' he => ?_
  split
  · exact .done he
  · exact .fail trivial

theorem VarDecl.narrows_init {d : VarDecl} {e e' : Expr} (hinit : d.init = some e)
    (h : Narrows (.expr e) (.expr e')) : Narrows (.var d) (.var { d with init := some e' }) := by
  refine .var rfl rfl (.refl _) ?_
  rw [hinit]
  exact .cons h .nil

theorem VarDecl.narrows_checkGlobal (d : VarDecl) (k : Checker) : (d.checkGlobal k).Narrows (.var d) .var := by
  unfold VarDecl.checkGlobal
  split
  · exact .done (.refl _)
  · exact .fail trivial
  · exact .done (.refl _)
  next hinit =>
    split
    · exact .fail trivial
    · exact (Expr.narrows_checkInitval _ _ _ _ k).map fun _ he => VarDecl.narrows_init hinit he

theorem VarDecl.narrows_checkInit (d : VarDecl) (slot : Nat) (k : Checker) :
    (d.checkInit slot k).Narrows (.var d) .var := by
  unfold VarDecl.checkInit
  split
  · exact .done (.refl _)
  next hinit =>
    split
    · exact .failed trivial
    · exact (Expr.narrows_checkTyped _ _ k).map fun _ he => VarDecl.narrows_init hinit he

theorem VarDecl.narrows_checkLocal (d : VarDecl) (k : Checker) : (d.checkLocal k).Narrows (.var d) .var := by
  unfold VarDecl.checkLocal
  split
  · exact .done (.refl _)
  · exact .fail trivial
  · refine (VarDecl.narrows_checkInit d _ k).andThen fun _ _ _ hd => ?_
    split
    · exact .done hd
    · exact .failed trivial

theorem VarDecl.narrows_check (d : VarDecl) (k : Checker) : (d.check k).Narrows (.var d) .var := by
  unfold VarDecl.check
  split
  · exact VarDecl.narrows_checkGlobal d k
  · exact VarDecl.narrows_checkLocal d k

/-- Checking moves nothing outward. -/
theorem Block.narrows_check (b : Block) (k : Checker) : (b.check k).Narrows (.block b) .block := by
  refine (Traversal.narrows (w := .check) VarDecl.narrows_check Expr.narrows_checkOption
    (fun p e => Expr.narrows_checkReturn e p) fun h body hbody k => ?_).forBlock b k
  show ((Item.func h body).check k).Narrows (.func h body) ofItem
  rcases Item.check_func h k with ⟨e, herror⟩ | ⟨n, f, _, _, hchecked⟩
  · rw [herror]
    exact .failed trivial
  · rw [hchecked]
    refine Step.Ends.map (.mapState ((hbody _).mono (fun body' _ _ hbody => ?_) fun _ _ he => he))
    exact .func rfl (.refl _) (Node.narrows_refl _) hbody

/-! ## Whole programs -/

/-- What a successful analysis leaves may stand where the parsed program stood. -/
theorem Block.narrows_analyse (b : Block) (s : Session) : (b.analyse s).Narrows (.block b) .block := by
  unfold Block.analyse
  refine (Block.narrows_bindTypes b s).andThen fun b₁ _ s₁ hb₁ => ?_
  refine (Block.narrows_allot b₁ _).andThen fun b₂ _ s₂ hb₂ => ?_
  dsimp only
  generalize s₂.note _ = s₂
  have hcheck : (b₂.checkProgram s₂).Narrows (.block b₂) .block := Block.narrows_check b₂ _
  refine Step.Ends.andThen (P := fun b₃ _ _ => Narrows (.block b₂) (.block b₃)) ?_ fun b₃ _ s₃ hb₃ => ?_
  · exact .ofResult hcheck.ok fun _ _ => trivial
  · exact .done ((Narrows.trans hb₁ hb₂).trans hb₃)

/--
**Places nest.** In the tree of a script, every node has a place that starts before it ends and ends within the
script. It covers the places of the children, and these follow one another in the order of the script, but
for the declarators of one declaration, which begin together. All of this still holds of the tree that a
successful analysis leaves, with its constants folded.
-/
theorem Block.places_nest {source : String} {b : Block} (h : Block.parse source = .ok b) :
    (∀ n, (Node.block b).Has n → n.WellPlaced source.utf8ByteSize) ∧
      ∀ s : Session, (b.analyse s).result = .ok () →
        ∀ n, (Node.block (b.analyse s).tree).Has n → n.WellPlaced source.utf8ByteSize := by
  have hrow := Block.row_of_parse h
  have hstop := hrow.bounds.2.2
  refine ⟨fun n hn => hrow.head_nested.wellPlaced hn hstop, fun s hs n hn => ?_⟩
  have hnarrower := (Block.narrows_analyse b s).ok () hs hrow.head_nested
  exact hnarrower.nested.wellPlaced hn (Nat.le_trans hnarrower.stop hstop)

/-- A program with declarators that share a type, and with a comma list and a conditional that fold. -/
def layered : String :=
  "struct S \x7b int x, y; \x7d s, t; int f(int a) \x7b return 0 ? a : (7, +a); \x7d"

set_option maxRecDepth 100000 in
theorem Block.places_nest_layered :
    ∃ b, Block.parse layered = .ok b ∧ (b.analyse (.ofContainer (.empty 4))).result = .ok () ∧
      (∀ n, (Node.block b).Has n → n.WellPlaced 69) ∧
        ∀ n, (Node.block (b.analyse (.ofContainer (.empty 4))).tree).Has n → n.WellPlaced 69 := by
  obtain ⟨b, hparse, hrun⟩ := Block.exists_of_chars layered
    (fun b => (b.analyse (.ofContainer (.empty 4))).result.isOk) rfl (by decide +kernel)
  have hlength : layered.utf8ByteSize = 69 := by decide +kernel
  have hok := congrArg Step.result (Step.eq_of_isOk hrun)
  have hnest := Block.places_nest hparse
  rw [hlength] at hnest
  exact ⟨b, hparse, hok, hnest.1, hnest.2 _ hok⟩

end Jaf
