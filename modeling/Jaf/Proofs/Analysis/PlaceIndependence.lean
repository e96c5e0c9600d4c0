import Jaf.Proofs.Analysis.Traversals
import Jaf.Proofs.Analysis.UnseenState
import Jaf.Proofs.Tree.Relocation

/-!
# Analysis elsewhere

Analysis copies the places of a tree into the errors that it reports, and that is all that it does with
them: no place ever gets into a table, and none decides anything. In the same way it never looks at the
second names that it writes into the tables. So a program can be moved to other places and its session
changed in a way that analysis takes no notice of (`Session.Unnoticed`), before a pass or after it: the two
commute, whether the pass succeeds or fails. `Relocation.carry` says what moving and changing does to a step,
and sequences of steps are taken apart by `Relocation.carry_andThen`.

This file is about the two passes that settle types (`Block.bindTypes_moved`) and hand out numbers
(`Block.allot_moved`).
-/

namespace Jaf

namespace Relocation

variable {σ τ υ α β : Type} (M : Relocation)

/-- An error elsewhere. -/
def error (e : SemanticError) : SemanticError := ⟨M.place e.span, e.cause⟩

/-- A result whose error is elsewhere. -/
def result (r : Except SemanticError α) : Except SemanticError α := r.mapError M.error

/-- A step elsewhere, with its tree, its state and its value changed. -/
def carry (g : σ → σ) (f : τ → τ) (v : α → α) (r : Step σ τ α) : Step σ τ α :=
  ⟨f r.tree, g r.state, M.result (r.result.map v)⟩

/-- A step elsewhere, with its tree and its state changed. -/
abbrev step (g : σ → σ) (f : τ → τ) (r : Step σ τ α) : Step σ τ α := M.carry g f id r

/-- The update of a type commutes with moving. -/
def Passes (g : σ → σ) (f : TypeSpec → σ → Step σ TypeSpec Unit) : Prop :=
  ∀ t s, f (M.type t) (g s) = M.step g M.type (f t s)

variable {M} {g : σ → σ} {f : τ → τ} {f' : υ → υ} {v : α → α} {v' : β → β} {r : Step σ τ α}

theorem carry_map {wrap wrap' : τ → υ} (h : ∀ t, wrap' (f t) = f' (wrap t)) :
    (M.carry g f v r).map wrap' = M.carry g f' v (r.map wrap) := by
  unfold Step.map carry
  rw [h]

theorem carry_andThen {wrap wrap' : τ → υ} {next next' : τ → α → σ → Step σ υ β}
    (hwrap : ∀ t, wrap' (f t) = f' (wrap t))
    (hnext : ∀ t a s, next' (f t) (v a) (g s) = M.carry g f' v' (next t a s)) :
    (M.carry g f v r).andThen wrap' next' = M.carry g f' v' (r.andThen wrap next) := by
  obtain ⟨t, s, result⟩ := r
  cases result with
  | ok a => exact hnext t a s
  | error e => exact congrArg (Step.mk · (g s) (.error (M.error e))) (hwrap t)

theorem step_each {step step' : τ → σ → Step σ τ Unit} {ts : List τ}
    (h : ∀ t ∈ ts, ∀ s, step' (f t) (g s) = M.step g f (step t s)) (s : σ) :
    Step.each step' (ts.map f) (g s) = M.step g (List.map f) (Step.each step ts s) := by
  induction ts generalizing s with
  | nil => rfl
  | cons t ts ih =>
      obtain ⟨ht, hts⟩ := List.forall_mem_cons.mp h
      rw [List.map_cons, Step.each, Step.each, ht]
      refine carry_andThen (fun _ => rfl) fun t' _ s' => ?_
      rw [ih hts]
      exact carry_map fun _ => rfl

/--
**A pass commutes with moving if it does at declarations and expressions.** The pass elsewhere may be another
one, as it may use other tables.
-/
theorem moved (w w' : Traversal σ)
    (hvar : ∀ d s, w'.var (M.decl d) (g s) = M.step g M.decl (w.var d s))
    (hvalue : ∀ e s, w'.value (e.map M.expr) (g s) = M.step g (Option.map M.expr) (w.value e s))
    (hresult : ∀ p e s,
      w'.result (M.place p) (e.map M.expr) (g s) = M.step g (Option.map M.expr) (w.result p e s))
    (hwithin : ∀ {τ : Type} {f : τ → τ} {step step' : σ → Step σ τ Unit},
      (∀ s, step' (g s) = M.step g f (step s)) → ∀ s, w'.within step' (g s) = M.step g f (w.within step s))
    (hfunc : ∀ h body, (∀ s, w'.block (M.block body) (g s) = M.step g M.block (w.block body s)) →
      ∀ s, w'.item (M.item (.func h body)) (g s) = M.step g M.item (w.item (.func h body) s)) :
    w.Rules (fun b s r => w'.block (M.block b) (g s) = M.step g M.block r)
      (fun i s r => w'.item (M.item i) (g s) = M.step g M.item r)
      (fun x s r => w'.stmt (M.stmt x) (g s) = M.step g M.stmt r)
      fun c s r => w'.clause (M.clause c) (g s) = M.step g M.clause r where
  block items p hitems s := by
    rw [block, items_eq_map, w'.block_eq, step_each hitems]
    exact carry_map fun _ => by rw [block, items_eq_map]
  var d s := by
    rw [item, w'.item_var, hvar]
    exact carry_map fun _ => rfl
  func := hfunc
  stmt x hx s := by
    rw [item, w'.item_stmt, hx]
    exact carry_map fun _ => rfl
  value e s := by
    rw [clause, Pass.clause, hvalue]
    exact carry_map fun _ => rfl
  result p e s := by
    rw [clause, Pass.clause, hresult]
    exact carry_map fun _ => rfl
  scope b hb s := by
    rw [clause, Pass.clause, hwithin hb]
    exact carry_map fun _ => rfl
  opening b hb s := by
    rw [clause, Pass.clause, hb]
    exact carry_map fun _ => rfl
  inner x hx s := by
    rw [clause, Pass.clause, hx]
    exact carry_map fun _ => rfl
  clauses x hclauses s := by
    have hmoved : w'.clauses (M.stmt x) (g s) = M.step g (List.map M.clause) (w.clauses x s) := by
      unfold Pass.clauses
      rw [isScope_stmt, clauses_stmt]
      split
      · exact hwithin (step_each hclauses) s
      · exact step_each hclauses s
    rw [w'.stmt_eq, hmoved]
    have hstmt := M.stmt_withClauses (w.clauses_tree x s)
    exact congrArg (Step.mk · _ _) hstmt

/-- With everything in its place, only the state is changed. -/
theorem step_same (r : Step σ Block α) : same.step g same.block r = r.mapState g := by
  obtain ⟨t, s, result⟩ := r
  cases result <;> exact congrArg (Step.mk · (g s) _) (block_same t)

end Relocation

/-- New records of variables in a container are those in another one, changed by `v`. -/
def Container.Records (v : Variable → Variable) (c c' : Container) : Prop :=
  ∀ name t, c'.newVariable name t = v (c.newVariable name t)

/--
A change of sessions that analysis takes no notice of: the records of variables are changed by `v`, and all that
analysis writes goes along with that.
-/
structure Session.Unnoticed (g : Session → Session) (v : Variable → Variable) : Prop extends
    Session.Unseen g where
  newVariable : ∀ s, Container.Records v s.container (g s).container
  addStruct : ∀ s name, (g s).addStruct name = g (s.addStruct name)
  setMembers : ∀ s n vs, (g s).setMembers n (vs.map v) = g (s.setMembers n vs)
  addFunction : ∀ s f, (g s).addFunction { f with vars := f.vars.map v } = g (s.addFunction f)
  addGlobal : ∀ s name t, (g s).addGlobal name t = g (s.addGlobal name t)
  initvals : ∀ s, (g s).container.initvals.length = s.container.initvals.length

namespace Session.Unseen

variable {g : Session → Session} (hg : Session.Unseen g) (s : Session)

include hg

theorem structNo? (name : String) : (g s).container.structNo? name = s.container.structNo? name :=
  hg.tables (·.structNo? name) (fun _ => Container.structNo?_visible name) s

theorem functionNo? (name : String) : (g s).container.functionNo? name = s.container.functionNo? name :=
  hg.tables (·.functionNo? name) (fun _ => Container.functionNo?_visible name) s

theorem globalNo? (name : String) : (g s).container.globalNo? name = s.container.globalNo? name :=
  hg.tables (·.globalNo? name) (fun _ => Container.globalNo?_visible name) s

theorem structs : (g s).container.structs.length = s.container.structs.length :=
  hg.tables (·.structs.length) (fun _ => List.length_map _) s

theorem functions : (g s).container.functions.length = s.container.functions.length :=
  hg.tables (·.functions.length) (fun _ => List.length_map _) s

theorem globals : (g s).container.globals.length = s.container.globals.length :=
  hg.tables (·.globals.length) (fun _ => List.length_map _) s

end Session.Unseen

/-- Nothing is changed. -/
theorem Session.unnoticed_id : Session.Unnoticed id id where
  visible _ := rfl
  note _ _ := rfl
  addInitval _ _ _ := rfl
  newVariable _ _ _ := rfl
  addStruct _ _ := rfl
  setMembers _ _ _ := by rw [List.map_id]; rfl
  addFunction _ f := by cases f; simp
  addGlobal _ _ _ := rfl
  initvals _ := rfl

open Relocation (carry_map carry_andThen)

variable {M : Relocation} {g : Session → Session} {v : Variable → Variable}

/-! ## Types -/

namespace TypeSpec

theorem structNo_moved (t : TypeSpec) : (M.type t).structNo = t.structNo := by
  obtain ⟨kind, name, number, members, span⟩ := t
  cases members <;> rfl

theorem kind_moved (t : TypeSpec) : (M.type t).kind = t.kind := by
  obtain ⟨kind, name, number, members, span⟩ := t
  cases members <;> rfl

theorem span_moved (t : TypeSpec) : (M.type t).span = M.place t.span := by
  obtain ⟨kind, name, number, members, span⟩ := t
  cases members <;> rfl

theorem members_moved (t : TypeSpec) : (M.type t).members = t.members.map M.decls := by
  obtain ⟨kind, name, number, members, span⟩ := t
  cases members <;> rfl

theorem withMembers_moved (t : TypeSpec) (ds : List VarDecl) :
    { M.type t with members := some (M.decls ds) } = M.type { t with members := some ds } := by
  obtain ⟨kind, name, number, members, span⟩ := t
  cases members <;> rfl

theorem encode_moved (t : TypeSpec) : (M.type t).encode = M.result t.encode := by
  obtain ⟨kind, name, number, members, span⟩ := t
  cases members <;> cases kind <;> cases number <;> rfl

theorem isUnregistered_moved (t : TypeSpec) : (M.type t).isUnregistered = t.isUnregistered := by
  obtain ⟨kind, name, number, members, span⟩ := t
  cases members <;> rfl

theorem isForward_moved (d : VarDecl) : (M.decl d).isForward = d.isForward := by
  obtain ⟨name, type, init, slot, span⟩ := d
  unfold VarDecl.isForward Relocation.decl
  rw [kind_moved]

theorem bindName_moved (hg : Session.Unseen g) (t : TypeSpec) (s : Session) :
    (M.type t).bindName (g s) = M.step g M.type (t.bindName s) := by
  obtain ⟨kind, name, number, members, span⟩ := t
  unfold bindName
  cases members with
  | none =>
      unfold Relocation.type
      dsimp only
      rw [hg.structNo?]
      cases s.container.structNo? (name.getD "") <;> rfl
  | some decls =>
      unfold Relocation.type
      dsimp only
      rw [hg.structNo?]
      cases s.container.structNo? (name.getD "") <;> rfl

mutual

theorem height_moved : ∀ t : TypeSpec, (M.type t).height = t.height
  | ⟨_, _, _, none, _⟩ => rfl
  | ⟨_, _, _, some ds, _⟩ => by
    unfold Relocation.type height
    rw [heightOf_moved ds]

theorem heightOf_moved : ∀ ds : List VarDecl, heightOf (M.decls ds) = heightOf ds
  | [] => rfl
  | ⟨_, type, _, _, _⟩ :: ds => by
    unfold Relocation.decls Relocation.decl heightOf
    rw [height_moved type, heightOf_moved ds]

end

mutual

theorem register_moved (hg : Session.Unnoticed g v) : ∀ (t : TypeSpec) (s : Session),
    (M.type t).register (g s) = M.step g M.type (t.register s)
  | ⟨kind, name, number, members, span⟩, s => by
    cases name with
    | none => cases members <;> rfl
    | some text =>
        cases members with
        | none =>
            unfold Relocation.type register
            dsimp only
            rw [hg.structNo?, hg.structs, hg.addStruct]
            split <;> rfl
        | some ds =>
            unfold Relocation.type register
            dsimp only
            rw [hg.structNo?, hg.structs, hg.addStruct]
            split
            · rfl
            · rw [registerMembers_moved hg ds]
              exact carry_andThen (fun _ => rfl) fun _ _ _ => rfl

theorem registerMembers_moved (hg : Session.Unnoticed g v) : ∀ (ds : List VarDecl) (s : Session),
    registerMembers (M.decls ds) (g s) = M.step g M.decls (registerMembers ds s)
  | [], s => by unfold Relocation.decls registerMembers; rfl
  | ⟨name, type, init, slot, span⟩ :: ds, s => by
    unfold Relocation.decls Relocation.decl registerMembers
    rw [isUnregistered_moved]
    split
    · rw [register_moved hg type]
      refine carry_andThen (fun _ => rfl) fun t _ s => ?_
      rw [registerMembers_moved hg ds s]
      exact carry_map fun _ => rfl
    · rw [registerMembers_moved hg ds s]
      exact carry_map fun _ => rfl

end

section

variable (hg : Session.Unnoticed g v)

include hg

theorem registerNew_moved (t : TypeSpec) (s : Session) :
    (M.type t).registerNew (g s) = M.step g M.type (t.registerNew s) := by
  unfold registerNew
  rw [isUnregistered_moved]
  split
  · rw [register_moved hg]
    exact carry_andThen (fun _ => rfl) fun _ _ _ => rfl
  · rfl

theorem number_moved (t : TypeSpec) (s : Session) :
    (M.type t).number (g s) = M.step g M.type (t.number s) := by
  unfold number
  rw [structNo_moved]
  cases t.structNo with
  | some n => rfl
  | none => exact register_moved hg t s

theorem memberRecord_moved (s : Session) (d : VarDecl) :
    memberRecord (g s).container (M.decl d) = M.result ((memberRecord s.container d).map (List.map v)) := by
  obtain ⟨name, type, init, slot, span⟩ := d
  unfold memberRecord Relocation.decl
  cases name with
  | none => rfl
  | some name =>
      dsimp only
      rw [encode_moved, funext fun t => congrArg ([·]) (hg.newVariable s name t)]
      cases type.encode <;> rfl

/-- Members get changed records, so the value of the step is changed with the state. -/
theorem bindMembers_moved {bind : TypeSpec → Session → Step Session TypeSpec Unit}
    (hbind : M.Passes g bind) (ds : List VarDecl) (s : Session) :
    bindMembers bind (M.decls ds) (g s) = M.carry g M.decls (List.map v) (bindMembers bind ds s) := by
  induction ds generalizing s with
  | nil => rfl
  | cons d ds ih =>
      unfold Relocation.decls bindMembers
      rw [isForward_moved]
      split
      · rw [ih]
        exact carry_map fun _ => rfl
      · have htype : (M.decl d).type = M.type d.type := by cases d; rfl
        rw [htype, hbind]
        refine carry_andThen (fun _ => by cases d; rfl) fun t _ s => ?_
        have hd : { M.decl d with type := M.type t } = M.decl { d with type := t } := by cases d; rfl
        dsimp only
        rw [hd, memberRecord_moved hg]
        cases memberRecord s.container { d with type := t } with
        | error e => rfl
        | ok records =>
            show (bindMembers bind (M.decls ds) (g s)).andThen _ _ = _
            rw [ih]
            refine carry_andThen (fun _ => rfl) fun _ others s => ?_
            rw [← List.map_append]
            rfl

theorem bindWithin_moved (n : Nat) (t : TypeSpec) (s : Session) :
    bindWithin n (M.type t) (g s) = M.step g M.type (bindWithin n t s) := by
  induction n generalizing t s with
  | zero =>
      unfold bindWithin
      rw [kind_moved]
      cases t.kind with
      | typedef => exact bindName_moved hg.toUnseen t s
      | enum =>
          dsimp only
          rw [span_moved]
          rfl
      | _ => rfl
  | succ n ih =>
      unfold bindWithin
      rw [kind_moved]
      cases t.kind with
      | typedef => exact bindName_moved hg.toUnseen t s
      | enum =>
          dsimp only
          rw [span_moved]
          rfl
      | struct =>
          dsimp only
          rw [members_moved, Option.isSome_map]
          split
          · rw [number_moved hg]
            refine carry_andThen (fun _ => rfl) fun t no s => ?_
            have hmembers : (M.type t).members.getD [] = M.decls (t.members.getD []) := by
              rw [members_moved]
              cases t.members <;> rfl
            rw [hmembers, bindMembers_moved hg ih]
            refine carry_andThen (withMembers_moved t) fun ds records s => ?_
            rw [withMembers_moved, hg.setMembers]
            rfl
          · rfl
      | _ => rfl

theorem bind_moved (t : TypeSpec) (s : Session) :
    (M.type t).bind (g s) = M.step g M.type (t.bind s) := by
  unfold TypeSpec.bind
  rw [height_moved]
  exact bindWithin_moved hg ..

end

end TypeSpec

section Walk

variable {σ : Type} {g : σ → σ} {f : TypeSpec → σ → Step σ TypeSpec Unit}

theorem VarDecl.updateTypes_moved (hf : M.Passes g f) (ds : List VarDecl) (s : σ) :
    VarDecl.updateTypes f (M.decls ds) (g s) = M.step g M.decls (VarDecl.updateTypes f ds s) := by
  induction ds generalizing s with
  | nil => rfl
  | cons d ds ih =>
      obtain ⟨name, type, init, slot, span⟩ := d
      unfold Relocation.decls Relocation.decl VarDecl.updateTypes
      rw [hf]
      refine carry_andThen (fun _ => rfl) fun t _ s => ?_
      rw [ih]
      exact carry_map fun _ => rfl

theorem FuncHead.updateTypes_moved (hf : M.Passes g f) (h : FuncHead) (s : σ) :
    (M.head h).updateTypes f (g s) = M.step g M.head (h.updateTypes f s) := by
  unfold Relocation.head FuncHead.updateTypes
  rw [hf]
  refine carry_andThen (fun _ => rfl) fun t _ s => ?_
  rw [VarDecl.updateTypes_moved hf]
  exact carry_map fun _ => rfl

/-- A walk over all types commutes with moving if the update of single types does. -/
theorem Block.updateTypes_moved (hf : M.Passes g f) (b : Block) (s : σ) :
    (M.block b).updateTypes f (g s) = M.step g M.block (b.updateTypes f s) := by
  refine (Relocation.moved (.updateTypes f) (.updateTypes f) (fun d s => ?_) (fun _ _ => rfl)
    (fun _ _ _ => rfl) (fun h => h) fun h body hbody s => ?_).forBlock b s
  · have htype : (M.decl d).type = M.type d.type := by cases d; rfl
    show (if (M.decl d).isForward then _ else _ : Step σ VarDecl Unit) =
      M.step g M.decl (if d.isForward then _ else _)
    rw [TypeSpec.isForward_moved]
    split
    · rfl
    · rw [htype, hf]
      exact carry_map fun _ => by cases d; rfl
  · show (M.item (.func h body)).updateTypes f (g s) = M.step g M.item ((Item.func h body).updateTypes f s)
    unfold Relocation.item Item.updateTypes
    rw [FuncHead.updateTypes_moved hf]
    refine carry_andThen (fun _ => rfl) fun _ _ s => ?_
    rw [show (M.block body).updateTypes f (g s) = _ from hbody s]
    exact carry_map fun _ => rfl

end Walk

theorem Block.bindTypes_moved (hg : Session.Unnoticed g v) (b : Block) (s : Session) :
    (M.block b).bindTypes (g s) = M.step g M.block (b.bindTypes s) := by
  unfold Block.bindTypes
  rw [Block.updateTypes_moved (TypeSpec.registerNew_moved hg)]
  exact carry_andThen (fun _ => rfl) fun b _ s =>
    Block.updateTypes_moved (TypeSpec.bind_moved hg) b s

/-! ## Numbers -/

section Allot

variable {c c' : Container}

theorem VarDecl.allot_moved (hc : Container.Records v c c') (d : VarDecl) (vars : List Variable) :
    (M.decl d).allot c' (vars.map v) = M.step (List.map v) M.decl (d.allot c vars) := by
  obtain ⟨name, type, init, slot, span⟩ := d
  unfold Relocation.decl VarDecl.allot
  cases name with
  | none => rfl
  | some name =>
      dsimp only
      rw [TypeSpec.encode_moved, List.length_map]
      cases type.encode with
      | error e => rfl
      | ok t =>
          have hvars : vars.map v ++ [c'.newVariable name t] = (vars ++ [c.newVariable name t]).map v := by
            rw [hc, List.map_append]
            rfl
          exact congrArg (Step.done _ · ()) hvars

theorem VarDecl.allotParams_moved (hc : Container.Records v c c') (ds : List VarDecl) (vars : List Variable) :
    VarDecl.allotParams c' (M.decls ds) (vars.map v) =
      M.step (List.map v) M.decls (VarDecl.allotParams c ds vars) := by
  induction ds generalizing vars with
  | nil => rfl
  | cons d ds ih =>
      have hname : (M.decl d).name = d.name := by cases d; rfl
      have hspan : (M.decl d).span = M.place d.span := by cases d; rfl
      unfold Relocation.decls VarDecl.allotParams
      rw [hname]
      split
      · rw [VarDecl.allot_moved hc]
        refine carry_andThen (fun _ => rfl) fun _ _ vars => ?_
        rw [ih]
        exact carry_map fun _ => rfl
      · rw [hspan]
        rfl

theorem Block.allotLocals_moved (hc : Container.Records v c c') (b : Block) (vars : List Variable) :
    (M.block b).allotLocals c' (vars.map v) = M.step (List.map v) M.block (b.allotLocals c vars) := by
  refine (Relocation.moved (.allotLocals c) (.allotLocals c') (VarDecl.allot_moved hc)
    (fun _ _ => rfl) (fun _ _ _ => rfl) (fun h => h) fun h body _ vars => ?_).forBlock b vars
  show (M.item (.func h body)).allotLocals c' (vars.map v) =
    M.step (List.map v) M.item ((Item.func h body).allotLocals c vars)
  unfold Relocation.item Item.allotLocals
  rfl

theorem FuncHead.allotVars_moved (hc : Container.Records v c c') (h : FuncHead) (body : Block) :
    (M.head h).allotVars c' (M.block body) =
      M.step (List.map v) (Prod.map M.head M.block) (h.allotVars c body) := by
  have hparams := VarDecl.allotParams_moved (M := M) hc h.params []
  unfold Relocation.head FuncHead.allotVars
  dsimp only
  rw [List.map_nil] at hparams
  rw [hparams]
  refine carry_andThen (fun _ => rfl) fun params _ vars => ?_
  rw [Block.allotLocals_moved hc, List.length_map]
  exact carry_andThen (fun _ => rfl) fun _ _ _ => rfl

end Allot

section

variable (hg : Session.Unnoticed g v)

include hg

theorem FuncHead.allot_moved (h : FuncHead) (body : Block) (s : Session) :
    (M.head h).allot (M.block body) (g s) = M.step g (Prod.map M.head M.block) (h.allot body s) := by
  have hvars := FuncHead.allotVars_moved (M := M) (hg.newVariable s) h body
  have hresult : (M.head h).result.encode = M.result h.result.encode := TypeSpec.encode_moved h.result
  have hname : (M.head h).name = h.name := rfl
  unfold FuncHead.allot
  rw [hvars, hresult, hname, hg.functionNo?, hg.functions]
  split
  · rfl
  · cases h.result.encode with
    | error e => rfl
    | ok result =>
        obtain ⟨⟨h', body'⟩, vars, r⟩ := h.allotVars s.container body
        cases r with
        | error e => rfl
        | ok argCount =>
            exact congrArg (Step.done _ · ()) (hg.addFunction s ⟨h'.name, result, argCount, vars⟩)

theorem VarDecl.allotGlobal_moved (d : VarDecl) (s : Session) :
    (M.decl d).allotGlobal (g s) = M.step g M.decl (d.allotGlobal s) := by
  obtain ⟨name, type, init, slot, span⟩ := d
  unfold Relocation.decl VarDecl.allotGlobal
  cases name with
  | none => rfl
  | some name =>
      dsimp only
      rw [TypeSpec.encode_moved, hg.globalNo?, hg.globals]
      split
      · rfl
      · cases type.encode with
        | error e => rfl
        | ok t => exact congrArg (Step.done _ · ()) (hg.addGlobal s name t)

theorem Item.allot_moved (i : Item) (s : Session) :
    (M.item i).allot (g s) = M.step g M.item (i.allot s) := by
  cases i with
  | var d =>
      unfold Relocation.item Item.allot
      dsimp only
      rw [VarDecl.allotGlobal_moved hg]
      exact carry_map fun _ => rfl
  | func h body =>
      unfold Relocation.item Item.allot
      dsimp only
      rw [FuncHead.allot_moved hg]
      exact carry_map fun _ => rfl
  | stmt x => rfl

theorem Item.allotAll_moved (is : List Item) (s : Session) :
    Item.allotAll (M.items is) (g s) = M.step g M.items (Item.allotAll is s) := by
  induction is generalizing s with
  | nil => rfl
  | cons i is ih =>
      unfold Relocation.items Item.allotAll
      rw [Item.allot_moved hg]
      refine carry_andThen (fun _ => rfl) fun _ _ s => ?_
      rw [ih]
      exact carry_map fun _ => rfl

theorem Block.allot_moved (b : Block) (s : Session) :
    (M.block b).allot (g s) = M.step g M.block (b.allot s) := by
  obtain ⟨items, span⟩ := b
  unfold Relocation.block Block.allot
  dsimp only
  rw [Item.allotAll_moved hg]
  exact carry_map fun _ => rfl

end

end Jaf
