import Jaf.Proofs.Analysis.PlaceIndependence

/-!
# Checks elsewhere

The last pass of analysis derives the types of expressions, folds constants and checks what each place in the
program asks for. None of that depends on where an expression stands, and none on what a check cannot see, so
this pass commutes with moving the program and changing its session as the others do (`Block.check_moved`). With
it the whole of analysis does (`Block.analyse_moved`). Two cases of that are used later on: a check of a program
that stays in its place (`Block.check_unseen`), and the analysis of a tree without places, by which trees that
are the same up to places leave the same tables (`Block.analyse_placeless`).
-/

namespace Jaf

namespace Relocation

variable {τ υ α β : Type} (M : Relocation)

/-- An outcome elsewhere, with its tree changed. -/
def outcome (f : τ → τ) (o : Outcome τ α) : Outcome τ α := ⟨f o.tree, M.result o.result⟩

variable {M} {f : τ → τ} {f' : υ → υ} {o : Outcome τ α}

theorem outcome_map {wrap wrap' : τ → υ} (h : ∀ t, wrap' (f t) = f' (wrap t)) :
    (M.outcome f o).map wrap' = M.outcome f' (o.map wrap) := by
  unfold Outcome.map outcome
  rw [h]

theorem outcome_andThen {wrap wrap' : τ → υ} {next next' : τ → α → Outcome υ β}
    (hwrap : ∀ t, wrap' (f t) = f' (wrap t)) (hnext : ∀ t a, next' (f t) a = M.outcome f' (next t a)) :
    (M.outcome f o).andThen wrap' next' = M.outcome f' (o.andThen wrap next) := by
  obtain ⟨t, result⟩ := o
  cases result with
  | ok a => exact hnext t a
  | error e => exact congrArg (Outcome.mk · (.error (M.error e))) (hwrap t)

end Relocation

open Relocation (carry_map carry_andThen outcome_map outcome_andThen)

variable {M : Relocation}

/-! ## Types of expressions -/

theorem Expr.isPlace_moved (e : Expr) : (M.expr e).isPlace = e.isPlace := by cases e <;> rfl

theorem UnaryOp.typed_moved (op : UnaryOp) (e : Expr) (t : ValueType) (p : Span) :
    op.typed (M.expr e) t (M.place p) = M.result (op.typed e t p) := by
  unfold UnaryOp.typed
  rw [Expr.isPlace_moved, M.span_expr]
  cases op <;> (dsimp only; repeat' split) <;> rfl

theorem BinaryOp.typed_moved (op : BinaryOp) (l r : ValueType) (p : Span) :
    op.typed l r (M.place p) = M.result (op.typed l r p) := by
  unfold BinaryOp.typed
  cases op.type? l r <;> rfl

theorem AssignOp.typed_moved (op : AssignOp) (target value : ValueType) (p q : Span) :
    op.typed target value (M.place p) (M.place q) = M.result (op.typed target value p q) := by
  unfold AssignOp.typed
  cases op.binary? with
  | none =>
      dsimp only [bind, Except.bind]
      split <;> rfl
  | some b =>
      dsimp only [bind, Except.bind]
      rw [BinaryOp.typed_moved b target value p]
      cases b.typed target value p with
      | error e => rfl
      | ok stored =>
          show (if stored = target then _ else _) = _
          by_cases h : stored = target <;> simp only [h, if_true, if_false] <;> rfl

namespace Expr

variable (env : Lookup)

theorem isLiteral_moved (e : Expr) : (M.expr e).isLiteral = e.isLiteral := by cases e <;> rfl

theorem literal?_moved (e : Expr) : (M.expr e).literal? = e.literal? := by cases e <;> rfl

theorem require_moved (e : Expr) (expected : ValueType) :
    (M.expr e).require expected = M.result (e.require expected) := by
  unfold require
  rw [Expr.type?, M.note_expr, M.span_expr]
  show (if e.note.type.getD .void = expected then _ else _) = _
  dsimp only [Expr.type?]
  split <;> rfl

theorem settle_moved {n : Note} {build build' : Note → Expr} {type : Except SemanticError ValueType}
    (h : ∀ n : Note, build' (M.note n) = M.expr (build n)) :
    settle (M.note n) build' (M.result type) = M.outcome M.expr (settle n build type) := by
  cases type with
  | ok t => exact congrArg (Outcome.mk · (.ok t)) (h (n.typed t))
  | error e => exact congrArg (Outcome.mk · (.error (M.error e))) (h n)

theorem settleMember_moved (n : Note) (object : Expr) (field : String) (position : Option Nat)
    (t : ValueType) :
    settleMember env (M.note n) (M.expr object) field position t =
      M.outcome M.expr (settleMember env n object field position t) := by
  unfold settleMember
  rw [M.span_expr]
  cases t with
  | struct k =>
      dsimp only
      cases env.struct? k with
      | none => rfl
      | some s =>
          dsimp only
          cases s.member? field <;> rfl
  | _ => rfl

mutual

/-- **Deriving types does not look at places.** -/
theorem infer_moved : ∀ e : Expr, (M.expr e).infer env = M.outcome M.expr (e.infer env)
  | int _ _ | float _ _ | string _ _ => by
    unfold Relocation.expr infer
    rfl
  | ident n name b => by
    unfold Relocation.expr infer
    cases env.var? name <;> rfl
  | unary n op e => by
    unfold Relocation.expr infer
    rw [infer_moved e]
    refine outcome_andThen (fun _ => rfl) fun e t => ?_
    show settle _ _ (op.typed (M.expr e) t (M.place n.span)) = _
    rw [UnaryOp.typed_moved op e t n.span]
    exact settle_moved fun _ => rfl
  | binary n op l r => by
    unfold Relocation.expr infer
    rw [infer_moved l]
    refine outcome_andThen (fun _ => rfl) fun l lt => ?_
    rw [infer_moved r]
    refine outcome_andThen (fun _ => rfl) fun r rt => ?_
    show settle _ _ (op.typed lt rt (M.place n.span)) = _
    rw [BinaryOp.typed_moved op lt rt n.span]
    exact settle_moved fun _ => rfl
  | assign n op target value => by
    unfold Relocation.expr infer
    rw [infer_moved target]
    refine outcome_andThen (fun _ => rfl) fun target tt => ?_
    rw [isPlace_moved]
    split
    · rw [infer_moved value]
      refine outcome_andThen (fun _ => rfl) fun value vt => ?_
      show settle _ _ (op.typed tt vt (M.place n.span) (M.expr value).span) = _
      rw [M.span_expr, AssignOp.typed_moved op tt vt n.span value.span]
      exact settle_moved fun _ => rfl
    · rw [M.span_expr]
      rfl
  | ternary n c y o => by
    unfold Relocation.expr infer
    rw [infer_moved c]
    refine outcome_andThen (fun _ => rfl) fun c ct => ?_
    split
    · rw [infer_moved y]
      refine outcome_andThen (fun _ => rfl) fun y yt => ?_
      rw [infer_moved o]
      refine outcome_andThen (fun _ => rfl) fun o ot => ?_
      have htype : (if yt = ot then Except.ok yt else .error ⟨(M.expr o).span, .mismatch yt ot⟩) =
          M.result (if yt = ot then .ok yt else .error ⟨o.span, .mismatch yt ot⟩) := by
        rw [M.span_expr]
        split <;> rfl
      rw [htype]
      exact settle_moved fun _ => rfl
    · rw [M.span_expr]
      rfl
  | call n name args k => by
    unfold Relocation.expr infer
    have hlength : (M.exprs args).length = args.length := by rw [M.exprs_eq_map, List.length_map]
    cases env.function? name with
    | none => rfl
    | some found =>
        dsimp only
        rw [hlength]
        split
        · rw [inferArgs_moved args]
          exact outcome_andThen (fun _ => rfl) fun _ _ => rfl
        · rfl
  | cast n target e => by
    unfold Relocation.expr infer
    rw [infer_moved e]
    refine outcome_andThen (fun _ => rfl) fun e t => ?_
    split
    · cases target.castType? <;> rfl
    · rw [M.span_expr]
      rfl
  | member n o field p => by
    unfold Relocation.expr infer
    rw [infer_moved o]
    exact outcome_andThen (fun _ => rfl) fun o t => settleMember_moved env n o field p t
  | comma n es => by
    unfold Relocation.expr infer
    rw [inferItems_moved es]
    exact outcome_andThen (fun _ => rfl) fun _ _ => rfl

theorem inferArgs_moved : ∀ (es : List Expr) (ts : List ValueType),
    inferArgs env (M.exprs es) ts = M.outcome M.exprs (inferArgs env es ts)
  | [], ts => by
    unfold Relocation.exprs
    cases ts <;> rfl
  | e :: es, [] => rfl
  | e :: es, t :: ts => by
    unfold Relocation.exprs inferArgs
    rw [infer_moved e]
    refine outcome_andThen (fun _ => rfl) fun e _ => ?_
    rw [require_moved]
    cases e.require t with
    | error err => rfl
    | ok u =>
        show (inferArgs env (M.exprs es) ts).map _ = _
        rw [inferArgs_moved es]
        exact outcome_map fun _ => rfl

theorem inferItems_moved : ∀ (es : List Expr) (last : ValueType),
    inferItems env (M.exprs es) last = M.outcome M.exprs (inferItems env es last)
  | [], last => rfl
  | e :: es, last => by
    unfold Relocation.exprs inferItems
    rw [infer_moved e]
    refine outcome_andThen (fun _ => rfl) fun _ t => ?_
    rw [inferItems_moved es]
    exact outcome_map fun _ => rfl

end

/-! ## Folding -/

theorem orKeep_moved (n : Note) (value : Option Value) (kept : Expr) :
    orKeep (M.note n) value (M.expr kept) = M.expr (orKeep n value kept) := by
  cases value with
  | none => rfl
  | some v => cases v <;> rfl

theorem effective_moved (es : List Expr) : effective (M.exprs es) = M.exprs (effective es) := by
  induction es with
  | nil => rfl
  | cons e es ih =>
      cases es with
      | nil => rfl
      | cons e' es =>
          show (if (M.expr e).isLiteral then effective (M.exprs (e' :: es))
            else M.expr e :: effective (M.exprs (e' :: es))) =
              M.exprs (if e.isLiteral then effective (e' :: es) else e :: effective (e' :: es))
          rw [isLiteral_moved, ih]
          split <;> rfl

theorem ofItems_moved (n : Note) (es : List Expr) :
    ofItems (M.note n) (M.exprs es) = M.expr (ofItems n es) := by
  rcases es with _ | ⟨e, _ | ⟨e', es⟩⟩ <;> rfl

mutual

/-- **Folding does not look at places.** -/
theorem fold_moved : ∀ e : Expr, (M.expr e).fold = M.expr e.fold
  | int _ _ | float _ _ | string _ _ | ident _ _ _ => by
    unfold Relocation.expr fold
    rfl
  | unary n op e => by
    simp only [Relocation.expr, fold, fold_moved e, literal?_moved]
    exact orKeep_moved n _ (unary n op e.fold)
  | binary n op l r => by
    simp only [Relocation.expr, fold, fold_moved l, fold_moved r, literal?_moved]
    exact orKeep_moved n _ (binary n op l.fold r.fold)
  | cast n target e => by
    simp only [Relocation.expr, fold, fold_moved e, literal?_moved]
    exact orKeep_moved n _ (cast n target e.fold)
  | ternary n c y o => by
    simp only [Relocation.expr, fold, fold_moved c, fold_moved y, fold_moved o]
    cases c.fold with
    | int _ v =>
        dsimp only [Relocation.expr]
        split <;> rfl
    | _ => rfl
  | comma n es => by
    simp only [Relocation.expr, fold, foldList_moved es, effective_moved]
    exact ofItems_moved ..
  | assign n op t v => by simp only [Relocation.expr, fold, fold_moved t, fold_moved v]
  | call n name args k => by simp only [Relocation.expr, fold, foldList_moved args]
  | member n o f p => by simp only [Relocation.expr, fold, fold_moved o]

theorem foldList_moved : ∀ es : List Expr, foldList (M.exprs es) = M.exprs (foldList es)
  | [] => rfl
  | e :: es => by simp only [Relocation.exprs, foldList, fold_moved e, foldList_moved es]

end

end Expr

/-! ## Checks -/

variable {g : Session → Session} {k : Checker}

section

variable (hg : Session.Unseen g)

include hg

namespace Expr

theorem check_moved (e : Expr) :
    (M.expr e).check (k.via g) = M.step (Checker.via g) M.expr (e.check k) := by
  unfold check
  rw [hg.reads (fun k => (M.expr e).infer k.lookup) fun k => k.infer_visible _, infer_moved]
  obtain ⟨e', result⟩ := e.infer k.lookup
  cases result with
  | ok t =>
      show Step.done (M.expr e').fold (k.via g) () = _
      rw [fold_moved]
      rfl
  | error err => rfl

theorem checkOption_moved (e : Option Expr) :
    checkOption (e.map M.expr) (k.via g) =
      M.step (Checker.via g) (Option.map M.expr) (checkOption e k) := by
  cases e with
  | none => rfl
  | some e =>
      show ((M.expr e).check (k.via g)).map some = _
      rw [check_moved hg]
      exact carry_map fun _ => rfl

theorem checkTyped_moved (e : Expr) (expected : ValueType) :
    (M.expr e).checkTyped expected (k.via g) = M.step (Checker.via g) M.expr (e.checkTyped expected k) := by
  unfold checkTyped
  rw [check_moved hg]
  refine carry_andThen (fun _ => rfl) fun e _ k => ?_
  rw [require_moved]
  cases e.require expected <;> rfl

theorem checkInitval_moved (e : Expr) (name : String) (slot : Nat) (expected : ValueType) :
    (M.expr e).checkInitval name slot expected (k.via g) =
      M.step (Checker.via g) M.expr (e.checkInitval name slot expected k) := by
  unfold checkInitval
  rw [checkTyped_moved hg]
  refine carry_andThen (fun _ => rfl) fun e _ k => ?_
  rw [literal?_moved, M.span_expr]
  cases e.literal? with
  | none => rfl
  | some value =>
      show Step.done _ (Checker.mk ((g k.session).addInitval name ⟨slot, value⟩) k.scopes) () = _
      rw [← hg.addInitval]
      rfl

theorem checkReturn_moved (e : Option Expr) (p : Span) :
    checkReturn (e.map M.expr) (M.place p) (k.via g) =
      M.step (Checker.via g) (Option.map M.expr) (checkReturn e p k) := by
  have hresult : ((k.via g).function (M.place p)).map (·.result.valueType) =
      M.result ((k.function p).map (·.result.valueType)) := by
    rw [hg.reads (fun k => (k.function (M.place p)).map (·.result.valueType))
      fun k => k.resultType_visible _]
    unfold Checker.function
    cases k.scopes.function? >>= (k.container.functions[·]?) <;> rfl
  unfold checkReturn
  cases hf : k.function p with
  | error err =>
      rw [hf] at hresult
      cases hf' : (k.via g).function (M.place p) with
      | error err' => rw [hf'] at hresult; cases hresult; rfl
      | ok f' => rw [hf'] at hresult; cases hresult
  | ok f =>
      rw [hf] at hresult
      cases hf' : (k.via g).function (M.place p) with
      | error err' => rw [hf'] at hresult; cases hresult
      | ok f' =>
          rw [hf'] at hresult
          have htype : f'.result.valueType = f.result.valueType := Except.ok.inj hresult
          dsimp only
          rw [htype]
          cases e with
          | none =>
              dsimp only [Option.map_none]
              split <;> rfl
          | some e =>
              dsimp only [Option.map_some]
              rw [checkTyped_moved hg]
              exact carry_map fun _ => rfl

end Expr

namespace VarDecl

theorem checkGlobal_moved (d : VarDecl) :
    (M.decl d).checkGlobal (k.via g) = M.step (Checker.via g) M.decl (d.checkGlobal k) := by
  obtain ⟨name, type, init, slot, span⟩ := d
  unfold Relocation.decl checkGlobal
  cases name with
  | none => rfl
  | some name =>
      cases slot with
      | none => rfl
      | some slot =>
          cases init with
          | none => rfl
          | some init =>
              have htype := hg.reads (k := k)
                (fun k => (k.container.globals[slot]?).map (·.type.valueType))
                fun k => k.globalType_visible slot
              dsimp only [Option.map_some]
              cases hv : k.container.globals[slot]? with
              | none =>
                  rw [hv, Option.map_none, Option.map_eq_none_iff] at htype
                  rw [htype]
                  rfl
              | some v =>
                  rw [hv] at htype
                  obtain ⟨v', hv', hvv'⟩ := Option.map_eq_some_iff.mp htype
                  rw [hv']
                  dsimp only
                  rw [hvv', Expr.checkInitval_moved hg]
                  exact carry_map fun _ => rfl

theorem checkInit_moved (d : VarDecl) (slot : Nat) :
    (M.decl d).checkInit slot (k.via g) = M.step (Checker.via g) M.decl (d.checkInit slot k) := by
  obtain ⟨name, type, init, number, p⟩ := d
  have hslot : (k.via g).slotType slot (M.place p) = M.result (k.slotType slot p) := by
    rw [hg.reads (fun k => k.slotType slot (M.place p)) fun k => k.slotType_visible slot _]
    unfold Checker.slotType Checker.function
    cases k.scopes.function? >>= (k.container.functions[·]?) with
    | none => rfl
    | some f =>
        dsimp only [bind, Except.bind]
        cases f.vars[slot]? <;> rfl
  unfold Relocation.decl checkInit
  cases init with
  | none => rfl
  | some init =>
      dsimp only [Option.map_some]
      rw [hslot]
      cases k.slotType slot p with
      | error e => rfl
      | ok expected =>
          show ((M.expr init).checkTyped expected (k.via g)).map _ = _
          rw [Expr.checkTyped_moved hg]
          exact carry_map fun _ => rfl

theorem declare_moved (slot : Nat) (p : Span) :
    (k.via g).scopes.declare (k.via g).container slot (M.place p) =
      M.result (k.scopes.declare k.container slot p) := by
  rw [hg.reads (fun k => k.scopes.declare k.container slot (M.place p))
    fun k => Scopes.declare_visible k.scopes slot _]
  unfold Scopes.declare
  cases k.scopes.frames with
  | nil => rfl
  | cons frame outer =>
      dsimp only
      cases k.container.functions[frame.function]? with
      | none => rfl
      | some f =>
          dsimp only
          cases f.vars[slot]? with
          | none => rfl
          | some v =>
              dsimp only
              split <;> rfl

theorem checkLocal_moved (d : VarDecl) :
    (M.decl d).checkLocal (k.via g) = M.step (Checker.via g) M.decl (d.checkLocal k) := by
  have hname : (M.decl d).name = d.name := by cases d; rfl
  have hslot : (M.decl d).slot = d.slot := by cases d; rfl
  have hspan : ∀ d : VarDecl, (M.decl d).span = M.place d.span := fun d => by cases d; rfl
  unfold checkLocal
  rw [hname, hslot, hspan]
  cases d.name with
  | none => rfl
  | some name =>
      cases d.slot with
      | none => rfl
      | some slot =>
          dsimp only
          rw [checkInit_moved hg]
          refine carry_andThen (fun _ => rfl) fun d _ k => ?_
          rw [hspan, declare_moved hg slot d.span]
          cases k.scopes.declare k.container slot d.span <;> rfl

theorem check_moved (d : VarDecl) :
    (M.decl d).check (k.via g) = M.step (Checker.via g) M.decl (d.check k) := by
  unfold check
  show (if k.scopes.isGlobal then _ else _) = _
  split
  · exact checkGlobal_moved hg d
  · exact checkLocal_moved hg d

end VarDecl

end

theorem Checker.inBlock_moved {τ : Type} {f : τ → τ} {step step' : Checker → Step Checker τ Unit}
    (h : ∀ k : Checker, step' (k.via g) = M.step (Checker.via g) f (step k)) :
    (k.via g).inBlock step' = M.step (Checker.via g) f (k.inBlock step) := by
  have hscopes : (k.via g).scopes = k.scopes := rfl
  unfold Checker.inBlock
  rw [hscopes]
  cases k.scopes.enterBlock? with
  | none => exact h k
  | some scopes => exact congrArg (Step.mapState leave) (h { k with scopes })

theorem Item.check_function_moved (hg : Session.Unseen g) (h : FuncHead) (body : Block)
    (hbody : ∀ k : Checker, (M.block body).check (k.via g) = M.step (Checker.via g) M.block (body.check k))
    (k : Checker) :
    (M.item (.func h body)).check (k.via g) = M.step (Checker.via g) M.item ((Item.func h body).check k) := by
  obtain ⟨name, result, params, number, span⟩ := h
  unfold Relocation.item Item.check Relocation.head
  dsimp only
  cases number with
  | none => rfl
  | some n =>
      have hcount := hg.reads (k := k) (fun k => (k.container.functions[n]?).map (·.argCount))
        fun k => k.argCount_visible n
      dsimp only
      cases hf : k.container.functions[n]? with
      | none =>
          rw [hf, Option.map_none, Option.map_eq_none_iff] at hcount
          rw [hcount]
          rfl
      | some f =>
          rw [hf] at hcount
          obtain ⟨f', hf', hff'⟩ := Option.map_eq_some_iff.mp hcount
          rw [hf']
          dsimp only [Checker.inFunction]
          -- the body is checked with the entry logged before it
          have hentered := hbody
            ⟨k.session.note (.functionEntered name), k.scopes.enterFunction n f.argCount⟩
          rw [Checker.via, hg.note] at hentered
          rw [hff']
          exact congrArg (fun r => (r.mapState Checker.leave).map
            (Item.func (M.head ⟨name, result, params, some n, span⟩) ·)) hentered

/-- **A check commutes with moving and with every change that it cannot see.** -/
theorem Block.check_moved (hg : Session.Unseen g) (b : Block) (k : Checker) :
    (M.block b).check (k.via g) = M.step (Checker.via g) M.block (b.check k) :=
  (Relocation.moved .check .check (fun d _ => VarDecl.check_moved hg d)
    (fun e _ => Expr.checkOption_moved hg e) (fun p e _ => Expr.checkReturn_moved hg e p)
    (fun h _ => Checker.inBlock_moved h) (Item.check_function_moved hg)).forBlock b k

/-- **A check commutes with every change that it cannot see.** -/
theorem Block.check_unseen (hg : Session.Unseen g) (b : Block) (k : Checker) :
    b.check (k.via g) = (b.check k).mapState (Checker.via g) := by
  have h := Block.check_moved (M := .same) hg b k
  rw [Relocation.block_same, Relocation.step_same] at h
  exact h

/-! ## The whole analysis -/

theorem Block.checkProgram_moved (hg : Session.Unseen g) (b : Block) (s : Session) :
    (M.block b).checkProgram (g s) = M.step (Checker.via g) M.block (b.checkProgram s) :=
  Block.check_moved hg b (.ofSession s)

/-- **Analysis commutes with moving and with every change that it takes no notice of.** -/
theorem Block.analyse_moved {v : Variable → Variable} (hg : Session.Unnoticed g v) (b : Block) (s : Session) :
    (M.block b).analyse (g s) = M.step g M.block (b.analyse s) := by
  unfold Block.analyse
  rw [Block.bindTypes_moved hg]
  refine carry_andThen (fun _ => rfl) fun b _ s => ?_
  dsimp only
  rw [hg.structs, ← hg.note, Block.allot_moved hg]
  refine carry_andThen (fun _ => rfl) fun b _ s => ?_
  rw [hg.functions, hg.globals, ← hg.note, Block.checkProgram_moved hg.toUnseen]
  generalize b.checkProgram _ = checked
  obtain ⟨b, k, result⟩ := checked
  cases result with
  | error e => rfl
  | ok u =>
      show Step.done _ ((g k.session).note (.checksDone (g k.session).container.initvals.length)) () = _
      rw [hg.initvals, ← hg.note]
      rfl

/-- A step without places. -/
def Step.placeless {σ : Type} (r : Step σ Block Unit) : Step σ Block Unit :=
  ⟨r.tree.placeless, r.state, Relocation.nowhere.result r.result⟩

/-- **Analysis does not look at places.** -/
theorem Block.analyse_placeless (b : Block) (s : Session) :
    b.placeless.analyse s = (b.analyse s).placeless := by
  have h := Block.analyse_moved (M := .nowhere) Session.unnoticed_id b s
  generalize b.analyse s = r at h ⊢
  obtain ⟨b', s', result⟩ := r
  cases result <;> exact h

end Jaf
