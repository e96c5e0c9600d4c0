import Jaf.Proofs.Analysis.FoldNotes
import Jaf.Proofs.Parser.Provenance

/-!
# The places that a check blames

A check blames the place of a node or of a declaration. What it has done to the tree by then leaves all
places in the stock that the tree was made of: deriving types writes into notes but keeps their places, and
folding puts literals and branches where other nodes were, at places that were there before. So an error of
a check is at a place of the stock, also where the expression it is about was folded.
-/

namespace Jaf

variable {m : Stock}

/-- The place of an error is in the stock, whatever the state. -/
def Stock.Blames {σ : Type} (m : Stock) (e : SemanticError) (_ : σ) : Prop := m.span e.span

theorem Stock.Blames.of_span {σ : Type} {s : σ} {e : SemanticError} {p : Span} (h : e.span = p)
    (hp : m.span p) : m.Blames e s := by
  rw [Stock.Blames, h]
  exact hp

/-! ## Deriving types -/

/-- What can be wrong with an expression. -/
def SemanticCause.isOfExpr : SemanticCause → Bool
  | unknownVariable _ | unknownFunction _ | badOperand _ _ | mismatch _ _ | notAssignable
  | argumentCount _ _ _ | notAStruct _ | noMember _ _ | unsupportedType _ => true
  | _ => false

/-- Something is wrong with an expression, at a place in the stock. -/
structure Stock.Faults (m : Stock) (e : SemanticError) : Prop where
  span : m.span e.span
  cause : e.cause.isOfExpr = true

theorem UnaryOp.faults_of_typed {op : UnaryOp} {operand : Expr} {t : ValueType} {p : Span}
    {e : SemanticError} (h : op.typed operand t p = .error e) (ho : m.span operand.span) (hp : m.span p) :
    m.Faults e := by
  cases op with
  | neg | not | bitNot =>
      simp only [UnaryOp.typed] at h
      split at h
      · cases h
      · cases h; exact ⟨ho, rfl⟩
  | preInc | preDec | postInc | postDec =>
      simp only [UnaryOp.typed] at h
      split at h
      · split at h
        · cases h
        · cases h; exact ⟨ho, rfl⟩
      · cases h; exact ⟨hp, rfl⟩

theorem BinaryOp.faults_of_typed {op : BinaryOp} {l r : ValueType} {p : Span} {e : SemanticError}
    (h : op.typed l r p = .error e) (hp : m.span p) : m.Faults e := by
  unfold BinaryOp.typed at h
  split at h
  · cases h
  · cases h; exact ⟨hp, rfl⟩

theorem AssignOp.faults_of_typed {op : AssignOp} {target value : ValueType} {p q : Span}
    {e : SemanticError} (h : op.typed target value p q = .error e) (hp : m.span p) (hq : m.span q) :
    m.Faults e := by
  have hstored : ∀ stored : ValueType, (if stored = target then .ok target else
      .error ⟨q, .mismatch target stored⟩ : Except SemanticError ValueType) = .error e → m.Faults e := by
    intro stored h
    split at h
    · cases h
    · cases h; exact ⟨hq, rfl⟩
  unfold AssignOp.typed at h
  cases hop : op.binary? with
  | none =>
      rw [hop] at h
      exact hstored value h
  | some b =>
      rw [hop] at h
      cases htyped : b.typed target value p with
      | error e' =>
          simp only [htyped] at h
          cases h
          exact BinaryOp.faults_of_typed htyped hp
      | ok stored =>
          simp only [htyped] at h
          exact hstored stored h

namespace Expr

theorem faults_of_require {e : Expr} {expected : ValueType} {err : SemanticError}
    (h : e.require expected = .error err) (he : m.span e.span) : m.Faults err := by
  unfold require at h
  dsimp only at h
  split at h
  · cases h
  · cases h; exact ⟨he, rfl⟩

/-- How the derivation of a type ends: with an expression out of the stock, or blaming a place in it. -/
abbrev Ends (m : Stock) (o : Outcome Expr ValueType) : Prop := o.Ends (fun e _ => e.From m) m.Faults

theorem ends_settle {n : Note} {build : Note → Expr} {type : Except SemanticError ValueType}
    (hok : ∀ t, (build (n.typed t)).From m) (herror : ∀ e, type = .error e → m.Faults e) :
    Ends m (settle n build type) := by
  cases type with
  | ok t => exact .done (hok t)
  | error e => exact .failed (herror e rfl)

theorem ends_settleMember {env : Lookup} {n : Note} {object : Expr} {field : String}
    {position : Option Nat} {t : ValueType} (hn : m.span n.span) (ho : object.From m) :
    Ends m (settleMember env n object field position t) := by
  unfold settleMember
  cases t with
  | void | int | float | string => exact .fail ⟨ho.span, rfl⟩
  | struct k =>
      dsimp only
      split
      · exact .fail ⟨ho.span, rfl⟩
      · split
        · exact .fail ⟨hn, rfl⟩
        · exact .done (each_member.mpr ⟨hn, ho⟩)

mutual

/-- **Deriving a type blames a place of the expression**, and moves nothing to another place. -/
theorem ends_infer (env : Lookup) : ∀ e : Expr, e.From m → Ends m (e.infer env)
  | int n v, h => by
    unfold infer
    exact .done (each_int.mpr (each_int.mp h))
  | float n v, h => by
    unfold infer
    exact .done (each_float.mpr (each_float.mp h))
  | string n v, h => by
    unfold infer
    exact .done (each_string.mpr (each_string.mp h))
  | ident n name b, h => by
    have hn : m.span n.span := each_ident.mp h
    unfold infer
    split
    · exact .done (each_ident.mpr hn)
    · exact .fail ⟨hn, rfl⟩
  | unary n op e, h => by
    obtain ⟨hn, he⟩ := each_unary.mp h
    unfold infer
    refine (ends_infer env e he).andThen fun e' t he' => ends_settle (fun t => each_unary.mpr ⟨hn, he'⟩) ?_
    exact fun err herr => UnaryOp.faults_of_typed herr he'.span hn
  | binary n op l r, h => by
    obtain ⟨hn, hl, hr⟩ := each_binary.mp h
    unfold infer
    refine (ends_infer env l hl).andThen fun l' lt hl' => (ends_infer env r hr).andThen fun r' rt hr' => ?_
    exact ends_settle (fun t => each_binary.mpr ⟨hn, hl', hr'⟩) fun err herr =>
      BinaryOp.faults_of_typed herr hn
  | assign n op target value, h => by
    obtain ⟨hn, ht, hv⟩ := each_assign.mp h
    unfold infer
    refine (ends_infer env target ht).andThen fun target' tt ht' => ?_
    split
    · refine (ends_infer env value hv).andThen fun value' vt hv' => ?_
      exact ends_settle (fun t => each_assign.mpr ⟨hn, ht', hv'⟩) fun err herr =>
        AssignOp.faults_of_typed herr hn hv'.span
    · exact .fail ⟨ht'.span, rfl⟩
  | ternary n c y o, h => by
    obtain ⟨hn, hc, hy, ho⟩ := each_ternary.mp h
    unfold infer
    refine (ends_infer env c hc).andThen fun c' ct hc' => ?_
    split
    · refine (ends_infer env y hy).andThen fun y' yt hy' => (ends_infer env o ho).andThen fun o' ot ho' => ?_
      refine ends_settle (fun t => each_ternary.mpr ⟨hn, hc', hy', ho'⟩) fun err herr => ?_
      split at herr
      · cases herr
      · cases herr; exact ⟨ho'.span, rfl⟩
    · exact .fail ⟨hc'.span, rfl⟩
  | call n name args k, h => by
    obtain ⟨hn, hargs⟩ := each_call.mp h
    unfold infer
    split
    · exact .fail ⟨hn, rfl⟩
    · dsimp only
      split
      · exact (ends_inferArgs env args _ hargs).andThen fun args' _ hargs' =>
          .done (each_call.mpr ⟨hn, hargs'⟩)
      · exact .fail ⟨hn, rfl⟩
  | cast n target e, h => by
    obtain ⟨hn, he⟩ := each_cast.mp h
    unfold infer
    refine (ends_infer env e he).andThen fun e' t he' => ?_
    split
    · refine ends_settle (fun t => each_cast.mpr ⟨hn, he'⟩) fun err herr => ?_
      split at herr
      · cases herr
      · cases herr; exact ⟨hn, rfl⟩
    · exact .fail ⟨he'.span, rfl⟩
  | member n o field p, h => by
    obtain ⟨hn, ho⟩ := each_member.mp h
    unfold infer
    exact (ends_infer env o ho).andThen fun o' t ho' => ends_settleMember hn ho'
  | comma n es, h => by
    obtain ⟨hn, hes⟩ := each_comma.mp h
    unfold infer
    exact (ends_inferItems env es _ hes).andThen fun es' t hes' => .done (each_comma.mpr ⟨hn, hes'⟩)

theorem ends_inferArgs (env : Lookup) : ∀ (es : List Expr) (ts : List ValueType), (∀ e ∈ es, e.From m) →
    (inferArgs env es ts).Ends (fun es _ => ∀ e ∈ es, e.From m) m.Faults
  | e :: es, t :: ts, h => by
    obtain ⟨he, hes⟩ := List.forall_mem_cons.mp h
    unfold inferArgs
    refine (ends_infer env e he).andThen fun e' _ he' => ?_
    split
    · refine .map ⟨fun u hu => ?_, (ends_inferArgs env es ts hes).error⟩
      exact List.forall_mem_cons.mpr ⟨he', (ends_inferArgs env es ts hes).ok u hu⟩
    next err herr => exact .failed (faults_of_require herr he'.span)
  | [], _, h | _ :: _, [], h => by
    unfold inferArgs
    exact .done h

theorem ends_inferItems (env : Lookup) : ∀ (es : List Expr) (last : ValueType), (∀ e ∈ es, e.From m) →
    (inferItems env es last).Ends (fun es _ => ∀ e ∈ es, e.From m) m.Faults
  | [], _, h => by
    unfold inferItems
    exact .done h
  | e :: es, _, h => by
    obtain ⟨he, hes⟩ := List.forall_mem_cons.mp h
    unfold inferItems
    refine (ends_infer env e he).andThen fun e' t he' => .map ?_
    refine ⟨fun u hu => ?_, (ends_inferItems env es t hes).error⟩
    exact List.forall_mem_cons.mpr ⟨he', (ends_inferItems env es t hes).ok u hu⟩

end

/-! ## Folding -/

/-- **Folding leaves nothing but places that were there before.** -/
theorem From.fold {e : Expr} (h : e.From m) : e.fold.From m := by
  -- what is left are nodes that were there, at their places
  obtain ⟨us, hsub, hfold, hstay⟩ := traces_fold e
  intro x hx
  rw [← hfold] at hx
  obtain ⟨u, hu, rfl⟩ := List.mem_map.mp hx
  rw [Expr.span, note_fold (hstay u hu)]
  exact h u (hsub.subset hu)

end Expr

/-! ## Checking -/

/-- How a check ends: if it fails, then at a place in the stock. -/
abbrev Checker.Blames {τ : Type} (m : Stock) (r : Step Checker τ Unit) : Prop :=
  r.Ends (fun _ _ _ => True) m.Blames

/-- The state of a step does not matter to the place that it blames. -/
theorem Checker.blames_inBlock {τ : Type} {k : Checker} {step : Checker → Step Checker τ Unit}
    (h : ∀ k, Checker.Blames m (step k)) : Checker.Blames m (k.inBlock step) := by
  unfold Checker.inBlock
  split
  · exact .mapState (h _)
  · exact h k

theorem Checker.span_of_function {k : Checker} {p : Span} {e : SemanticError}
    (h : k.function p = .error e) : e.span = p := by
  unfold Checker.function at h
  split at h
  · cases h
  · cases h; rfl

theorem Checker.span_of_slotType {k : Checker} {slot : Nat} {p : Span} {e : SemanticError}
    (h : k.slotType slot p = .error e) : e.span = p := by
  unfold Checker.slotType at h
  cases hf : k.function p with
  | error e' =>
      rw [hf] at h
      cases h
      exact Checker.span_of_function hf
  | ok f =>
      rw [hf] at h
      simp only [bind, Except.bind] at h
      split at h
      · cases h
      · cases h; rfl

namespace Expr

variable {e : Expr} {k : Checker}

theorem ends_check (h : e.From m) : (e.check k).Ends (fun e _ _ => e.From m) m.Blames := by
  have hinfer := ends_infer k.lookup e h
  unfold check
  split
  next e' t ht =>
    rw [ht] at hinfer
    exact .done (hinfer.ok t rfl).fold
  next e' err herr =>
    rw [herr] at hinfer
    exact .failed (hinfer.error err rfl).span

theorem blames_check (h : e.From m) : Checker.Blames m (e.check k) :=
  (ends_check h).mono (fun _ _ _ _ => trivial) fun _ _ he => he

theorem blames_checkOption {e : Option Expr} (h : ∀ x, e = some x → x.From m) :
    Checker.Blames m (checkOption e k) := by
  cases e with
  | none => exact .done trivial
  | some x => exact .map (blames_check (h x rfl))

theorem ends_checkTyped (h : e.From m) (expected : ValueType) :
    (e.checkTyped expected k).Ends (fun e _ _ => e.From m) m.Blames := by
  refine (ends_check h).andThen fun e' _ k' he' => .ofResult (fun _ _ => he') fun err herr => ?_
  exact (faults_of_require herr he'.span).span

theorem blames_checkTyped (h : e.From m) (expected : ValueType) :
    Checker.Blames m (e.checkTyped expected k) :=
  (ends_checkTyped h expected).mono (fun _ _ _ _ => trivial) fun _ _ he => he

theorem blames_checkInitval (h : e.From m) (name : String) (slot : Nat) (expected : ValueType) :
    Checker.Blames m (e.checkInitval name slot expected k) := by
  refine (ends_checkTyped h expected).andThen fun e' _ k' he' => ?_
  split
  · exact .done trivial
  · exact .fail he'.span

theorem blames_checkReturn {e : Option Expr} {p : Span} (hp : m.span p) (h : ∀ x, e = some x → x.From m) :
    Checker.Blames m (checkReturn e p k) := by
  unfold checkReturn
  split
  next err herr => exact .failed (.of_span (Checker.span_of_function herr) hp)
  · cases e with
    | some x => exact .map (blames_checkTyped (h x rfl) _)
    | none =>
        dsimp only
        split
        · exact .done trivial
        · exact .fail hp

end Expr

namespace VarDecl

variable {d : VarDecl} {k : Checker}

theorem blames_checkGlobal (hd : d.From m) : Checker.Blames m (d.checkGlobal k) := by
  unfold checkGlobal
  split
  · exact .done trivial
  · exact .fail hd.span
  · exact .done trivial
  next name slot init _ _ hinit =>
    split
    · exact .fail hd.span
    · exact .map (Expr.blames_checkInitval (hd.init init hinit) _ _ _)

theorem ends_checkInit (hd : d.From m) (slot : Nat) :
    (d.checkInit slot k).Ends (fun d _ _ => m.span d.span) m.Blames := by
  unfold checkInit
  split
  · exact .done hd.span
  next init hinit =>
    split
    next e he => exact .failed (.of_span (Checker.span_of_slotType he) hd.span)
    next expected _ =>
      refine .map ((Expr.ends_checkTyped (hd.init init hinit) expected).mono ?_ fun _ _ he => he)
      exact fun _ _ _ _ => hd.span

theorem span_of_declare {s : Scopes} {c : Container} {slot : Nat} {p : Span} {e : SemanticError}
    (h : s.declare c slot p = .error e) : e.span = p := by
  unfold Scopes.declare at h
  repeat' split at h
  all_goals cases h
  all_goals rfl

theorem blames_checkLocal (hd : d.From m) : Checker.Blames m (d.checkLocal k) := by
  unfold checkLocal
  split
  · exact .done trivial
  · exact .fail hd.span
  · refine (ends_checkInit hd _).andThen fun d' _ k' hd' => ?_
    split
    · exact .done trivial
    next e he => exact .failed (.of_span (span_of_declare he) hd')

theorem blames_check (hd : d.From m) : Checker.Blames m (d.check k) := by
  unfold check
  split
  · exact blames_checkGlobal hd
  · exact blames_checkLocal hd

end VarDecl

/-- A run blames a place that one of its steps blames. -/
theorem Checker.Blames.each {τ : Type} {step : τ → Checker → Step Checker τ Unit} {parts : τ → List Part}
    {ts : List τ} (h : ∀ t ∈ ts, ∀ k, (∀ p ∈ parts t, p.From m) → Checker.Blames m (step t k))
    (hparts : ∀ p ∈ ts.flatMap parts, p.From m) (k : Checker) : Checker.Blames m (Step.each step ts k) := by
  induction ts generalizing k with
  | nil => exact .done trivial
  | cons t ts ih =>
      obtain ⟨ht, hts⟩ := List.forall_mem_cons.mp h
      rw [List.flatMap_cons] at hparts
      obtain ⟨hfirst, hrest⟩ := List.forall_mem_append.mp hparts
      exact Step.Ends.andThen (ht k hfirst) fun _ _ k' _ => .map (ih hts hrest k')

/-- The parts of a block that is entered and left. -/
theorem Part.of_from_option {e : Option Expr} (h : ∀ p ∈ Part.option e, p.From m) :
    ∀ x, e = some x → x.From m := by
  rintro x rfl
  exact h (.value x) (List.mem_singleton.mpr rfl)

theorem Traversal.blames_check : Traversal.check.Rules
    (fun b _ r => (∀ p ∈ b.parts, p.From m) → Checker.Blames m r)
    (fun i _ r => (∀ p ∈ i.parts, p.From m) → Checker.Blames m r)
    (fun x _ r => (∀ p ∈ x.parts, p.From m) → Checker.Blames m r)
    fun c _ r => (∀ p ∈ c.parts, p.From m) → Checker.Blames m r where
  block items p hitems k h := by
    rw [Block.parts, Item.partsOf_eq_flatMap] at h
    exact .map (Checker.Blames.each hitems h k)
  var d k h := .map (VarDecl.blames_check (h (.var d) (List.mem_singleton.mpr rfl)))
  func head body hbody k h := by
    obtain ⟨hhead, hparts⟩ := List.forall_mem_append.mp h
    have hspan : m.span head.span := (hhead (.head head) (List.mem_singleton.mpr rfl)).span
    show Checker.Blames m ((Item.func head body).check k)
    unfold Item.check
    split
    · exact .fail hspan
    · split
      · exact .fail hspan
      · exact .map (.mapState (hbody _ (List.forall_mem_append.mp hparts).1))
  stmt x hx k h := .map (hx k h)
  value e k h := .map (Expr.blames_checkOption (Part.of_from_option h))
  result p e k h := by
    have hresult : (Part.result p e).From m := h _ (List.mem_singleton.mpr rfl)
    exact .map (Expr.blames_checkReturn hresult.1 hresult.2)
  scope b hb k h := .map (Checker.blames_inBlock fun k => hb k (Part.from_within.mp h))
  opening b hb k h := .map (hb k h)
  inner x hx k h := .map (hx k h)
  clauses x hclauses k h := by
    refine .map ?_
    rw [Stmt.parts_clauses] at h
    unfold Pass.clauses
    split
    next hx =>
      rw [if_pos hx] at h
      exact Checker.blames_inBlock (Checker.Blames.each hclauses (Part.from_within.mp h))
    next hx =>
      rw [if_neg hx] at h
      exact Checker.Blames.each hclauses h k

/-- **A check blames a place of the program.** -/
theorem Block.blames_check (b : Block) (k : Checker) (h : ∀ p ∈ b.parts, p.From m) :
    Checker.Blames m (b.check k) := Traversal.blames_check.forBlock b k h

end Jaf
