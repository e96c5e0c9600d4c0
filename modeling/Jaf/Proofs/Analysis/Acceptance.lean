import Jaf.Proofs.Analysis.CheckErrors
import Jaf.Proofs.Analysis.ConstantExprs
import Jaf.Proofs.Analysis.ProgramParts

/-!
# Which programs are accepted

Whether a check succeeds does not depend on the shape of statements but on what stands at their spots, in
the order in which the check reaches them. `Part.pass` says what one part asks of the state the check is
in and what it does to that state, and `Block.after?_check` says that checking a block is passing its
parts one after the other. Entering and leaving blocks are parts too, so a property of states that all
parts keep is a property that a whole check keeps.

What single parts ask for is said in terms of the rules of typing: an expression passes if the rules give
it a type (`Expr.after?_check`), and the initial value of a global if it has the type of the global and
its value is known (`Expr.after?_checkInitval`).
-/

namespace Jaf

/-! ## States after steps -/

namespace Step

variable {σ τ υ α β : Type}

/-- The state after a step, if the step succeeds. -/
def after? (r : Step σ τ α) : Option σ := r.result.toOption.map fun _ => r.state

@[simp] theorem after?_done (t : τ) (s : σ) (a : α) : (done t s a).after? = some s := rfl

@[simp] theorem after?_fail (t : τ) (s : σ) (p : Span) (c : SemanticCause) :
    (fail t s p c : Step σ τ α).after? = none := rfl

@[simp] theorem after?_error (t : τ) (s : σ) (e : SemanticError) :
    (ofResult t s (.error e) : Step σ τ α).after? = none := rfl

@[simp] theorem after?_map (wrap : τ → υ) (r : Step σ τ α) : (r.map wrap).after? = r.after? := rfl

@[simp] theorem after?_mapState (f : σ → σ) (r : Step σ τ α) :
    (r.mapState f).after? = r.after?.map f := by
  obtain ⟨t, s, result⟩ := r
  cases result <;> rfl

theorem after?_eq_some {r : Step σ τ Unit} {s : σ} :
    r.after? = some s ↔ ∃ t, r = ⟨t, s, .ok ()⟩ := by
  obtain ⟨t, s', result⟩ := r
  cases result with
  | ok u => simp [after?, Except.toOption]
  | error e => simp [after?, Except.toOption]

/-- The second of two steps starts with the state after the first. -/
theorem after?_andThen {r : Step σ τ α} {wrap : τ → υ} {next : τ → α → σ → Step σ υ β}
    {g : σ → Option σ} (h : ∀ t a s, (next t a s).after? = g s) :
    (r.andThen wrap next).after? = r.after?.bind g := by
  obtain ⟨t, s, result⟩ := r
  cases result with
  | ok a => exact h t a s
  | error e => rfl

end Step

/-! ## What parts ask for -/

/-- Passes a part: the state after it, if it asks for nothing that is not so. -/
def Part.pass : Part → Checker → Option Checker
  | .var d, k => (d.check k).after?
  | .head h, k => do
    let n ← h.number
    let f ← k.container.functions[n]?
    some ⟨k.session.note (.functionEntered h.name), k.scopes.enterFunction n f.argCount⟩
  | .value e, k => (e.check k).after?
  | .result span e, k => (Expr.checkReturn e span k).after?
  | .enter, k => some { k with scopes := k.scopes.enterBlock?.getD k.scopes }
  | .leave, k => some k.leave

/-- Passes parts one after the other. -/
def Part.passAll : List Part → Checker → Option Checker
  | [], k => some k
  | p :: ps, k => (p.pass k).bind (passAll ps)

theorem Part.passAll_append (ps qs : List Part) (k : Checker) :
    Part.passAll (ps ++ qs) k = (Part.passAll ps k).bind (Part.passAll qs) := by
  induction ps generalizing k with
  | nil => rfl
  | cons p ps ih =>
      rw [List.cons_append, Part.passAll, Part.passAll, Option.bind_assoc]
      congr 1
      funext k'
      exact ih k'

@[simp] theorem Part.passAll_singleton (p : Part) (k : Checker) : Part.passAll [p] k = p.pass k := by
  rw [Part.passAll]
  cases p.pass k <;> rfl

/-! ## Checking is passing parts -/

/-- A step in a block of its own passes the parts of the step between the two ends of the block. -/
theorem Checker.after?_inBlock {τ : Type} {step : Checker → Step Checker τ Unit} {ps : List Part}
    (hstep : ∀ k, (step k).after? = Part.passAll ps k) (hpasses : ∀ k : Checker, k.Passes (step k).state)
    (k : Checker) : (k.inBlock step).after? = Part.passAll (Part.within ps) k := by
  have hends : ∀ k', Part.passAll (ps ++ [.leave]) k' = (step k').after?.map Checker.leave := by
    intro k'
    rw [Part.passAll_append, hstep]
    cases Part.passAll ps k' with
    | none => rfl
    | some k'' => exact Part.passAll_singleton .leave k''
  rw [Part.within, Part.passAll_append, Part.passAll_singleton, Part.pass, Option.bind_some, hends]
  unfold Checker.inBlock
  cases henter : k.scopes.enterBlock? with
  | some scopes => exact Step.after?_mapState _ _
  | none =>
      -- there is no block outside of functions, and then there is nothing to leave
      have hframes : k.scopes.frames = [] := by
        simpa [Scopes.enterBlock?, Scopes.function?] using henter
      have hstill := (hpasses k).outside hframes
      dsimp only [Option.getD_none]
      cases hafter : (step k).after? with
      | none => rfl
      | some k' =>
          obtain ⟨t, ht⟩ := Step.after?_eq_some.mp hafter
          rw [ht] at hstill
          have hleave : k'.leave = k' := by
            obtain ⟨session, frames⟩ := k'
            have hnil : frames.frames = [] := hstill
            show Checker.mk session ⟨frames.frames.tail⟩ = ⟨session, frames⟩
            rw [hnil]
            exact congrArg _ (congrArg Scopes.mk hnil.symm)
          rw [Option.map_some, hleave]

theorem Expr.after?_checkOption (e : Option Expr) (k : Checker) :
    (Expr.checkOption e k).after? = Part.passAll (Part.option e) k := by
  cases e with
  | none => rfl
  | some e => exact (Part.passAll_singleton (.value e) k).symm

theorem Step.after?_each {τ : Type} {step : τ → Checker → Step Checker τ Unit} {parts : τ → List Part}
    {ts : List τ} (h : ∀ t ∈ ts, ∀ k, (step t k).after? = Part.passAll (parts t) k) (k : Checker) :
    (Step.each step ts k).after? = Part.passAll (ts.flatMap parts) k := by
  induction ts generalizing k with
  | nil => rfl
  | cons t ts ih =>
      obtain ⟨ht, hts⟩ := List.forall_mem_cons.mp h
      rw [List.flatMap_cons, Part.passAll_append, ← ht]
      exact Step.after?_andThen fun _ _ k' => ih hts k'

theorem Traversal.after?_check : Traversal.check.Rules (fun b k r => r.after? = Part.passAll b.parts k)
    (fun i k r => r.after? = Part.passAll i.parts k) (fun x k r => r.after? = Part.passAll x.parts k)
    fun c k r => r.after? = Part.passAll c.parts k where
  block items p hitems k := by
    rw [Block.parts, Item.partsOf_eq_flatMap]
    exact Step.after?_each hitems k
  var d k := (Part.passAll_singleton (.var d) k).symm
  func h body hbody k := by
    show ((Item.func h body).check k).after? = _
    unfold Item.check
    rw [Item.parts, Part.passAll_append, Part.passAll_singleton, Part.pass]
    cases h.number with
    | none => rfl
    | some n =>
        dsimp only [Option.bind_eq_bind, Option.bind_some]
        cases k.container.functions[n]? with
        | none => rfl
        | some f =>
            have hbody : ∀ k, (body.check k).after? = Part.passAll body.parts k := hbody
            dsimp only [Option.bind_some, Checker.inFunction]
            rw [Step.after?_map, Step.after?_mapState, hbody, Part.passAll_append]
            cases Part.passAll body.parts _ with
            | none => rfl
            | some k' => rfl
  stmt x hx k := hx k
  value e k := Expr.after?_checkOption e k
  result p e k := (Part.passAll_singleton (.result p e) k).symm
  scope b hb k := Checker.after?_inBlock hb (fun k => (Block.checks_check b k).passes) k
  opening b hb k := hb k
  inner x hx k := hx k
  clauses x hclauses k := by
    have hpasses : ∀ k : Checker, k.Passes (Step.each Traversal.check.clause x.clauses k).state :=
      fun k => (Checks.eachKnown (fun c _ => Traversal.checks_check.forClause c) k).passes
    rw [Step.after?_map, Stmt.parts_clauses]
    unfold Pass.clauses
    split
    · exact Checker.after?_inBlock (Step.after?_each hclauses) hpasses k
    · exact Step.after?_each hclauses k

/-- **Checking a block is passing its parts.** -/
theorem Block.after?_check (b : Block) (k : Checker) : (b.check k).after? = Part.passAll b.parts k :=
  Traversal.after?_check.forBlock b k

theorem Item.after?_check (i : Item) (k : Checker) : (i.check k).after? = Part.passAll i.parts k :=
  Traversal.after?_check.forItem i k

/-! ## Blocks are entered and left in pairs -/

/-- Whether no more blocks are left than have been entered, with `n` of them entered before. -/
def Part.stays : Nat → List Part → Bool
  | _, [] => true
  | n, .enter :: ps | n, .head _ :: ps => stays (n + 1) ps
  | 0, .leave :: _ => false
  | n + 1, .leave :: ps => stays n ps
  | n, .var _ :: ps | n, .value _ :: ps | n, .result _ _ :: ps => stays n ps

/-- Parts that leave all blocks that they enter, whatever comes after them. -/
def Part.Stay (ps : List Part) : Prop := ∀ n qs, Part.stays n (ps ++ qs) = Part.stays n qs

theorem Part.Stay.flatMap {τ : Type} {parts : τ → List Part} {ts : List τ}
    (h : ∀ t ∈ ts, Part.Stay (parts t)) : Part.Stay (ts.flatMap parts) := by
  induction ts with
  | nil => exact fun n qs => rfl
  | cons t ts ih =>
      obtain ⟨ht, hts⟩ := List.forall_mem_cons.mp h
      intro n qs
      rw [List.flatMap_cons, List.append_assoc, ht, ih hts]

theorem Part.Stay.within {ps : List Part} (h : Part.Stay ps) : Part.Stay (Part.within ps) := by
  intro n qs
  simp [Part.within, Part.stays, h (n + 1)]

theorem Clause.stay_parts {c : Clause} (h : c.Has (fun b => Part.Stay b.parts) fun x => Part.Stay x.parts) :
    Part.Stay c.parts := by
  cases c with
  | value e => cases e <;> exact fun n qs => rfl
  | result => exact fun n qs => by simp [Clause.parts, Part.stays]
  | scope b => exact h.within
  | opening | inner => exact h

theorem TreeRules.stay_parts : TreeRules (fun b => Part.Stay b.parts) (fun i => Part.Stay i.parts)
    fun x => Part.Stay x.parts where
  block items p hitems := by
    rw [Block.parts, Item.partsOf_eq_flatMap]
    exact .flatMap hitems
  var d n qs := by simp [Part.stays]
  func h body hbody n qs := by simp [Part.stays, hbody (n + 1)]
  stmt x hx := hx
  clauses x hx := by
    have hclauses : Part.Stay (x.clauses.flatMap Clause.parts) :=
      .flatMap fun c hc => Clause.stay_parts (hx c hc)
    rw [Stmt.parts_clauses]
    split
    · exact hclauses.within
    · exact hclauses

/-- A block leaves all blocks that it enters. -/
theorem Block.stays_parts (b : Block) (n : Nat) (ps : List Part) :
    Part.stays n (b.parts ++ ps) = Part.stays n ps := TreeRules.stay_parts.forBlock b n ps

/-! ## What expressions and declarations ask for -/

namespace Expr

variable {e : Expr} {k k' : Checker}

theorem check_of_hasType {t : ValueType} (h : HasType k.lookup e t) :
    ∃ x, e.check k = .done x k () ∧ x.type? = some t ∧ x.literal? = e.constant? := by
  obtain ⟨x, hx⟩ := infer_of_hasType h
  obtain ⟨hsettled, htype⟩ := infer_settled e hx
  refine ⟨x.fold, ?_, (fold_settled hsettled).2.trans htype, ?_⟩
  · rw [Expr.check, hx]
  · rw [literal?_fold, constant?_of_infer hx]

theorem hasType_of_check {x : Expr} (h : e.check k = ⟨x, k', .ok ()⟩) :
    ∃ t, HasType k.lookup e t := by
  unfold Expr.check at h
  split at h
  next y t hy => exact ⟨t, hasType_of_infer hy⟩
  next => simp at h

/-- An expression passes if the rules give it a type. -/
theorem after?_check : (e.check k).after? = some k' ↔ k' = k ∧ ∃ t, HasType k.lookup e t := by
  rw [Step.after?_eq_some]
  constructor
  · intro h
    obtain ⟨x, hx⟩ := h
    exact ⟨(Expr.check_eq_ok hx).1, hasType_of_check hx⟩
  · intro h
    obtain ⟨rfl, t, ht⟩ := h
    obtain ⟨x, hx, _⟩ := check_of_hasType ht
    exact ⟨x, hx⟩

theorem checkTyped_of_hasType {t : ValueType} (h : HasType k.lookup e t) :
    ∃ x, e.checkTyped t k = .done x k () ∧ x.literal? = e.constant? := by
  obtain ⟨x, hx, htype, hlit⟩ := check_of_hasType h
  refine ⟨x, ?_, hlit⟩
  rw [Expr.checkTyped, hx]
  simp only [Step.andThen, Step.done, Expr.require, htype, Option.getD_some, if_true]
  rfl

/-- An expression passes where a type is asked for if the rules give it that type. -/
theorem after?_checkTyped {t : ValueType} :
    (e.checkTyped t k).after? = some k' ↔ k' = k ∧ HasType k.lookup e t := by
  rw [Step.after?_eq_some]
  constructor
  · intro h
    obtain ⟨x, hx⟩ := h
    obtain ⟨y, k₁, _, hy, hrequire⟩ := Step.andThen_eq_ok.mp hx
    obtain ⟨rfl, rfl, hrequire⟩ := Step.ofResult_eq_ok.mp hrequire
    obtain ⟨rfl, -⟩ := Expr.check_eq_ok hy
    obtain ⟨s, hs⟩ := hasType_of_check hy
    -- what was derived is what is asked for
    obtain ⟨y', hy', htype, _⟩ := check_of_hasType hs
    rw [hy] at hy'
    cases hy'
    unfold Expr.require at hrequire
    simp only [htype, Option.getD_some] at hrequire
    split at hrequire
    next hst => exact ⟨rfl, hst ▸ hs⟩
    next => cases hrequire
  · intro h
    obtain ⟨rfl, ht⟩ := h
    obtain ⟨x, hx, _⟩ := checkTyped_of_hasType ht
    exact ⟨x, hx⟩

/-- An initial value passes if it has the type that is asked for and its value is known. -/
theorem after?_checkInitval {name : String} {slot : Nat} {t : ValueType} :
    (e.checkInitval name slot t k).after? = some k' ↔
      HasType k.lookup e t ∧ ∃ v, e.constant? = some v ∧
        k' = { k with session := k.session.addInitval name ⟨slot, v⟩ } := by
  constructor
  · intro h
    obtain ⟨x, hx⟩ := Step.after?_eq_some.mp h
    obtain ⟨y, k₁, _, hy, hrest⟩ := Step.andThen_eq_ok.mp hx
    obtain ⟨rfl, ht⟩ := after?_checkTyped.mp (Step.after?_eq_some.mpr ⟨y, hy⟩)
    obtain ⟨y', hy', hlit⟩ := checkTyped_of_hasType ht
    rw [hy] at hy'
    cases hy'
    rw [hlit] at hrest
    cases hv : e.constant? with
    | none => rw [hv] at hrest; simp at hrest
    | some v =>
        rw [hv] at hrest
        obtain ⟨_, rfl, _⟩ := Step.done_eq_ok.mp hrest
        exact ⟨ht, v, rfl, rfl⟩
  · intro h
    obtain ⟨ht, v, hv, rfl⟩ := h
    obtain ⟨x, hx, hlit⟩ := checkTyped_of_hasType ht
    rw [Expr.checkInitval, hx]
    simp only [Step.andThen, Step.done, hlit, hv]
    rfl

end Expr

/-- The function that a check is in, by its entry. -/
def Checker.entry? (k : Checker) : Option Function :=
  k.scopes.function?.bind fun n => k.container.functions[n]?

/-- The record of a slot of the function that a check is in. -/
def Checker.slot? (k : Checker) (slot : Nat) : Option Variable := k.entry?.bind fun f => f.vars[slot]?

/-- The state after declaring a slot, if its name is new to the block. -/
def Checker.declare? (k : Checker) (slot : Nat) : Option Checker :=
  (k.scopes.declare k.container slot (.point 0)).toOption.map fun scopes => { k with scopes }

theorem Checker.function_eq (k : Checker) (p : Span) :
    (k.function p).toOption = k.entry? := by
  unfold Checker.function Checker.entry?
  rw [Option.bind_eq_bind]
  cases k.scopes.function?.bind fun n => k.container.functions[n]? <;> rfl

theorem Checker.slotType_eq (k : Checker) (slot : Nat) (p : Span) :
    (k.slotType slot p).toOption = (k.slot? slot).map fun v => v.type.valueType := by
  rw [Checker.slot?, ← k.function_eq p]
  unfold Checker.slotType
  cases k.function p with
  | error e => rfl
  | ok f =>
      rw [show Except.toOption (.ok f) = some f from rfl, Option.bind_some]
      simp only [bind, Except.bind]
      cases f.vars[slot]? <;> rfl

/-- Where a declaration stands matters only to messages. -/
theorem Scopes.declare_span (s : Scopes) (c : Container) (slot : Nat) (p q : Span) :
    (s.declare c slot p).toOption = (s.declare c slot q).toOption := by
  unfold Scopes.declare
  split
  · rfl
  · split
    · rfl
    · split
      · rfl
      · split <;> rfl

/-- A return passes if its value has the type of the function; no value counts as void. -/
theorem Expr.after?_checkReturn {e : Option Expr} {p : Span} {k k' : Checker} :
    (Expr.checkReturn e p k).after? = some k' ↔ k' = k ∧ ∃ f, k.entry? = some f ∧
      ∀ t, t = f.result.valueType → e.elim (t = .void) fun e => HasType k.lookup e t := by
  unfold Expr.checkReturn
  have hfunction := k.function_eq p
  cases hf : k.function p with
  | error err =>
      rw [hf] at hfunction
      simp [← hfunction, Except.toOption]
  | ok f =>
      rw [hf] at hfunction
      simp only [← hfunction, Except.toOption, Option.some.injEq, exists_eq_left', forall_eq]
      cases e with
      | some e => exact after?_checkTyped
      | none =>
          dsimp only [Option.elim_none]
          split
          next hvoid => simp [hvoid, eq_comm]
          next hvoid => simp [hvoid]

theorem VarDecl.after?_checkGlobal {d : VarDecl} {k k' : Checker} :
    (d.checkGlobal k).after? = some k' ↔ d.name = none ∧ k' = k ∨
      ∃ name slot, d.name = some name ∧ d.slot = some slot ∧ (d.init = none ∧ k' = k ∨
        ∃ e g v, d.init = some e ∧ k.container.globals[slot]? = some g ∧
          Expr.HasType k.lookup e g.type.valueType ∧ e.constant? = some v ∧
          k' = { k with session := k.session.addInitval name ⟨slot, v⟩ }) := by
  unfold VarDecl.checkGlobal
  cases d.name with
  | none => simp [eq_comm]
  | some name =>
      cases d.slot with
      | none => simp
      | some slot =>
          cases d.init with
          | none => simp [eq_comm]
          | some e =>
              dsimp only
              cases hg : k.container.globals[slot]? with
              | none => simp [hg]
              | some g => simp [hg, Expr.after?_checkInitval]

theorem VarDecl.after?_checkInit {d : VarDecl} {slot : Nat} {k k' : Checker} :
    (d.checkInit slot k).after? = some k' ↔ k' = k ∧ ∀ e, d.init = some e →
      ∃ v, k.slot? slot = some v ∧ Expr.HasType k.lookup e v.type.valueType := by
  unfold VarDecl.checkInit
  cases d.init with
  | none => simp [eq_comm]
  | some e =>
      have hslot := k.slotType_eq slot d.span
      cases ht : k.slotType slot d.span with
      | error err =>
          rw [ht] at hslot
          have hnone : k.slot? slot = none := Option.map_eq_none_iff.mp hslot.symm
          simp [hnone]
      | ok t =>
          rw [ht] at hslot
          obtain ⟨v, hv, rfl⟩ := Option.map_eq_some_iff.mp hslot.symm
          simp [hv, Expr.after?_checkTyped]

/-- A local passes if its initializer has the type of its slot and its name is new to the block. -/
theorem VarDecl.after?_checkLocal {d : VarDecl} {k k' : Checker} :
    (d.checkLocal k).after? = some k' ↔ d.name = none ∧ k' = k ∨
      ∃ slot, d.name.isSome = true ∧ d.slot = some slot ∧ k.declare? slot = some k' ∧
        ∀ e, d.init = some e →
          ∃ v, k.slot? slot = some v ∧ Expr.HasType k.lookup e v.type.valueType := by
  unfold VarDecl.checkLocal
  cases d.name with
  | none => simp [eq_comm]
  | some name =>
      cases d.slot with
      | none => simp
      | some slot =>
          dsimp only
          rw [Step.after?_andThen (g := fun k => k.declare? slot)]
          · rw [Option.bind_eq_some_iff]
            simp only [VarDecl.after?_checkInit]
            simp [and_comm]
          · intro d' _ k₁
            unfold Checker.declare?
            rw [Scopes.declare_span _ _ _ _ d'.span]
            cases k₁.scopes.declare k₁.container slot d'.span <;> rfl

/-! ## Types are not looked at -/

/-- The types that declarations write do not matter any more. -/
theorem Part.pass_bare (p : Part) (k : Checker) : p.bare.pass k = p.pass k := by
  cases p with
  | var d =>
      apply Option.ext
      intro k'
      show (d.bare.check k).after? = some k' ↔ (d.check k).after? = some k'
      unfold VarDecl.check
      split
      · rw [VarDecl.after?_checkGlobal, VarDecl.after?_checkGlobal]
        rfl
      · rw [VarDecl.after?_checkLocal, VarDecl.after?_checkLocal]
        rfl
  | _ => rfl

theorem Part.passAll_bare (ps : List Part) (k : Checker) :
    Part.passAll (ps.map Part.bare) k = Part.passAll ps k := by
  induction ps generalizing k with
  | nil => rfl
  | cons p ps ih =>
      rw [List.map_cons, Part.passAll, Part.passAll, Part.pass_bare]
      congr 1
      funext k'
      exact ih k'

end Jaf
