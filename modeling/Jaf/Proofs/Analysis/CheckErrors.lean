import Jaf.Proofs.Analysis.CheckVisits
import Jaf.Proofs.Analysis.ScopeStack
import Jaf.Proofs.Analysis.SessionMoves

/-!
# What a check leaves behind, and what it blames

A check of any part of a program, however it ends, leaves the tables alone but for initial values, and
the scopes as they were but for new slots in the innermost frame (`Checker.Passes`). This takes no
assumption about the tree: every frame that is pushed is popped again, also where a step fails.

If the declarations of the part have slots in the function that the check is in, then a failure has one
of two reasons (`Blamed`). The last expression that the check reached has no type, and the error is the
one of deriving it; or something stands in a place that asks for something else
(`SemanticCause.isDemand`). `Checks` says both of one step, and has a rule for each way of putting steps
together. Outside of functions the same holds of declarations that are in the tables (`Item.Listed`).
-/

namespace Jaf

/-! ## States that a check passes through -/

/-- The scopes are the same, but for slots that the innermost block has declared since. -/
inductive Scopes.Grows : Scopes → Scopes → Prop
  | outside : Grows ⟨[]⟩ ⟨[]⟩
  | inside {n : Nat} {slots new : List Nat} {frames : List Frame} :
      Grows ⟨⟨n, slots⟩ :: frames⟩ ⟨⟨n, slots ++ new⟩ :: frames⟩

namespace Scopes.Grows

theorem refl (s : Scopes) : s.Grows s := by
  obtain ⟨frames⟩ := s
  cases frames with
  | nil => exact .outside
  | cons frame frames =>
      have h : Grows ⟨frame :: frames⟩ ⟨⟨frame.function, frame.slots ++ []⟩ :: frames⟩ := .inside
      rwa [List.append_nil] at h

theorem trans {r s t : Scopes} (h : r.Grows s) (h' : s.Grows t) : r.Grows t := by
  cases h with
  | outside => exact h'
  | inside =>
      cases h' with
      | inside => rw [List.append_assoc]; exact .inside

theorem function?_eq {s s' : Scopes} (h : s.Grows s') : s'.function? = s.function? := by
  cases h <;> rfl

/-- A frame that was pushed is popped. -/
theorem leave {frame : Frame} {frames : List Frame} {s' : Scopes}
    (h : Grows ⟨frame :: frames⟩ s') : s'.leave = ⟨frames⟩ := by
  cases h with
  | inside => rfl

theorem declare {s s' : Scopes} {c : Container} {slot : Nat} {p : Span}
    (h : s.declare c slot p = .ok s') : s.Grows s' := by
  rw [Scopes.eq_of_declare h]
  obtain ⟨frames⟩ := s
  cases frames with
  | nil => exact .outside
  | cons frame frames => exact .inside

end Scopes.Grows

/-- A check has gone from one state to another. -/
structure Checker.Passes (k k' : Checker) : Prop where
  tables : k.container.SameTables k'.container
  session : k.session.Reaches k'.session
  scopes : k.scopes.Grows k'.scopes

/-- The check is in a function that has an entry. -/
def Checker.In (f : Function) (k : Checker) : Prop :=
  (k.scopes.function?.bind fun n => k.container.functions[n]?) = some f

namespace Checker.Passes

theorem refl (k : Checker) : k.Passes k := ⟨⟨rfl, rfl, rfl⟩, .refl, .refl _⟩

theorem trans {a b c : Checker} (h : a.Passes b) (h' : b.Passes c) : a.Passes c := by
  refine ⟨⟨?_, ?_, ?_⟩, h.session.trans h'.session, h.scopes.trans h'.scopes⟩
  · exact h'.tables.structs.trans h.tables.structs
  · exact h'.tables.functions.trans h.tables.functions
  · exact h'.tables.globals.trans h.tables.globals

theorem inFunction {f : Function} {k k' : Checker} (h : k.Passes k') (hk : k.In f) : k'.In f := by
  unfold Checker.In
  rw [h.scopes.function?_eq, h.tables.functions]
  exact hk

theorem outside {k k' : Checker} (h : k.Passes k') (hk : k.scopes.frames = []) :
    k'.scopes.frames = [] := by
  have hscopes := h.scopes
  rw [show k.scopes = ⟨[]⟩ from congrArg Scopes.mk hk] at hscopes
  generalize k'.scopes = scopes at hscopes
  cases hscopes
  rfl

/-- What happens between pushing a frame and popping it passes. -/
theorem around {k k' : Checker} {frame : Frame} {session : Session}
    (hsession : k.session.Reaches session)
    (htables : k.container.SameTables session.container)
    (h : Checker.Passes ⟨session, ⟨frame :: k.scopes.frames⟩⟩ k') : k.Passes k'.leave := by
  refine ⟨⟨?_, ?_, ?_⟩, hsession.trans h.session, ?_⟩
  · exact h.tables.structs.trans htables.structs
  · exact h.tables.functions.trans htables.functions
  · exact h.tables.globals.trans htables.globals
  · show k.scopes.Grows k'.scopes.leave
    rw [h.scopes.leave]
    exact .refl _

end Checker.Passes

/-! ## Blame -/

/-- What a place demands of what stands there: a type, a constant, or a name that is new to the block. -/
def SemanticCause.isDemand : SemanticCause → Bool
  | mismatch _ _ | notConstant | nameRedefined _ => true
  | _ => false

/-- An error that the last expression reached is to blame for, or the place that something stands in. -/
def Blamed (vs : List Visit) (e : SemanticError) : Prop :=
  e.cause.isDemand = true ∨
    ∃ v, vs.getLast? = some v ∧ (v.expr.infer v.checker.lookup).result = .error e

theorem Blamed.after {vs' : List Visit} {e : SemanticError} (h : Blamed vs' e) (vs : List Visit) :
    Blamed (vs ++ vs') e := by
  rcases h with hdemand | ⟨v, hv, hinfer⟩
  · exact .inl hdemand
  · exact .inr ⟨v, by rw [List.getLast?_append, hv]; rfl, hinfer⟩

/--
A step of a check from the given state. It passes, whether it fails or not; and if `P` holds, then an
error can be blamed on what the step reached.
-/
structure Checks {τ : Type} (P : Prop) (k : Checker) (vs : List Visit) (r : Step Checker τ Unit) :
    Prop where
  passes : k.Passes r.state
  blamed : P → ∀ {e : SemanticError}, r.result = .error e → Blamed vs e

/-- The check is in a function that has slots for the given declarations. -/
def Checker.Knows (k : Checker) (is : List Item) : Prop := ∃ f, k.In f ∧ Item.Known f.vars is

theorem Checker.Passes.knows {k k' : Checker} (h : k.Passes k') {is : List Item} (hk : k.Knows is) :
    k'.Knows is :=
  hk.imp fun _ hf => hf.imp_left h.inFunction

theorem Checker.Knows.each {τ : Type} {k : Checker} {g : τ → List Item} {ts : List τ}
    (h : k.Knows (ts.flatMap g)) : ∀ t ∈ ts, k.Knows (g t) :=
  fun t ht => h.imp fun _ hf => ⟨hf.1, Item.known_flatMap hf.2 t ht⟩

namespace Checks

variable {τ υ : Type} {P Q : Prop} {k : Checker} {is : List Item} {vs : List Visit}

theorem done {t : τ} : Checks P k vs (.done t k ()) := ⟨.refl k, fun _ _ h => by cases h⟩

theorem failed {t : τ} {e : SemanticError} (h : P → Blamed vs e) :
    Checks P k vs (.ofResult t k (.error e) : Step Checker τ Unit) :=
  ⟨.refl k, fun hP _ hr => by cases hr; exact h hP⟩

theorem map {r : Step Checker τ Unit} {wrap : τ → υ} (h : Checks P k vs r) :
    Checks P k vs (r.map wrap) := ⟨h.passes, h.blamed⟩

theorem mono {r : Step Checker τ Unit} (h : Checks P k vs r) (hPQ : Q → P) : Checks Q k vs r :=
  ⟨h.passes, fun hQ _ he => h.blamed (hPQ hQ) he⟩

/-- One step after another that reaches nothing new. -/
theorem andDemand {r : Step Checker τ Unit} {wrap : τ → υ}
    {next : τ → Unit → Checker → Step Checker υ Unit} (h : Checks P k vs r)
    (hnext : ∀ t k', k.Passes k' → Checks P k' vs (next t () k')) :
    Checks P k vs (r.andThen wrap next) := by
  obtain ⟨t, k', result⟩ := r
  cases result with
  | ok u =>
      have hsecond := hnext t k' h.passes
      exact ⟨h.passes.trans hsecond.passes, hsecond.blamed⟩
  | error err => exact ⟨h.passes, h.blamed⟩

/-- One step after another: the second starts where the first ends, if it ends well. -/
theorem andThen {r : Step Checker τ Unit} {wrap : τ → υ}
    {next : τ → Unit → Checker → Step Checker υ Unit} {g : Checker → List Visit}
    (h : Checks P k vs r) (hnext : ∀ t k', k.Passes k' → Checks P k' (g k') (next t () k')) :
    Checks P k (vs ++ r.visits g) (r.andThen wrap next) := by
  obtain ⟨t, k', result⟩ := r
  cases result with
  | ok u =>
      have hsecond := hnext t k' h.passes
      refine ⟨h.passes.trans hsecond.passes, fun hP e he => ?_⟩
      exact (hsecond.blamed hP he).after vs
  | error err =>
      rw [show vs ++ Step.visits ⟨t, k', .error err⟩ g = vs from List.append_nil vs]
      exact ⟨h.passes, h.blamed⟩

/-- A run: what has to hold for a step keeps holding while the check passes. -/
theorem each {step : τ → Checker → Step Checker τ Unit} {visits : τ → Checker → List Visit}
    {P : τ → Checker → Prop} {ts : List τ} (hP : ∀ t k k', k.Passes k' → P t k → P t k')
    (h : ∀ t ∈ ts, ∀ k, Checks (P t k) k (visits t k) (step t k)) (k : Checker) :
    Checks (∀ t ∈ ts, P t k) k (Checker.visitsEach step visits ts k) (Step.each step ts k) := by
  induction ts generalizing k with
  | nil => exact .done
  | cons t ts ih =>
      obtain ⟨ht, hts⟩ := List.forall_mem_cons.mp h
      refine ((ht k).mono fun hall => hall t List.mem_cons_self).andThen fun _ k' hk => ?_
      exact (ih hts k').map.mono fun hall u hu => hP u k k' hk (hall u (List.mem_cons_of_mem t hu))

/-- A run inside of a function. -/
theorem eachKnown {step : τ → Checker → Step Checker τ Unit} {visits : τ → Checker → List Visit}
    {g : τ → List Item} {ts : List τ} (h : ∀ t ∈ ts, ∀ k, Checks (k.Knows (g t)) k (visits t k) (step t k))
    (k : Checker) :
    Checks (k.Knows (ts.flatMap g)) k (Checker.visitsEach step visits ts k) (Step.each step ts k) :=
  (each (P := fun t k => k.Knows (g t)) (fun _ _ _ hk => hk.knows) h k).mono Checker.Knows.each

/-- A step in a block of its own, which belongs to the same function. -/
theorem inBlock {step : Checker → Step Checker τ Unit} {g : Checker → List Visit}
    (h : ∀ k', Checks (k'.Knows is) k' (g k') (step k')) :
    Checks (k.Knows is) k (k.visitsInBlock g) (k.inBlock step) := by
  unfold Checker.inBlock Checker.visitsInBlock
  cases hfunction : k.scopes.function? with
  | none =>
      simp only [Scopes.enterBlock?, hfunction, Option.map_none]
      exact h k
  | some n =>
      simp only [Scopes.enterBlock?, hfunction, Option.map_some]
      have hinner := h { k with scopes := ⟨⟨n, []⟩ :: k.scopes.frames⟩ }
      refine ⟨.around .refl ⟨rfl, rfl, rfl⟩ hinner.passes, fun hknows => ?_⟩
      obtain ⟨f, hf, his⟩ := hknows
      refine hinner.blamed ⟨f, ?_, his⟩
      unfold Checker.In at hf ⊢
      rw [hfunction] at hf
      exact hf

end Checks

/-! ## Expressions -/

namespace Expr

variable {P : Prop} {k : Checker}

theorem checks_check (e : Expr) : Checks P k [⟨e, k⟩] (e.check k) := by
  unfold Expr.check
  split
  next => exact .done
  next x err hinfer =>
    refine .failed fun _ => .inr ⟨_, rfl, ?_⟩
    show (e.infer k.lookup).result = _
    rw [hinfer]

theorem checks_checkOption (e : Option Expr) :
    Checks P k (Expr.visits e k) (Expr.checkOption e k) := by
  cases e with
  | none => exact .done
  | some e => exact (checks_check e).map

theorem checks_checkTyped (e : Expr) (expected : ValueType) :
    Checks P k [⟨e, k⟩] (e.checkTyped expected k) := by
  refine (checks_check e).andDemand fun e' k' _ => ?_
  unfold Expr.require
  dsimp only
  split
  · exact .done
  · exact .failed fun _ => .inl rfl

theorem checks_checkInitval (e : Expr) (name : String) (slot : Nat) (expected : ValueType) :
    Checks P k [⟨e, k⟩] (e.checkInitval name slot expected k) := by
  refine (checks_checkTyped e expected).andDemand fun e' k' _ => ?_
  split
  next value _ =>
    exact ⟨⟨⟨rfl, rfl, rfl⟩, .single .addInitval, .refl _⟩, fun _ _ h => by cases h⟩
  next => exact .failed fun _ => .inl rfl

end Expr

/-! ## Variables and returns -/

theorem Checker.In.function_eq {f : Function} {k : Checker} (h : k.In f) (p : Span) :
    k.function p = .ok f := by
  unfold Checker.function
  rw [show (k.scopes.function? >>= fun n => k.container.functions[n]?) = some f from h]

theorem Checker.In.isGlobal_eq {f : Function} {k : Checker} (h : k.In f) :
    k.scopes.isGlobal = false := by
  obtain ⟨n, hn, _⟩ := Option.bind_eq_some_iff.mp h
  obtain ⟨frame, hframe, _⟩ := Option.map_eq_some_iff.mp hn
  unfold Scopes.isGlobal
  cases hk : k.scopes.frames with
  | nil => rw [hk] at hframe; cases hframe
  | cons => rfl

/-- A named variable that a function knows has a slot there. -/
theorem Item.Known.at {vars : List Variable} {d : VarDecl} (h : Item.Known vars [.var d])
    (hname : d.name.isSome = true) : ∃ slot, d.At vars slot :=
  h.recorded d (by rw [Item.variables_named hname]; exact List.mem_cons_self)

/-- A named variable that is known has an entry at its slot, in the function that the check is in. -/
theorem Checker.Knows.at {k : Checker} {d : VarDecl} (h : k.Knows [.var d]) {name : String}
    (hname : d.name = some name) : ∃ f slot v, k.In f ∧ d.slot = some slot ∧ f.vars[slot]? = some v := by
  obtain ⟨f, hf, hd⟩ := h
  obtain ⟨slot, hslot, v, hv, _⟩ := hd.at (by rw [hname]; rfl)
  exact ⟨f, slot, v, hf, hslot, hv⟩

/-- A slot of the function can be declared, unless the block has its name already. -/
theorem Scopes.declare_error {f : Function} {k : Checker} (hf : k.In f) {slot : Nat} {v : Variable}
    (hv : f.vars[slot]? = some v) {p : Span} {e : SemanticError}
    (he : k.scopes.declare k.container slot p = .error e) : e.cause.isDemand = true := by
  obtain ⟨n, hn, hentry⟩ := Option.bind_eq_some_iff.mp hf
  obtain ⟨frame, hframe, rfl⟩ := Option.map_eq_some_iff.mp hn
  obtain ⟨frames, hframes⟩ := List.head?_eq_some_iff.mp hframe
  simp only [Scopes.declare, hframes, hentry, hv] at he
  split at he
  · cases he; rfl
  · cases he

namespace VarDecl

variable {k : Checker}

theorem checks_checkGlobal (d : VarDecl) :
    Checks (d.name.isSome = true → ∃ slot, d.At k.container.globals slot) k (d.visits k)
      (d.checkGlobal k) := by
  unfold VarDecl.checkGlobal VarDecl.visits
  cases hname : d.name with
  | none => exact .done
  | some name =>
      cases hslot : d.slot with
      | none =>
          refine .failed fun hd => ?_
          obtain ⟨slot, hslot', _⟩ := hd rfl
          rw [hslot] at hslot'
          cases hslot'
      | some slot =>
          cases hinit : d.init with
          | none => exact .done
          | some init =>
              dsimp only
              split
              next hnone =>
                refine .failed fun hd => ?_
                obtain ⟨slot', hslot', v, hv, _⟩ := hd rfl
                rw [hslot] at hslot'
                cases hslot'
                rw [hnone] at hv
                cases hv
              next g _ => exact (Expr.checks_checkInitval init name slot _).map

theorem checks_checkInit {d : VarDecl} (hname : d.name.isSome = true) {slot : Nat}
    (hslot : d.slot = some slot) :
    Checks (k.Knows [.var d]) k (d.visits k) (d.checkInit slot k) := by
  obtain ⟨name, hname⟩ := Option.isSome_iff_exists.mp hname
  unfold VarDecl.checkInit VarDecl.visits
  rw [hname]
  cases hinit : d.init with
  | none => exact .done
  | some e =>
      dsimp only
      split
      next err herr =>
        refine .failed fun hknows => ?_
        obtain ⟨f, _, v, hf, hslot', hv⟩ := hknows.at hname
        cases hslot.symm.trans hslot'
        simp [Checker.slotType, hf.function_eq, hv, bind, Except.bind] at herr
      next expected _ => exact (Expr.checks_checkTyped e expected).map

theorem checks_checkLocal (d : VarDecl) :
    Checks (k.Knows [.var d]) k (d.visits k) (d.checkLocal k) := by
  unfold VarDecl.checkLocal
  split
  next => exact .done
  next name hname hslot =>
    refine .failed fun hknows => ?_
    obtain ⟨_, _, _, _, hslot', _⟩ := hknows.at hname
    cases hslot.symm.trans hslot'
  next name slot hname hslot =>
    refine (checks_checkInit (by rw [hname]; rfl) hslot).andDemand fun d' k' hk => ?_
    split
    next scopes hscopes =>
      exact ⟨⟨⟨rfl, rfl, rfl⟩, .refl, .declare hscopes⟩, fun _ _ h => by cases h⟩
    next err herr =>
      refine .failed fun hknows => ?_
      obtain ⟨f, _, v, hf, hslot', hv⟩ := hknows.at hname
      cases hslot.symm.trans hslot'
      exact .inl (Scopes.declare_error (hk.inFunction hf) hv herr)

theorem checks_check (d : VarDecl) : Checks (k.Knows [.var d]) k (d.visits k) (d.check k) := by
  unfold VarDecl.check
  split
  next hglobal =>
    -- inside of a function the variable is a local
    refine (checks_checkGlobal d).mono fun hknows => ?_
    obtain ⟨f, hf, _⟩ := hknows
    rw [hf.isGlobal_eq] at hglobal
    cases hglobal
  next => exact checks_checkLocal d

end VarDecl

theorem Expr.checks_checkReturn {k : Checker} (e : Option Expr) (p : Span) :
    Checks (k.Knows []) k (Expr.visits e k) (Expr.checkReturn e p k) := by
  unfold Expr.checkReturn
  split
  next err herr =>
    refine .failed fun hknows => ?_
    obtain ⟨f, hf, _⟩ := hknows
    rw [hf.function_eq] at herr
    cases herr
  next f _ =>
    dsimp only
    cases e with
    | some e => exact (Expr.checks_checkTyped e _).map
    | none =>
        dsimp only
        split
        · exact .done
        · exact .failed fun _ => .inl rfl

/-! ## Blocks and statements -/

/-- A function is checked in a frame of its own, by its entry. -/
theorem Item.checks_function {k : Checker} {head : FuncHead} {body : Block}
    (hbody : ∀ k', Checks (k'.Knows body.declarations) k' (body.visits k') (body.check k')) :
    Checks (∃ n f, head.number = some n ∧ k.container.functions[n]? = some f ∧
        Item.Known f.vars body.declarations) k
      ((Item.func head body).visits k) ((Item.func head body).check k) := by
  rw [Item.check, Item.visits]
  cases hnumber : head.number with
  | none =>
      refine .failed fun hentry => ?_
      obtain ⟨n, _, hn, _⟩ := hentry
      cases hn
  | some n =>
      dsimp only
      cases hentry : k.container.functions[n]? with
      | none =>
          refine .failed fun hlisted => ?_
          obtain ⟨n', f, hn, hf, _⟩ := hlisted
          cases hn
          rw [hentry] at hf
          cases hf
      | some f =>
          have hinner := hbody ⟨k.session.note (.functionEntered head.name),
            k.scopes.enterFunction n f.argCount⟩
          refine ⟨.around (.single (.note rfl)) ⟨rfl, rfl, rfl⟩ hinner.passes, ?_⟩
          rintro ⟨n', f', hn, hf', hknown⟩
          cases hn
          rw [hentry] at hf'
          cases hf'
          exact hinner.blamed ⟨f, hentry, hknown⟩

theorem Traversal.checks_check : Traversal.check.Rules
    (fun b k r => Checks (k.Knows b.declarations) k (b.visits k) r)
    (fun i k r => Checks (k.Knows i.declarations) k (i.visits k) r)
    (fun x k r => Checks (k.Knows x.declarations) k (x.visits k) r)
    fun c k r => Checks (k.Knows c.declarations) k (c.visits k) r where
  block items p hitems k := by
    rw [Block.visits, Item.visitsOf_eq_visitsEach, Block.declarations, Item.declarationsOf_eq_flatMap]
    exact (Checks.eachKnown hitems k).map
  var d k := (VarDecl.checks_check d).map
  func head body hbody k := by
    -- there are no functions inside of functions, but the frame of one is popped all the same
    refine (Item.checks_function hbody).mono fun hknows => ?_
    obtain ⟨f, _, his⟩ := hknows
    have hflat := his.flat (.func head body) (by simp)
    cases hflat
  stmt x hx k := (hx k).map
  value e k := (Expr.checks_checkOption e).map
  result p e k := (Expr.checks_checkReturn e p).map
  scope b hb k := (Checks.inBlock hb).map
  opening b hb k := (hb k).map
  inner x hx k := (hx k).map
  clauses x hclauses k := by
    rw [Stmt.visits_clauses, Stmt.declarations_clauses]
    refine Checks.map ?_
    unfold Pass.clauses Stmt.visitsOfClauses
    split
    · exact .inBlock fun k' => .eachKnown hclauses k'
    · exact .eachKnown hclauses k

/-- **How the check of a block ends.** -/
theorem Block.checks_check (b : Block) (k : Checker) :
    Checks (k.Knows b.declarations) k (b.visits k) (b.check k) := Traversal.checks_check.forBlock b k

theorem Item.checks_check (i : Item) (k : Checker) :
    Checks (k.Knows i.declarations) k (i.visits k) (i.check k) := Traversal.checks_check.forItem i k

/-! ## Outside of functions -/

/-- A top-level declaration carries the number of an entry that describes it. -/
def Item.Listed (c : Container) : Item → Prop
  | .var d => d.name.isSome = true → ∃ slot, d.At c.globals slot
  | .func head body =>
    ∃ n f, head.number = some n ∧ c.functions[n]? = some f ∧ f.Describes (head, body)
  | .stmt _ => False

theorem Item.Listed.of_sameTables {c c' : Container} (h : c.SameTables c') {i : Item}
    (hi : i.Listed c) : i.Listed c' := by
  cases i with
  | var d => unfold Item.Listed; rw [h.globals]; exact hi
  | func head body => unfold Item.Listed; rw [h.functions]; exact hi
  | stmt x => cases hi

theorem Item.checks_listed {i : Item} {k : Checker} (hi : i.Listed k.container)
    (hk : k.scopes.frames = []) : Checks True k (i.visits k) (i.check k) := by
  cases i with
  | var d =>
      unfold Item.check Item.visits VarDecl.check
      rw [if_pos (by rw [Scopes.isGlobal, hk]; rfl)]
      exact ((VarDecl.checks_checkGlobal d).mono fun _ => hi).map
  | func head body =>
      obtain ⟨n, f, hn, hf, hdesc⟩ := hi
      exact (Item.checks_function (Block.checks_check body)).mono fun _ => ⟨n, f, hn, hf, hdesc.known⟩
  | stmt x => cases hi

/-- **What the check of a program blames.** -/
theorem Block.checks_program {b : Block} {s : Session} (hb : ∀ i ∈ b.items, i.Listed s.container) :
    Checks True (.ofSession s) (b.visits (.ofSession s)) (b.checkProgram s) := by
  obtain ⟨items, p⟩ := b
  have hpass : ∀ (i : Item) (k k' : Checker), k.Passes k' →
      i.Listed k.container ∧ k.scopes.frames = [] → i.Listed k'.container ∧ k'.scopes.frames = [] :=
    fun i k k' hk hi => ⟨hi.1.of_sameTables hk.tables, hk.outside hi.2⟩
  have hitems : ∀ i ∈ items, ∀ k, Checks (i.Listed k.container ∧ k.scopes.frames = []) k (i.visits k)
      (i.check k) :=
    fun i _ k => ⟨(i.checks_check k).passes, fun hi => (Item.checks_listed hi.1 hi.2).blamed trivial⟩
  have hrun := Checks.each hpass hitems (.ofSession s)
  unfold Block.checkProgram Block.check Block.visits
  rw [Item.checkAll_eq_each, Item.visitsOf_eq_visitsEach]
  exact hrun.map.mono fun _ i hi => ⟨hb i hi, rfl⟩

end Jaf
