import Jaf.Proofs.Analysis.DuplicateNames

/-!
# Returns and result types

A return is checked against the result type of the function that the check is in: its value must have
exactly that type, and a return without a value needs a function that is void. Here this is said of whole
programs, with the returns of a body at any depth listed by `Block.returns`. `Part.Checked` says what a
check makes of each part of a body, one by one, so that the returns of the text and those of the analysed
program go in step (`Return.Answers`).

A value whose type is void may be returned from a void function. Calls of void functions have such a type,
and so do conditionals and comma lists of them; nothing else tells a return with a value from one without.
-/

namespace Jaf

/-! ## Returns -/

/-- A return statement: where it stands, and its value if it has one. -/
structure Return where
  span : Span
  value : Option Expr

/-- The return that a part is. -/
def Part.return? : Part → Option Return
  | .result p e => some ⟨p, e⟩
  | _ => none

/-- The returns in a block, at any depth. -/
def Block.returns (b : Block) : List Return := b.parts.filterMap Part.return?

/--
What a check makes of a return in a function with the given result type: without a value it stays, and
the function is void; with a value it has a value of that type.
-/
inductive Return.Answers (t : ValueType) : Return → Return → Prop
  | bare {p : Span} (h : t = .void) : Answers t ⟨p, none⟩ ⟨p, none⟩
  | value {p : Span} {e e' : Expr} (h : e'.type? = some t) : Answers t ⟨p, some e⟩ ⟨p, some e'⟩

/-- What a check makes of a part of a function with the given result type. -/
inductive Part.Checked (t : ValueType) : Part → Part → Prop
  | var {d d' : VarDecl} : Checked t (.var d) (.var d')
  | value {e e' : Expr} : Checked t (.value e) (.value e')
  | result {p p' : Span} {e e' : Option Expr} (h : Return.Answers t ⟨p, e⟩ ⟨p', e'⟩) :
      Checked t (.result p e) (.result p' e')
  | enter : Checked t .enter .enter
  | leave : Checked t .leave .leave

theorem Part.Checked.returns {t : ValueType} {ps ps' : List Part}
    (h : List.Forall₂ (Part.Checked t) ps ps') :
    List.Forall₂ (Return.Answers t) (ps.filterMap Part.return?) (ps'.filterMap Part.return?) := by
  induction h with
  | nil => exact .nil
  | cons hp _ ih =>
      cases hp with
      | result hanswers => exact .cons hanswers ih
      | _ => exact ih

/-! ## Checking a function body -/

section Body

variable {f : Function} {k k' : Checker}

theorem Checker.Holds.isIn {n : Nat} {slots : List Nat} {outer : List Frame}
    (h : k.Holds n f slots outer) : k.In f := by
  rw [Checker.In, h.scopes]
  exact h.entry

/-- Blocks inside of a function belong to it. -/
theorem Checker.In.inBlock {τ : Type} {step : Checker → Step Checker τ Unit} {P : τ → Prop} {t : τ}
    (hk : k.In f)
    (hstep : ∀ {k k' : Checker} {t : τ}, k.In f → step k = ⟨t, k', .ok ()⟩ → P t)
    (h : k.inBlock step = ⟨t, k', .ok ()⟩) : P t := by
  obtain ⟨n, hn, hentry⟩ := Option.bind_eq_some_iff.mp hk
  unfold Checker.inBlock at h
  rw [Scopes.enterBlock?, hn] at h
  obtain ⟨k₁, hk₁, _⟩ := Step.mapState_eq_ok.mp h
  have hinner : Checker.In f ⟨k.session, ⟨⟨n, []⟩ :: k.scopes.frames⟩⟩ := hentry
  exact hstep hinner hk₁

/-- A value that is checked against a type has that type afterwards. -/
theorem Expr.type?_checkTyped {e e' : Expr} {t : ValueType}
    (h : e.checkTyped t k = ⟨e', k', .ok ()⟩) : e'.type? = some t := by
  obtain ⟨x, k₁, _, hx, h⟩ := Step.andThen_eq_ok.mp h
  obtain ⟨rfl, _, hrequire⟩ := Step.ofResult_eq_ok.mp h
  obtain ⟨u, hu⟩ := (Expr.check_eq_ok hx).2.self.typed
  rw [Expr.require_eq_ok, hu] at hrequire
  rw [hu, ← hrequire]
  rfl

theorem Expr.answers_checkReturn {e e' : Option Expr} {p : Span} (hk : k.In f)
    (h : Expr.checkReturn e p k = ⟨e', k', .ok ()⟩) :
    Return.Answers f.result.valueType ⟨p, e⟩ ⟨p, e'⟩ := by
  unfold Expr.checkReturn at h
  rw [hk.function_eq] at h
  cases e with
  | some e =>
      obtain ⟨x, hx, rfl⟩ := Step.map_eq_ok.mp h
      exact .value (Expr.type?_checkTyped hx)
  | none =>
      dsimp only at h
      split at h
      next hvoid =>
        obtain ⟨rfl, _⟩ := Step.done_eq_ok.mp h
        exact .bare hvoid
      next => simp at h

/-- What a run makes of the parts of one thing after the other. -/
theorem Part.Checked.each {τ : Type} {step : τ → Checker → Step Checker τ Unit} {parts : τ → List Part}
    {declarations : τ → List Item} {t : ValueType} {ts : List τ}
    (hpasses : ∀ u (k : Checker), k.Passes (step u k).state)
    (h : ∀ u ∈ ts, ∀ k, k.In f → (∀ i ∈ declarations u, i.isVariable = true) →
      (step u k).Ends (fun u' _ _ => List.Forall₂ (Part.Checked t) (parts u) (parts u')) fun _ _ => True)
    (k : Checker) (hk : k.In f) (hflat : ∀ i ∈ ts.flatMap declarations, i.isVariable = true) :
    (Step.each step ts k).Ends
      (fun ts' _ _ => List.Forall₂ (Part.Checked t) (ts.flatMap parts) (ts'.flatMap parts))
      fun _ _ => True := by
  induction ts generalizing k with
  | nil => exact .done .nil
  | cons u ts ih =>
      obtain ⟨hu, hts⟩ := List.forall_mem_cons.mp h
      rw [List.flatMap_cons] at hflat
      obtain ⟨hfirst, hrest⟩ := List.forall_mem_append.mp hflat
      refine Step.Ends.andThen (hu k hk hfirst).named ?_
      rintro u' _ k' ⟨hu', hparts⟩
      have hk' : k'.In f := by
        have hpass := hpasses u k
        rw [hu'] at hpass
        exact hpass.inFunction hk
      refine .map (Step.Ends.mono (ih hts k' hk' hrest) ?_ fun _ _ h => h)
      exact fun ts' _ _ hparts' => List.rel_append hparts hparts'

theorem Part.Checked.within {t : ValueType} {ps ps' : List Part} (h : List.Forall₂ (Part.Checked t) ps ps') :
    List.Forall₂ (Part.Checked t) (Part.within ps) (Part.within ps') :=
  .cons .enter (List.rel_append h (.cons .leave .nil))

theorem Traversal.checked_parts : Traversal.check.Rules
    (fun b k r => k.In f → (∀ i ∈ b.declarations, i.isVariable = true) →
      r.Ends (fun b' _ _ => List.Forall₂ (Part.Checked f.result.valueType) b.parts b'.parts) fun _ _ => True)
    (fun i k r => k.In f → (∀ j ∈ i.declarations, j.isVariable = true) →
      r.Ends (fun i' _ _ => List.Forall₂ (Part.Checked f.result.valueType) i.parts i'.parts) fun _ _ => True)
    (fun x k r => k.In f → (∀ i ∈ x.declarations, i.isVariable = true) →
      r.Ends (fun x' _ _ => List.Forall₂ (Part.Checked f.result.valueType) x.parts x'.parts) fun _ _ => True)
    fun c k r => k.In f → (∀ i ∈ c.declarations, i.isVariable = true) →
      r.Ends (fun c' _ _ => List.Forall₂ (Part.Checked f.result.valueType) c.parts c'.parts)
        fun _ _ => True where
  block items p hitems k hk hflat := by
    rw [Block.declarations, Item.declarationsOf_eq_flatMap] at hflat
    have hrun := Part.Checked.each (fun i k => (Item.checks_check i k).passes) hitems k hk hflat
    simp only [← Item.partsOf_eq_flatMap] at hrun
    exact .map hrun
  var d k _ _ := ⟨fun _ _ => .cons .var .nil, fun _ _ => trivial⟩
  func head body _ k _ hflat := by
    -- there are no functions inside of functions
    have hvar := hflat (.func head body) (by simp)
    cases hvar
  stmt x hx k hk hflat := .map (hx k hk hflat)
  value e k _ _ := by
    cases e with
    | none => exact .done .nil
    | some e => exact ⟨fun _ _ => .cons .value .nil, fun _ _ => trivial⟩
  result p e k hk _ :=
    .map (.of_eq_ok fun _ _ _ h => .cons (.result (Expr.answers_checkReturn hk h)) .nil)
  scope b hb k hk hflat := by
    refine .of_eq_ok fun c' _ k' h => ?_
    obtain ⟨b', hinner, rfl⟩ := Step.map_eq_ok.mp h
    refine Part.Checked.within ?_
    exact hk.inBlock (P := fun b' => List.Forall₂ _ _ b'.parts)
      (fun hk₁ h₁ => (hb _ hk₁ hflat).eq_ok h₁) hinner
  opening b hb k hk hflat := .map (hb k hk hflat)
  inner x hx k hk hflat := .map (hx k hk hflat)
  clauses x hclauses k hk hflat := by
    rw [Stmt.declarations_clauses] at hflat
    have hrun := Part.Checked.each
      (fun c k => (Traversal.checks_check.forClause c k).passes) hclauses
    refine Step.Ends.map (.of_tree (P := fun cs => (x.withClauses cs).clauses = cs) (by simp) ?_)
    simp only [Stmt.parts_clauses, Stmt.isScope_withClauses]
    unfold Pass.clauses
    split
    next =>
      refine .of_eq_ok fun cs _ k' h hcs => ?_
      rw [hcs]
      refine Part.Checked.within ?_
      exact hk.inBlock (P := fun cs => List.Forall₂ _ _ (cs.flatMap Clause.parts))
        (fun hk₁ h₁ => (hrun _ hk₁ hflat).eq_ok h₁) h
    next =>
      refine (hrun k hk hflat).mono (fun cs _ k' hparts hcs => ?_) fun _ _ h => h
      rwa [hcs]

/-- **What a check makes of the parts of a function body.** -/
theorem Block.checked_parts (b : Block) {b' : Block} {k k' : Checker} (hk : k.In f)
    (hflat : ∀ i ∈ b.declarations, i.isVariable = true) (h : b.check k = ⟨b', k', .ok ()⟩) :
    List.Forall₂ (Part.Checked f.result.valueType) b.parts b'.parts :=
  (Traversal.checked_parts.forBlock b k hk hflat).eq_ok h

end Body

/-! ## Analysed programs -/

theorem Part.returns_bare (ps : List Part) :
    (ps.map Part.bare).filterMap Part.return? = ps.filterMap Part.return? := by
  rw [List.filterMap_map]
  exact List.filterMap_congr fun p _ => by cases p <;> rfl

theorem Part.returns_numberFrom (n : Nat) (ps : List Part) :
    (Part.numberFrom n ps).filterMap Part.return? = ps.filterMap Part.return? := by
  induction ps generalizing n with
  | nil => rfl
  | cons p ps ih =>
      rw [Part.numberFrom]
      cases hp : p.declared? with
      | some d =>
          obtain ⟨rfl, _⟩ := Part.declared?_eq_some hp
          exact ih (n + 1)
      | none => simp only [List.filterMap_cons, ih n]

/-- Settling types and numbering variables leave the returns of a function alone. -/
theorem FuncHead.Becomes.returns_eq {c : Container} {h h' : FuncHead} {body body' : Block}
    (hbecomes : h.Becomes c body h' body') : body'.returns = body.returns := by
  rw [Block.returns, ← Part.returns_bare, hbecomes.body, Part.returns_numberFrom, Part.returns_bare]
  rfl

theorem TypeSpec.code?_of_sameTables {c c' : Container} (h : c.SameTables c') (t : TypeSpec) :
    t.code? c' = t.code? c := by
  have hno : c'.structNo? = c.structNo? := by
    funext name
    rw [Container.structNo?_eq, Container.structNo?_eq, h.structs]
  rw [TypeSpec.code?, TypeSpec.code?, TypeSpec.entryNo?, TypeSpec.entryNo?, hno]

/-- Only what is written as void is void. -/
theorem TypeSpec.valueType_code? {c : Container} {t : TypeSpec} {code : TypeCode}
    (h : t.code? c = some code) : code.valueType = .void ↔ t.kind = .void := by
  unfold TypeSpec.code? at h
  cases hkind : t.kind with
  | void | int | float | string =>
      rw [hkind] at h
      cases h
      decide
  | struct | typedef =>
      rw [hkind] at h
      obtain ⟨n, _, rfl⟩ := Option.map_eq_some_iff.mp h
      simp [TypeCode.struct, TypeCode.valueType]
  | enum => rw [hkind] at h; cases h

/--
**Returns answer to their functions.** In a program that is analysed with success, there are no functions
inside of functions, and the returns of a function are, in their order, those of the text. Each of them
either has no value, and then the function is written as void, or it has a value, which then has exactly
the result type of the function.
-/
theorem Block.returns_answer {source : String} {version : Nat} {b b' : Block} {s' : Session}
    (hparse : Block.parse source = .ok b)
    (hanalyse : b.analyse (.ofContainer (.empty version)) = ⟨b', s', .ok ()⟩) :
    List.Forall₂ (fun p p' => ∃ n f, p'.1.number = some n ∧ s'.container.functions[n]? = some f ∧
        f.name = p.1.name ∧ p.1.result.code? s'.container = some f.result ∧
        (f.result.valueType = .void ↔ p.1.result.kind = .void) ∧
        (∀ q ∈ p.2.parts, q.isHead = false) ∧
        List.Forall₂ (Return.Answers f.result.valueType) p.2.returns p'.2.returns)
      (Item.functions b.items) (Item.functions b'.items) := by
  obtain ⟨b₁, s₁, b₂, s₂, k, e₁, e₂, e₃, htypes, hdecls, hcheck, rfl⟩ := Block.analyse_eq_ok hanalyse
  have hfresh := Block.fresh_of_parse hparse
  have hentered := Block.entered_of_parse hparse htypes hdecls
  have hbecomes := Item.Becomes.functions (hfresh.becomes htypes hdecls).1
  have hpasses := (Block.checks_check b₂ (.ofSession (s₂.note e₂))).passes
  rw [← Block.checkProgram, hcheck] at hpasses
  have hchecked : List.Forall₂ (fun p p' => p'.1 = p.1 ∧ ∃ n f, p.1.number = some n ∧
      s₂.container.functions[n]? = some f ∧ ((∀ i ∈ p.2.declarations, i.isVariable = true) →
        List.Forall₂ (Part.Checked f.result.valueType) p.2.parts p'.2.parts))
      (Item.functions b₂.items) (Item.functions b'.items) := by
    refine Block.functions_checkProgram (fun {n f h body body' k k'} hn hf hk hbody => ?_) hcheck
    exact ⟨rfl, n, f, hn, hf, fun hflat => Block.checked_parts body hk.isIn hflat hbody⟩
  have hentries := (List.forall₂_and_left _ _).mpr ⟨fun p hp => hentered.functions.entry hp, hchecked⟩
  refine forall₂_comp ?_ hbecomes hentries
  rintro p p₂ p' hp ⟨⟨n, f, hn, hf, hdescribes⟩, hhead, n', f', hn', hf', hparts⟩
  -- the entry that the check used is the one that describes the function
  obtain rfl : n' = n := Option.some.inj (hn'.symm.trans hn)
  obtain rfl : f' = f := Option.some.inj (hf'.symm.trans hf)
  obtain ⟨code, hcode, hencode⟩ := hp.result.encode
  obtain rfl : code = f'.result := Except.ok.inj (hencode.symm.trans hdescribes.result)
  have hcode' : p.1.result.code? k.container = some f'.result :=
    (TypeSpec.code?_of_sameTables hpasses.tables _).trans hcode
  refine ⟨n', f', hhead ▸ hn, ?_, hdescribes.name.trans hp.name, hcode', TypeSpec.valueType_code? hcode,
    hp.flat, ?_⟩
  · rw [← hf]
    exact congrArg (·[n']?) hpasses.tables.functions
  · rw [← hp.returns_eq]
    exact Part.Checked.returns (hparts hdescribes.flat)

/-- A program with returns of all kinds, at several depths. -/
def answering : String :=
  "int f(int a) \x7b for (;;) if (a) return a; else \x7b return 1 + a; \x7d \x7d
void g() \x7b return; \x7d"

/-- The types of the values in the returns of the functions of a program. -/
def Block.returnTypes (b : Block) : List (List (Option ValueType)) :=
  (Item.functions b.items).map fun p => p.2.returns.map fun r => r.value.bind Expr.type?

set_option maxRecDepth 100000 in
theorem Block.returns_answer_answering :
    ∃ b b' s', Block.parse answering = .ok b ∧
      b.analyse (.ofContainer (.empty 4)) = ⟨b', s', .ok ()⟩ ∧
      b'.returnTypes = [[some .int, some .int], [none]] ∧
      List.Forall₂ (fun p p' => ∃ n f, p'.1.number = some n ∧ s'.container.functions[n]? = some f ∧
          f.name = p.1.name ∧ p.1.result.code? s'.container = some f.result ∧
          (f.result.valueType = .void ↔ p.1.result.kind = .void) ∧
          (∀ q ∈ p.2.parts, q.isHead = false) ∧
          List.Forall₂ (Return.Answers f.result.valueType) p.2.returns p'.2.returns)
        (Item.functions b.items) (Item.functions b'.items) := by
  obtain ⟨b, hparse, hrun⟩ := Block.exists_of_chars answering (fun b =>
      let r := b.analyse (.ofContainer (.empty 4))
      r.result.isOk && r.tree.returnTypes = [[some .int, some .int], [none]]) rfl (by decide +kernel)
  obtain ⟨hok, htypes⟩ := Bool.and_eq_true_iff.mp hrun
  have hanalyse := Step.eq_of_isOk hok
  exact ⟨b, _, _, hparse, hanalyse, of_decide_eq_true htypes, Block.returns_answer hparse hanalyse⟩

/-- A program that returns the value of a void function from another one. -/
def emptyHanded : String := "void g() \x7b\x7d void f() \x7b return g(); \x7d"

set_option maxRecDepth 100000 in
/-- That program is accepted: a return in a void function has a value, which is of the type void. -/
theorem Block.void_value_returned :
    ∃ b b' s', Block.parse emptyHanded = .ok b ∧
      b.analyse (.ofContainer (.empty 4)) = ⟨b', s', .ok ()⟩ ∧
      s'.container.functions.map (fun f => (f.name, f.result.valueType)) = [("g", .void), ("f", .void)] ∧
      b'.returnTypes = [[], [some .void]] := by
  obtain ⟨b, hparse, hrun⟩ := Block.exists_of_chars emptyHanded (fun b =>
      let r := b.analyse (.ofContainer (.empty 4))
      r.result.isOk &&
        (r.state.container.functions.map (fun f => (f.name, f.result.valueType)) =
            [("g", .void), ("f", .void)] &&
          r.tree.returnTypes = [[], [some .void]])) rfl (by decide +kernel)
  obtain ⟨hok, hrest⟩ := Bool.and_eq_true_iff.mp hrun
  obtain ⟨hfunctions, htypes⟩ := Bool.and_eq_true_iff.mp hrest
  exact ⟨b, _, _, hparse, Step.eq_of_isOk hok, of_decide_eq_true hfunctions, of_decide_eq_true htypes⟩

end Jaf
