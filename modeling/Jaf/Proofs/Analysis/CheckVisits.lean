import Jaf.Proofs.Analysis.NoteAgreement

/-!
# Following a check through the program

A check reaches the expressions of a program one after the other, each with the scopes as they are then,
and it stops at the first error. `Block.visits` lists what it reaches. Three things are shown of this
list at once, since all of them need to know at every step that the scopes stand for the context
(`Checker.Models`):

* the expressions are those of `Block.sites`, in the same order, as far as the check gets; and each is
  reached with scopes that stand for the context of its place;
* the tree that is left, also where the check fails, holds what became of the expressions that were
  reached, and the others as they were;
* if the check gets to the end, all notes it has left agree with the tables.

`Walks` says this of a single step of the check. It has a rule for each way of putting steps together,
so that a statement is dealt with by naming its parts in the order in which they are checked.
-/

namespace Jaf

/-! ## What a check reaches -/

/-- An expression and the state of the check that reaches it. -/
structure Visit where
  expr : Expr
  checker : Checker

/-- What the check puts in the place of the expression. -/
def Visit.outcome (v : Visit) : Expr := (v.expr.check v.checker).tree

section Visits

variable {τ α : Type}

/-- What is reached after a step, which is nothing if the step fails. -/
def Step.visits (r : Step Checker τ α) (next : Checker → List Visit) : List Visit :=
  match r.result with
  | .ok _ => next r.state
  | .error _ => []

/-- What is reached inside of a block. -/
def Checker.visitsInBlock (k : Checker) (next : Checker → List Visit) : List Visit :=
  match k.scopes.enterBlock? with
  | some scopes => next { k with scopes }
  | none => next k

/-- The initializer of a variable. -/
def VarDecl.visits (d : VarDecl) (k : Checker) : List Visit :=
  match d.name, d.init with
  | some _, some e => [⟨e, k⟩]
  | _, _ => []

/-- An expression that need not be there. -/
def Expr.visits (e : Option Expr) (k : Checker) : List Visit := (e.map fun e => ⟨e, k⟩).toList

mutual

/-- The expressions that the check of a block reaches, each with the state it is reached in. -/
def Block.visits : Block → Checker → List Visit
  | ⟨items, _⟩, k => Item.visitsOf items k

/-- What the check of some items reaches. -/
def Item.visitsOf : List Item → Checker → List Visit
  | [], _ => []
  | i :: is, k => i.visits k ++ (i.check k).visits fun k => Item.visitsOf is k

/-- What the check of an item reaches. -/
def Item.visits : Item → Checker → List Visit
  | .var d, k => d.visits k
  | .func h body, k =>
    match h.number with
    | none => []
    | some n =>
      match k.container.functions[n]? with
      | none => []
      | some f =>
        body.visits ⟨k.session.note (.functionEntered h.name), k.scopes.enterFunction n f.argCount⟩
  | .stmt x, k => x.visits k

/-- What the check of a statement reaches. -/
def Stmt.visits : Stmt → Checker → List Visit
  | .expr _ e, k => [⟨e, k⟩]
  | .compound _ b, k => k.visitsInBlock fun k => b.visits k
  | .ifThen _ e x, k | .whileLoop _ e x, k | .doLoop _ x e, k | .caseLabel _ e x, k =>
    [⟨e, k⟩] ++ (e.check k).visits fun k => x.visits k
  | .ifElse _ e y n, k =>
    [⟨e, k⟩] ++ (e.check k).visits fun k => y.visits k ++ (y.check k).visits fun k => n.visits k
  | .forLoop _ i e u x, k =>
    k.visitsInBlock fun k =>
      i.visits k ++ (i.check k).visits fun k =>
        Expr.visits e k ++ (Expr.checkOption e k).visits fun k =>
          Expr.visits u k ++ (Expr.checkOption u k).visits fun k => x.visits k
  | .switch _ e b, k =>
    [⟨e, k⟩] ++ (e.check k).visits fun k => k.visitsInBlock fun k => b.visits k
  | .defaultLabel _ x, k | .label _ _ x, k => x.visits k
  | .returnFrom _ e, k => Expr.visits e k
  | .empty _, _ | .goto _ _, _ | .breakOut _, _ | .continueOn _, _ => []

end

/-- What is reached where the same is done with one thing after the other. -/
def Checker.visitsEach (step : τ → Checker → Step Checker τ Unit) (visits : τ → Checker → List Visit) :
    List τ → Checker → List Visit
  | [], _ => []
  | t :: ts, k => visits t k ++ (step t k).visits (visitsEach step visits ts)

/-- What the check of a clause reaches. -/
def Clause.visits : Clause → Checker → List Visit
  | .value e, k | .result _ e, k => Expr.visits e k
  | .scope b, k => k.visitsInBlock b.visits
  | .opening b, k => b.visits k
  | .inner x, k => x.visits k

/-- What the check of the clauses of a statement reaches. -/
def Stmt.visitsOfClauses (x : Stmt) (k : Checker) : List Visit :=
  if x.isScope then k.visitsInBlock (Checker.visitsEach Traversal.check.clause Clause.visits x.clauses)
  else Checker.visitsEach Traversal.check.clause Clause.visits x.clauses k

theorem Item.visitsOf_eq_visitsEach (is : List Item) (k : Checker) :
    Item.visitsOf is k = Checker.visitsEach Traversal.check.item Item.visits is k := by
  induction is generalizing k with
  | nil => rfl
  | cons i is ih =>
      unfold Item.visitsOf Checker.visitsEach
      simp only [ih]
      rfl

@[simp] theorem Step.visits_nil (r : Step Checker τ α) : (r.visits fun _ => []) = [] := by
  unfold Step.visits
  split <;> rfl

@[simp] theorem Step.visits_map {υ : Type} (r : Step Checker τ α) (wrap : τ → υ)
    (next : Checker → List Visit) : (r.map wrap).visits next = r.visits next := rfl

theorem Stmt.visits_clauses (x : Stmt) (k : Checker) : x.visits k = x.visitsOfClauses k := by
  cases x with
  | _ =>
      rw [Stmt.visits]
      simp [Stmt.visitsOfClauses, Stmt.isScope, Stmt.clauses, Checker.visitsEach, Clause.visits,
        Traversal.check, Pass.clause, Pass.check, Expr.visits, Expr.checkOption_some]

end Visits

/-! ## Steps that go through the program as the text does -/

/-- The expression of a place is reached with scopes that stand for its context. -/
def Visit.Sees (c : Container) (v : Visit) (x : Site) : Prop :=
  v.expr = x.expr ∧ v.checker.Models c x.context

/--
A step reaches the given places, up to where it fails. Whether it fails or not, the tree is related by
`E` to its expressions: what the check made of those it reached, and the others as they were. If it does
not fail, it reaches all places, the state has the property `I` and the tree has the property `Q`.
-/
structure Walks {τ : Type} (c : Container) (I : Checker → Prop) (E : List Expr → τ → Prop)
    (Q : τ → Prop) (r : Step Checker τ Unit) (vs : List Visit) (xs : List Site) : Prop where
  reaches : ∃ reached rest, xs = reached ++ rest ∧ List.Forall₂ (Visit.Sees c) vs reached ∧
    E (vs.map Visit.outcome ++ rest.map Site.expr) r.tree
  finish : ∀ {t : τ} {k : Checker}, r = ⟨t, k, .ok ()⟩ → vs.length = xs.length ∧ I k ∧ Q t

namespace Walks

variable {τ υ : Type} {c : Container} {I J : Checker → Prop} {D : List Expr → τ → Prop}
  {E : List Expr → υ → Prop} {P : τ → Prop} {Q : υ → Prop} {vs : List Visit} {xs ys : List Site}

/-- What a step that does not fail has reached and left. -/
theorem all {t : τ} {k : Checker} (h : Walks c I D P ⟨t, k, .ok ()⟩ vs xs) :
    List.Forall₂ (Visit.Sees c) vs xs ∧ D (vs.map Visit.outcome) t := by
  obtain ⟨reached, rest, rfl, hreached, hD⟩ := h.reaches
  have hlength := (h.finish rfl).1
  rw [hreached.length_eq, List.length_append] at hlength
  have hrest : rest = [] := List.eq_nil_of_length_eq_zero (by omega)
  subst hrest
  simp only [List.append_nil, List.map_nil] at hreached hD ⊢
  exact ⟨hreached, hD⟩

theorem getElem? {r : Step Checker τ Unit} (h : Walks c I D P r vs xs) {i : Nat} {v : Visit}
    (hv : vs[i]? = some v) : ∃ x, xs[i]? = some x ∧ v.Sees c x := by
  obtain ⟨reached, rest, rfl, hall, _⟩ := h.reaches
  obtain ⟨hi, rfl⟩ := List.getElem?_eq_some_iff.mp hv
  have hi' : i < reached.length := hall.length_eq ▸ hi
  refine ⟨reached[i], ?_, hall.get hi hi'⟩
  rw [List.getElem?_append_left hi', List.getElem?_eq_getElem hi']

/-- A step that reaches nothing. -/
theorem ofResult {t : υ} {k : Checker} {result : Except SemanticError Unit} (hE : E [] t)
    (h : result = .ok () → I k ∧ Q t) : Walks c I E Q (.ofResult t k result) [] [] := by
  refine ⟨⟨[], [], rfl, .nil, hE⟩, fun hr => ?_⟩
  obtain ⟨rfl, rfl, hresult⟩ := Step.ofResult_eq_ok.mp hr
  exact ⟨rfl, h hresult⟩

theorem done {t : υ} {k : Checker} (hE : E [] t) (hI : I k) (hQ : Q t) :
    Walks c I E Q (.done t k ()) [] [] :=
  .ofResult hE fun _ => ⟨hI, hQ⟩

theorem failed {t : υ} {k : Checker} {err : SemanticError} (hE : E [] t) :
    Walks c I E Q (.ofResult t k (.error err)) [] [] :=
  .ofResult hE fun h => by cases h

/-- Only the tree that is left matters to a map. -/
theorem map_tree {r : Step Checker τ Unit} {wrap : τ → υ} (h : Walks c I D P r vs xs)
    (hE : ∀ es, D es r.tree → E es (wrap r.tree)) (hQ : P r.tree → Q (wrap r.tree)) :
    Walks c I E Q (r.map wrap) vs xs := by
  refine ⟨?_, fun hr => ?_⟩
  · obtain ⟨reached, rest, hxs, hreached, hD⟩ := h.reaches
    exact ⟨reached, rest, hxs, hreached, hE _ hD⟩
  · obtain ⟨t, rfl, rfl⟩ := Step.map_eq_ok.mp hr
    obtain ⟨hlength, hI, hP⟩ := h.finish rfl
    exact ⟨hlength, hI, hQ hP⟩

theorem map {r : Step Checker τ Unit} {wrap : τ → υ} (h : Walks c I D P r vs xs)
    (hE : ∀ t es, D es t → E es (wrap t)) (hQ : ∀ t, P t → Q (wrap t)) :
    Walks c I E Q (r.map wrap) vs xs := h.map_tree (hE r.tree) (hQ r.tree)

theorem mapState {r : Step Checker τ Unit} {g : Checker → Checker} (h : Walks c I D P r vs xs)
    (hJ : ∀ k, I k → J (g k)) : Walks c J D P (r.mapState g) vs xs := by
  refine ⟨h.reaches, fun hr => ?_⟩
  obtain ⟨k, hpart, rfl⟩ := Step.mapState_eq_ok.mp hr
  obtain ⟨hlength, hI, hP⟩ := h.finish hpart
  exact ⟨hlength, hJ k hI, hP⟩

/-- The same step with less known about it. -/
theorem mono {r : Step Checker υ Unit} {D : List Expr → υ → Prop} {P : υ → Prop}
    (h : Walks c I D P r vs xs) (hE : ∀ t es, D es t → E es t) (hJ : ∀ k, I k → J k)
    (hQ : ∀ t, P t → Q t) : Walks c J E Q r vs xs := by
  refine ⟨?_, fun hr => (h.finish hr).imp_right fun hIP => hIP.imp (hJ _) (hQ _)⟩
  obtain ⟨reached, rest, hxs, hreached, hD⟩ := h.reaches
  exact ⟨reached, rest, hxs, hreached, hE _ _ hD⟩

/--
One step after another: the second starts where the first ends, if it ends well. If it does not, what
the second would have reached is left as it is.
-/
theorem andThen {r : Step Checker τ Unit} {wrap : τ → υ}
    {next : τ → Unit → Checker → Step Checker υ Unit} {f : Checker → List Visit}
    (h : Walks c I D P r vs xs) (hwrap : ∀ t es, D es t → E (es ++ ys.map Site.expr) (wrap t))
    (hnext : ∀ t k, I k → D (vs.map Visit.outcome) t → P t →
      Walks c J (fun es => E (vs.map Visit.outcome ++ es)) Q (next t () k) (f k) ys) :
    Walks c J E Q (r.andThen wrap next) (vs ++ r.visits f) (xs ++ ys) := by
  obtain ⟨t, k, result⟩ := r
  cases result with
  | ok u =>
      obtain ⟨hlength, hI, hP⟩ := h.finish rfl
      obtain ⟨hall, hD⟩ := h.all
      have hsecond := hnext t k hI hD hP
      refine ⟨?_, fun hr => ?_⟩
      · obtain ⟨reached, rest, rfl, hreached, hE⟩ := hsecond.reaches
        refine ⟨xs ++ reached, rest, by simp, List.rel_append hall hreached, ?_⟩
        rw [List.map_append, List.append_assoc]
        exact hE
      · obtain ⟨hlength', hJ, hQ⟩ := hsecond.finish hr
        exact ⟨by simp [Step.visits, hlength, hlength'], hJ, hQ⟩
  | error e =>
      refine ⟨?_, fun hr => by simp [Step.andThen] at hr⟩
      obtain ⟨reached, rest, rfl, hreached, hD⟩ := h.reaches
      refine ⟨reached, rest ++ ys, by simp, by simpa [Step.visits] using hreached, ?_⟩
      have hE := hwrap _ _ hD
      rw [List.append_assoc, ← List.map_append] at hE
      simpa [Step.visits, Step.andThen] using hE

/-- One step after another that reaches nothing. -/
theorem andCheck {r : Step Checker τ Unit} {wrap : τ → υ}
    {next : τ → Unit → Checker → Step Checker υ Unit} (h : Walks c I D P r vs xs)
    (hwrap : ∀ t es, D es t → E es (wrap t))
    (hnext : ∀ t k, I k → D (vs.map Visit.outcome) t → P t →
      Walks c J (fun _ => E (vs.map Visit.outcome)) Q (next t () k) [] []) :
    Walks c J E Q (r.andThen wrap next) vs xs := by
  have hboth : Walks c J E Q (r.andThen wrap next) (vs ++ r.visits fun _ => []) (xs ++ []) := by
    refine h.andThen (fun t es hD => by simpa using hwrap t es hD) fun t k hI hD hP => ?_
    obtain ⟨⟨reached, rest, hxs, hreached, hE⟩, hfinish⟩ := hnext t k hI hD hP
    obtain ⟨rfl, rfl⟩ := List.append_eq_nil_iff.mp hxs.symm
    exact ⟨⟨[], [], rfl, hreached, by simpa using hE⟩, hfinish⟩
  rwa [Step.visits_nil, List.append_nil, List.append_nil] at hboth

end Walks

/-! ## What a step leaves in the tree -/

/--
The places of a checked part agree with the tables wherever it stands in the function of the given
name, and the part has the strays that it had before.
-/
structure Kept (c : Container) (function : Option String) (old new : List Item)
    (sites : Context → List Site) : Prop where
  agrees : ∀ σ : Context, σ.function = function → ∀ x ∈ sites σ, x.Agrees c
  strays : Item.straysOf new = Item.straysOf old

namespace Kept

variable {c : Container} {function : Option String} {old old' new new' : List Item}
  {sites sites' : Context → List Site}

theorem nil : Kept c function [] [] fun _ => [] := ⟨by simp, rfl⟩

theorem append (h : Kept c function old new sites) (h' : Kept c function old' new' sites') :
    Kept c function (old ++ old') (new ++ new') fun σ => sites σ ++ sites' σ := by
  refine ⟨fun σ hσ x hx => ?_, by simp [h.strays, h'.strays]⟩
  exact (List.mem_append.mp hx).elim (h.agrees σ hσ x) (h'.agrees σ hσ x)

/-- The same in another context of the same function. -/
theorem within (g : Context → Context) (hg : ∀ σ, (g σ).function = σ.function)
    (h : Kept c function old new sites) : Kept c function old new fun σ => sites (g σ) :=
  ⟨fun σ hσ => h.agrees (g σ) ((hg σ).trans hσ), h.strays⟩

end Kept

theorem Context.entry?_congr {c : Container} {σ σ' : Context} (h : σ'.function = σ.function) :
    σ'.entry? c = σ.entry? c := by
  rw [Context.entry?, Context.entry?, h]

theorem VarRef.target?_congr {c : Container} {σ σ' : Context} (h : σ'.function = σ.function)
    (ref : VarRef) : ref.target? c σ' = ref.target? c σ := by
  cases ref with
  | «local» slot => rw [VarRef.target?, VarRef.target?, Context.entry?_congr h]
  | global slot => rfl

theorem Expr.Agrees.congr {c : Container} {σ σ' : Context} (h : σ'.function = σ.function) {e : Expr}
    (he : e.Agrees c σ) : e.Agrees c σ' := by
  obtain ⟨t, ht, hleads⟩ := he
  refine ⟨t, ht, ?_⟩
  cases e with
  | ident n name b =>
      obtain ⟨ref, v, hb, hv, hname, htype⟩ := hleads
      exact ⟨ref, v, hb, (VarRef.target?_congr h ref).trans hv, hname, htype⟩
  | _ => exact hleads

/-- An expression in its place. -/
theorem Kept.site {c : Container} {σ : Context} {e : Expr} (role : Role)
    (h : Site.Agrees c ⟨e, role, σ⟩) : Kept c σ.function [] [] fun σ => [⟨e, role, σ⟩] := by
  refine ⟨fun σ' hσ' x hx => ?_, rfl⟩
  rw [List.mem_singleton.mp hx]
  obtain ⟨hnodes, hrole⟩ := h
  refine ⟨fun y hy => (hnodes y hy).congr hσ', ?_⟩
  cases role with
  | value => trivial
  | result =>
      obtain ⟨f, hf, htype⟩ := hrole
      exact ⟨f, (Context.entry?_congr hσ').trans hf, htype⟩
  | initial slot =>
      obtain ⟨n, v, hslot, hv, htype⟩ := hrole
      refine ⟨n, v, hslot, ?_, htype⟩
      rw [Context.place, hσ', VarRef.target?_congr hσ']
      exact hv

/-! ## Parts of a kind -/

/--
A kind of parts of a program, such as statements: the declarations inside of a part, the context after it,
the places of its expressions, and what a check reaches in it.
-/
structure Kind (τ : Type) where
  declarations : τ → List Item
  after : Context → τ → Context
  sites : Context → τ → List Site
  visits : τ → Checker → List Visit

namespace Kind

def block : Kind Block := ⟨Block.declarations, fun σ b => σ.afterAll b.items, Block.sitesIn, Block.visits⟩

def item : Kind Item := ⟨Item.declarations, Context.after, Item.sitesIn, Item.visits⟩

def stmt : Kind Stmt := ⟨Stmt.declarations, fun σ _ => σ, Stmt.sitesIn, Stmt.visits⟩

def clause : Kind Clause := ⟨Clause.declarations, Context.afterClause, Clause.sitesIn, Clause.visits⟩

variable {τ : Type} {c : Container} {J : Context → Checker → Prop}

/-- A step in a context that the state stands for goes through a part, and ends in the context after it. -/
def Walks (κ : Kind τ) (c : Container) (J : Context → Checker → Prop) (t : τ) (k : Checker)
    (r : Step Checker τ Unit) : Prop :=
  ∀ σ, J σ k → Jaf.Walks c (J (κ.after σ t)) (fun es t' => Carries (fun σ => κ.sites σ t') es)
    (fun t' => Kept c σ.function (κ.declarations t) (κ.declarations t') fun σ => κ.sites σ t') r
    (κ.visits t k) (κ.sites σ t)

/-- Parts that stand one after the other. -/
def row (κ : Kind τ) (step : τ → Checker → Step Checker τ Unit) : Kind (List τ) where
  declarations ts := ts.flatMap κ.declarations
  after σ ts := ts.foldl κ.after σ
  sites σ ts := σ.sitesEach κ.after κ.sites ts
  visits := Checker.visitsEach step κ.visits

/-- If each of some parts is gone through, then all of them are. -/
theorem walks_row {κ : Kind τ} (hfunction : ∀ σ t, (κ.after σ t).function = σ.function)
    (hsteady : ∀ t, Steady fun σ => κ.sites σ t) {step : τ → Checker → Step Checker τ Unit}
    {ts : List τ} (h : ∀ t ∈ ts, ∀ k, κ.Walks c J t k (step t k)) (k : Checker) :
    (κ.row step).Walks c J ts k (Step.each step ts k) := by
  induction ts generalizing k with
  | nil => exact fun σ hσ => .done .nil hσ .nil
  | cons t ts ih =>
      obtain ⟨ht, hts⟩ := List.forall_mem_cons.mp h
      intro σ hσ
      have hrest : Steady fun σ => σ.sitesEach κ.after κ.sites ts := .each fun u _ => hsteady u
      refine (ht k σ hσ).andThen (fun t' es hes => hes.append ((hrest (κ.after σ t)).within (κ.after · t')))
        fun t' k' hk' hes ht' => ?_
      -- the rest is checked in the context after the first part, of which only the function matters
      refine (ih hts k' (κ.after σ t) hk').map
        (fun ts' es hes' => hes.append (hes'.within (κ.after · t'))) fun ts' hts' => ?_
      rw [hfunction] at hts'
      exact ht'.append (hts'.within (κ.after · t') fun σ => hfunction σ t')

/-- A block is gone through item by item. -/
theorem walks_block {items : List Item} (h : ∀ i ∈ items, ∀ k, item.Walks c J i k (i.check k)) (p : Span)
    (k : Checker) :
    block.Walks c J ⟨items, p⟩ k ((Step.each Traversal.check.item items k).map (⟨·, p⟩)) := by
  intro σ hσ
  have hrow := walks_row (κ := item) Context.after_function Item.steady h k σ hσ
  simp only [row, item, ← Item.declarationsOf_eq_flatMap, ← Item.sitesOf_eq_sitesEach] at hrow
  simp only [block, Block.visits, Item.visitsOf_eq_visitsEach]
  exact hrow.map (fun _ _ hes => hes) fun _ his => his

end Kind

/-! ## Expressions -/

/-- What has to be known of the tables besides the names: no function has too many parameters. -/
def Container.Counts (c : Container) : Prop := ∀ f ∈ c.functions, f.argCount ≤ f.vars.length

theorem Expr.check_eq_ok {e e' : Expr} {k k' : Checker} (h : e.check k = ⟨e', k', .ok ()⟩) :
    k' = k ∧ e'.Settled k.lookup := by
  unfold Expr.check at h
  split at h
  next x t hx =>
    obtain ⟨rfl, rfl, _⟩ := Step.done_eq_ok.mp h
    exact ⟨rfl, (fold_settled (infer_settled e hx).1).1⟩
  next => simp at h

/-- The expression of a place is checked where it stands, and the state stays as it is. -/
theorem Expr.walks_check {c : Container} (hc : c.Counts) {σ : Context} {k : Checker}
    (h : k.Models c σ) (role : Role) (e : Expr) :
    Walks c (· = k) (fun es e' => [e'] = es)
      (fun e' => (∀ x ∈ e'.nodes, x.Agrees c σ) ∧ ∃ t, e'.type? = some t) (e.check k)
      [⟨e, k⟩] [⟨e, role, σ⟩] := by
  refine ⟨⟨_, [], rfl, .cons ⟨rfl, h⟩ .nil, rfl⟩, fun hr => ?_⟩
  obtain ⟨hk, hsettled⟩ := Expr.check_eq_ok hr
  exact ⟨rfl, hk, fun x hx => (hsettled x hx).agrees h.sound hc, hsettled.self.typed⟩

theorem Expr.walks_checkTyped {c : Container} (hc : c.Counts) {σ : Context} {k : Checker}
    (h : k.Models c σ) (role : Role) (expected : ValueType) (e : Expr) :
    Walks c (· = k) (fun es e' => [e'] = es)
      (fun e' => (∀ x ∈ e'.nodes, x.Agrees c σ) ∧ e'.type? = some expected)
      (e.checkTyped expected k) [⟨e, k⟩] [⟨e, role, σ⟩] := by
  refine (walks_check hc h role e).andCheck (fun _ _ hes => hes) fun e' k' hk' hes he' => ?_
  refine .ofResult hes fun hrequire => ?_
  obtain ⟨hnodes, t, ht⟩ := he'
  rw [require_eq_ok, ht] at hrequire
  exact ⟨hk', hnodes, by rw [ht]; exact congrArg some hrequire⟩

/-! ## Variables -/

/-- The declarations are variables, and the variable list holds what they say. -/
structure Item.Known (vars : List Variable) (is : List Item) : Prop where
  recorded : ∀ d ∈ Item.variables is, ∃ slot, d.At vars slot
  flat : ∀ i ∈ is, i.isVariable = true

theorem Item.known_append {vars : List Variable} {is js : List Item} :
    Item.Known vars (is ++ js) ↔ Item.Known vars is ∧ Item.Known vars js := by
  constructor
  · intro h
    refine ⟨⟨fun d hd => h.recorded d ?_, fun i hi => h.flat i (List.mem_append_left _ hi)⟩,
      ⟨fun d hd => h.recorded d ?_, fun i hi => h.flat i (List.mem_append_right _ hi)⟩⟩
    · rw [Item.variables_append]; exact List.mem_append_left _ hd
    · rw [Item.variables_append]; exact List.mem_append_right _ hd
  · rintro ⟨h, h'⟩
    refine ⟨fun d hd => ?_, fun i hi => (List.mem_append.mp hi).elim (h.flat i) (h'.flat i)⟩
    rw [Item.variables_append] at hd
    exact (List.mem_append.mp hd).elim (h.recorded d) (h'.recorded d)

theorem Item.known_flatMap {τ : Type} {vars : List Variable} {g : τ → List Item} {ts : List τ} :
    Item.Known vars (ts.flatMap g) → ∀ t ∈ ts, Item.Known vars (g t) := by
  induction ts with
  | nil => exact fun _ => List.forall_mem_nil _
  | cons t ts ih =>
      intro h
      rw [List.flatMap_cons, Item.known_append] at h
      exact List.forall_mem_cons.mpr (h.imp_right ih)

theorem Function.Describes.known {f : Function} {head : FuncHead} {body : Block}
    (h : f.Describes (head, body)) : Item.Known f.vars body.declarations := by
  refine ⟨fun d hd => ?_, h.flat⟩
  obtain ⟨n, v, hn, hv, hdesc⟩ := h.vars.entry (List.mem_append_right _ hd)
  exact ⟨n, hn, v, hv, hdesc⟩

section Inside

variable {c : Container} {n : Nat} {f : Function}

theorem Checker.Inside.function_eq {σ : Context} {k : Checker} (h : k.Inside c n f σ) (p : Span) :
    k.function p = .ok f := by
  simp [Checker.function, h.function?_eq, h.tables.functions, h.entry]

theorem Checker.Inside.visitsInBlock_eq {σ : Context} {k : Checker} (h : k.Inside c n f σ)
    (next : Checker → List Visit) :
    k.visitsInBlock next = next { k with scopes := ⟨⟨n, []⟩ :: k.scopes.frames⟩ } := by
  simp [Checker.visitsInBlock, Scopes.enterBlock?, h.function?_eq]

/-- The initializer of a local has the type of its slot. -/
theorem VarDecl.walks_checkInit (hc : c.Counts) {σ : Context} {k : Checker}
    (h : k.Inside c n f σ) {d : VarDecl} (hname : d.name.isSome = true) {slot : Nat}
    (hd : d.At f.vars slot) :
    Walks c (· = k) (fun es d' => Carries (fun σ => d'.sites σ) es)
      (fun d' => Kept c σ.function [.var d] [.var d'] fun σ => d'.sites σ)
      (d.checkInit slot k) (d.visits k) (d.sites σ) := by
  obtain ⟨name, hname⟩ := Option.isSome_iff_exists.mp hname
  obtain ⟨hslot, v, hv, _⟩ := hd
  unfold VarDecl.checkInit VarDecl.visits VarDecl.sites
  rw [hname]
  cases hinit : d.init with
  | none => exact .done (by simp [Carries, hname, hinit]) rfl ⟨by simp [hname, hinit], rfl⟩
  | some e =>
      have hexpected : k.slotType slot d.span = .ok v.type.valueType := by
        simp [Checker.slotType, h.function_eq, hv, bind, Except.bind]
      simp only [hexpected]
      refine (Expr.walks_checkTyped hc (.inside h) (.initial d.slot) _ e).map
        (fun e' es hes => by simp [Carries, ← hes]) fun e' he' => ?_
      have hplace : VarRef.target? c σ (σ.place slot) = some v := by
        simp [Context.place, h.function, VarRef.target?, h.entry?_eq, hv]
      have hsite : Kept c σ.function [] [] fun σ => [⟨e', .initial d.slot, σ⟩] :=
        .site (.initial d.slot) ⟨he'.1, slot, v, hslot, hplace, he'.2⟩
      refine ⟨fun σ' hσ' => ?_, by simp [Item.strays, hname]⟩
      simpa [hname] using hsite.agrees σ' hσ'

theorem VarDecl.walks_check (hc : c.Counts) {σ : Context} {k : Checker} (h : k.Inside c n f σ)
    {d : VarDecl} (hd : Item.Known f.vars [.var d]) :
    Walks c (fun k' => k'.Inside c n f (σ.after (.var d)))
      (fun es d' => Carries (fun σ => d'.sites σ) es)
      (fun d' => Kept c σ.function [.var d] [.var d'] fun σ => d'.sites σ)
      (d.check k) (d.visits k) (d.sites σ) := by
  have hlocal : k.scopes.isGlobal = false := by
    have := h.function?_eq
    unfold Scopes.function? at this
    unfold Scopes.isGlobal
    cases hk : k.scopes.frames with
    | nil => simp [hk] at this
    | cons => rfl
  -- inside of a function the variable is a local
  unfold VarDecl.check
  rw [hlocal, if_neg Bool.false_ne_true]
  unfold VarDecl.checkLocal
  cases hname : d.name with
  | none =>
      have hafter : σ.after (.var d) = σ := by simp [Context.after, hname]
      have hsites : ∀ σ, d.sites σ = [] := fun σ => by simp [VarDecl.sites, hname]
      rw [hafter, hsites, VarDecl.visits, hname]
      exact .done (by simp [Carries, hsites]) h ⟨by simp [hsites], rfl⟩
  | some name =>
      have hsome : d.name.isSome = true := by rw [hname]; rfl
      obtain ⟨slot, hat⟩ := hd.recorded d (by rw [Item.variables_named hsome]; exact List.mem_cons_self)
      rw [hat.1]
      -- the initializer is checked before the variable is declared, so it does not see it
      refine (walks_checkInit hc h hsome hat).andCheck (fun _ _ hes => hes) fun d' k' hk' hes hd' => ?_
      subst hk'
      split
      next scopes hs => exact .done hes (h.declare hsome hat hs) hd'
      next => exact .failed hes

/-! ## Statements -/

theorem Expr.walks_statement (hc : c.Counts) {σ : Context} {k : Checker} (h : k.Inside c n f σ)
    (e : Expr) :
    Walks c (fun k' => k'.Inside c n f σ) (fun es e' => Carries (fun σ => [⟨e', .value, σ⟩]) es)
      (fun e' => Kept c σ.function [] [] fun σ => [⟨e', .value, σ⟩]) (e.check k) [⟨e, k⟩]
      [⟨e, .value, σ⟩] :=
  (walks_check hc (.inside h) .value e).mono (fun _ _ hes _ => hes) (fun _ hk => hk ▸ h)
    fun _ he' => .site .value ⟨he'.1, trivial⟩

theorem Expr.walks_checkOption (hc : c.Counts) {σ : Context} {k : Checker} (h : k.Inside c n f σ)
    (e : Option Expr) :
    Walks c (fun k' => k'.Inside c n f σ) (fun es e' => Carries (fun σ => Expr.sites σ .value e') es)
      (fun e' => Kept c σ.function [] [] fun σ => Expr.sites σ .value e')
      (Expr.checkOption e k) (Expr.visits e k) (Expr.sites σ .value e) := by
  cases e with
  | none => exact .done .nil h .nil
  | some e => exact (walks_statement hc h e).map (fun _ _ hes => hes) fun e' he' => he'

theorem Expr.walks_checkReturn (hc : c.Counts) {σ : Context} {k : Checker} (h : k.Inside c n f σ)
    (p : Span) (e : Option Expr) :
    Walks c (fun k' => k'.Inside c n f σ) (fun es e' => Carries (fun σ => Expr.sites σ .result e') es)
      (fun e' => Kept c σ.function [] [] fun σ => Expr.sites σ .result e')
      (Expr.checkReturn e p k) (Expr.visits e k) (Expr.sites σ .result e) := by
  unfold Expr.checkReturn
  rw [h.function_eq]
  cases e with
  | none =>
      dsimp only
      split
      · exact .done .nil h .nil
      · exact .failed .nil
  | some e =>
      have hchecked := walks_checkTyped hc (.inside h) .result f.result.valueType e
      have hinside := hchecked.mono (fun _ _ hes => hes) (fun _ hk => hk ▸ h) fun _ he' => he'
      refine hinside.map (fun _ _ hes _ => hes) fun e' he' => ?_
      exact .site .result ⟨he'.1, f, h.entry?_eq, he'.2⟩

/-- A step in a block of its own comes back to the context around it. -/
theorem Checker.Inside.walks_inBlock {τ : Type} {σ : Context} {k : Checker} (h : k.Inside c n f σ)
    {items : List Item} {E : List Expr → τ → Prop} {Q : τ → Prop}
    {step : Checker → Step Checker τ Unit} {next : Checker → List Visit} {xs : List Site}
    (hstep : ∀ k, k.Inside c n f σ.enter →
      Walks c (fun k' => k'.Inside c n f (σ.enter.afterAll items)) E Q (step k) (next k) xs) :
    Walks c (fun k' => k'.Inside c n f σ) E Q (k.inBlock step) (k.visitsInBlock next) xs := by
  rw [h.inBlock_eq, h.visitsInBlock_eq]
  exact (hstep _ h.enter).mapState fun k' hk' => hk'.leave h.nested

/-- A statement is gone through clause by clause. -/
theorem Kind.walks_stmt {x : Stmt} (h : ∀ d ∈ x.clauses, ∀ k,
      clause.Walks c (Checker.Inside c n f) d k (Traversal.check.clause d k)) (k : Checker) :
    stmt.Walks c (Checker.Inside c n f) x k ((Traversal.check.clauses x k).map x.withClauses) := by
  intro σ hσ
  have hrow := walks_row (κ := clause) (fun σ d => σ.afterAll_function d.opened) Clause.steady h
  simp only [row, clause, Walks, Context.foldl_afterClause] at hrow
  have hclauses : Jaf.Walks c (Checker.Inside c n f σ)
      (fun es ds => Carries (fun σ => (σ.inside x).sitesEach Context.afterClause Clause.sitesIn ds) es)
      (fun ds => Kept c σ.function (x.clauses.flatMap Clause.declarations) (ds.flatMap Clause.declarations)
        fun σ => (σ.inside x).sitesEach Context.afterClause Clause.sitesIn ds)
      (Traversal.check.clauses x k) (x.visitsOfClauses k)
      ((σ.inside x).sitesEach Context.afterClause Clause.sitesIn x.clauses) := by
    unfold Pass.clauses Stmt.visitsOfClauses Context.inside
    split
    next =>
      refine (hσ.walks_inBlock fun k' hk' => hrow k' σ.enter hk').mono (fun _ _ hes => hes.within (·.enter))
        (fun _ hk' => hk') fun _ hds => hds.within (·.enter) fun _ => rfl
    next hx =>
      have hnone := List.flatMap_eq_nil_iff.mpr (Stmt.opened_clauses (Bool.eq_false_iff.mpr hx))
      have hrow := hrow k σ hσ
      rwa [hnone] at hrow
  simp only [stmt, Stmt.visits_clauses, Stmt.sitesIn_clauses, Stmt.declarations_clauses]
  refine hclauses.map_tree (fun es hes => ?_) fun hds => ?_
  · simpa using hes
  · simpa using hds

/-- A check goes through a program inside of a function as the text does. -/
theorem Traversal.walks_check (hc : c.Counts) : Traversal.check.Rules
    (fun b k r => Item.Known f.vars b.declarations → Kind.block.Walks c (Checker.Inside c n f) b k r)
    (fun i k r => Item.Known f.vars i.declarations → Kind.item.Walks c (Checker.Inside c n f) i k r)
    (fun x k r => Item.Known f.vars x.declarations → Kind.stmt.Walks c (Checker.Inside c n f) x k r)
    fun d k r => Item.Known f.vars d.declarations → Kind.clause.Walks c (Checker.Inside c n f) d k r where
  block items p hitems k hknown := by
    rw [Block.declarations, Item.declarationsOf_eq_flatMap] at hknown
    exact Kind.walks_block (fun i hi k => hitems i hi k (Item.known_flatMap hknown i hi)) p k
  var d k hknown σ h := (VarDecl.walks_check hc h hknown).map (fun _ _ hes => hes) fun _ hd' => hd'
  func head body _ k hknown := by
    -- there are no functions inside of functions
    have := hknown.flat (.func head body) (by simp)
    cases this
  stmt x hx k hknown σ h := (hx k hknown σ h).map (fun _ _ hes => hes) fun _ hx' => hx'
  value e k _ σ h := (Expr.walks_checkOption hc h e).map (fun _ _ hes => hes) fun _ he' => he'
  result p e k _ σ h := (Expr.walks_checkReturn hc h p e).map (fun _ _ hes => hes) fun _ he' => he'
  scope b hb k hknown σ h := by
    have hinner := h.walks_inBlock fun k' hk' => hb k' hknown σ.enter hk'
    refine hinner.map (fun b' es hes => hes.within (·.enter)) fun b' hb' => ?_
    exact hb'.within (·.enter) fun _ => rfl
  opening b hb k hknown σ h := (hb k hknown σ h).map (fun _ _ hes => hes) fun _ hb' => hb'
  inner x hx k hknown σ h := (hx k hknown σ h).map (fun _ _ hes => hes) fun _ hx' => hx'
  clauses x hclauses k hknown := by
    rw [Stmt.declarations_clauses] at hknown
    exact Kind.walks_stmt (fun d hd k => hclauses d hd k (Item.known_flatMap hknown d hd)) k

theorem Block.walks_check (hc : c.Counts) (b : Block) {σ : Context} {k : Checker} (h : k.Inside c n f σ)
    (hknown : Item.Known f.vars b.declarations) :
    Walks c (fun k' => k'.Inside c n f (σ.afterAll b.items))
      (fun es b' => Carries (fun σ => b'.sitesIn σ) es)
      (fun b' => Kept c σ.function b.declarations b'.declarations fun σ => b'.sitesIn σ)
      (b.check k) (b.visits k) (b.sitesIn σ) :=
  (Traversal.walks_check hc).forBlock b k hknown σ h

end Inside

end Jaf
