import Jaf.Analysis
import Jaf.Proofs.Analysis.CheckVisits

/-!
# Analysed programs

What is known about a whole analysis. A check starts outside of functions, goes through the globals and
the functions one after the other, and is outside of functions again after each of them. Since the
passes before it have entered the program into the tables (`Block.Entered`), every function body is
entered with its own entry, and what holds inside of functions holds of the whole program
(`Block.walks_program`). The two main results come from this: names are looked up as the text has them,
and the notes of an analysed program agree with the final tables.
-/

namespace Jaf

/-! ## Outside of functions -/

/-- The check is outside of functions. -/
structure Checker.Outside (c : Container) (k : Checker) : Prop where
  tables : c.SameTables k.container
  frames : k.scopes.frames = []

theorem Checker.Outside.models {c : Container} {k : Checker} (h : k.Outside c) :
    k.Models c .outside := .outside h.tables h.frames

section Outside

variable {c : Container}

theorem Context.outside_after (i : Item) : Context.outside.after i = .outside := by
  cases i with
  | var d => unfold Context.after; dsimp only; split <;> rfl
  | func | stmt => rfl

theorem Expr.walks_checkInitval (hc : c.Counts) {k : Checker} (h : k.Outside c) (name : String)
    (slot : Nat) (expected : ValueType) (role : Role) (e : Expr) :
    Walks c (Checker.Outside c) (fun es e' => [e'] = es)
      (fun e' => (∀ x ∈ e'.nodes, x.Agrees c .outside) ∧ e'.type? = some expected)
      (e.checkInitval name slot expected k) [⟨e, k⟩] [⟨e, role, .outside⟩] := by
  refine (walks_checkTyped hc h.models role expected e).andCheck (fun _ _ hes => hes)
    fun e' k' hk' hes he' => ?_
  subst hk'
  split
  next value _ =>
    -- recording the value changes nothing that expressions depend on
    have hsame := h.tables
    exact .done hes ⟨⟨hsame.structs, hsame.functions, hsame.globals⟩, h.frames⟩ he'
  next => exact .failed hes

theorem VarDecl.walks_checkGlobal (hc : c.Counts) {k : Checker} (h : k.Outside c) {d : VarDecl}
    (hd : d.name.isSome = true → ∃ slot, d.At c.globals slot) :
    Walks c (Checker.Outside c) (fun es d' => Carries (fun σ => d'.sites σ) es)
      (fun d' => Kept c none [.var d] [.var d'] fun σ => d'.sites σ)
      (d.check k) (d.visits k) (d.sites .outside) := by
  have hglobal : k.scopes.isGlobal = true := by simp [Scopes.isGlobal, h.frames]
  unfold VarDecl.check
  rw [hglobal, if_pos rfl]
  unfold VarDecl.checkGlobal VarDecl.visits VarDecl.sites
  cases hname : d.name with
  | none => exact .done (by simp [Carries, hname]) h ⟨by simp [hname], rfl⟩
  | some name =>
      obtain ⟨slot, hslot, v, hv, _⟩ := hd (by rw [hname]; rfl)
      rw [hslot]
      cases hinit : d.init with
      | none => exact .done (by simp [Carries, hname, hinit]) h ⟨by simp [hname, hinit], rfl⟩
      | some e =>
          have hentry : k.container.globals[slot]? = some v := by rw [h.tables.globals]; exact hv
          simp only [hentry]
          refine (Expr.walks_checkInitval hc h name slot _ (.initial (some slot)) e).map
            (fun e' es hes => by simp [Carries, ← hes]) fun e' he' => ?_
          have hsite : Kept c none [] [] fun σ => [⟨e', .initial (some slot), σ⟩] :=
            .site (σ := .outside) (.initial (some slot)) ⟨he'.1, slot, v, rfl, hv, he'.2⟩
          refine ⟨fun σ' hσ' => ?_, by simp [Item.strays, hname]⟩
          simpa [hname, hslot] using hsite.agrees σ' hσ'

/-- What has to be known of a top-level declaration to check it. -/
def Item.Ready (c : Container) : Item → Prop
  | .var d => d.name.isSome = true → ∃ slot, d.At c.globals slot
  | .func head body =>
    ∃ n f, head.number = some n ∧ c.functions[n]? = some f ∧ f.Describes (head, body) ∧
      c.functionNo? head.name = some n
  | .stmt _ => False

theorem Item.walks_function (hc : c.Counts) {k : Checker} (h : k.Outside c) {head : FuncHead}
    {body : Block} (hready : (Item.func head body).Ready c) :
    Walks c (Checker.Outside c) (fun es i' => Carries (fun σ => i'.sitesIn σ) es)
      (fun i' => Kept c none (Item.func head body).declarations i'.declarations
        fun σ => i'.sitesIn σ)
      ((Item.func head body).check k) ((Item.func head body).visits k)
      ((Item.func head body).sitesIn .outside) := by
  obtain ⟨n, f, hnumber, hentry, hdesc, hno⟩ := hready
  have hentry' : k.container.functions[n]? = some f := by rw [h.tables.functions]; exact hentry
  rw [Item.check, Item.visits, Item.sitesIn]
  simp only [hnumber, hentry']
  have hinside := Checker.Inside.enterFunction (k := { k with
    session := k.session.note (.functionEntered head.name) }) h.tables h.frames hentry hno hdesc
  have hbody := Block.walks_check hc body hinside hdesc.known
  refine Walks.map (hbody.mapState fun k' hk' => ⟨hk'.tables, ?_⟩)
    (fun body' es hes => hes.within fun _ => .body head) fun body' hbody' => ?_
  · -- only the frame of the body is left to be removed
    have hframes := hk'.blocks
    rw [Context.afterAll_blocks (σ := .body head) rfl body.items] at hframes
    obtain ⟨frame, frames, _, hrest, hk⟩ := List.forall₂_cons_left_iff.mp hframes
    show k'.scopes.frames.tail = []
    rw [hk, List.forall₂_nil_left_iff.mp hrest]
    rfl
  · refine ⟨fun _ _ x hx => hbody'.agrees (.body head) rfl x hx, ?_⟩
    simp [Item.strays, hbody'.strays]

theorem Item.walks_ready (hc : c.Counts) {k : Checker} (h : k.Outside c) {i : Item}
    (hready : i.Ready c) :
    Walks c (Checker.Outside c) (fun es i' => Carries (fun σ => i'.sitesIn σ) es)
      (fun i' => Kept c none i.declarations i'.declarations fun σ => i'.sitesIn σ)
      (i.check k) (i.visits k) (i.sitesIn .outside) := by
  cases i with
  | var d =>
      unfold Item.check Item.visits Item.sitesIn
      exact (VarDecl.walks_checkGlobal hc h hready).map (fun _ _ hes => hes) fun d' hd' => hd'
  | func head body => exact Item.walks_function hc h hready
  | stmt x => cases hready

end Outside

/-! ## Whole programs -/

namespace Block

theorem Entered.ready {b : Block} {c : Container} (h : b.Entered c) {i : Item} (hi : i ∈ b.items) :
    i.Ready c := by
  cases i with
  | var d =>
      intro hname
      obtain ⟨slot, v, hslot, hv, hdesc⟩ := h.globals.entry (Item.mem_variables.mpr ⟨hi, hname⟩)
      exact ⟨slot, hslot, v, hv, hdesc⟩
  | func head body => exact h.function hi
  | stmt x => cases h.script.declares _ hi

theorem walks_program {b : Block} {s : Session} (h : b.Entered s.container) :
    Walks s.container (Checker.Outside s.container) (fun es b' => Carries (fun σ => b'.sitesIn σ) es)
      (fun b' => Kept s.container none b.declarations b'.declarations fun σ => b'.sitesIn σ)
      (b.checkProgram s) (b.visits (.ofSession s)) b.sites := by
  obtain ⟨items, p⟩ := b
  have hcounts : s.container.Counts := fun f hf => h.argCount_le hf
  -- each declaration is checked outside of functions, and so is the next one
  have hitems : ∀ i ∈ items, ∀ k, Kind.item.Walks s.container
      (fun σ k => σ = .outside ∧ k.Outside s.container) i k (i.check k) := by
    rintro i hi k _ ⟨rfl, hk⟩
    refine (Item.walks_ready hcounts hk (h.ready hi)).mono (fun _ _ hes => hes) ?_ fun _ hi' => hi'
    exact fun k' hk' => ⟨Context.outside_after i, hk'⟩
  have hwalk := Kind.walks_block hitems p (.ofSession s) .outside ⟨rfl, ⟨⟨rfl, rfl, rfl⟩, rfl⟩⟩
  rw [← Traversal.check.block_eq] at hwalk
  exact hwalk.mono (fun _ _ hes => hes) (fun _ hk => hk.2) fun _ hb' => hb'

/-- The three passes of an analysis that succeeds. -/
theorem analyse_eq_ok {b b' : Block} {s s' : Session} (h : b.analyse s = ⟨b', s', .ok ()⟩) :
    ∃ b₁ s₁ b₂ s₂ k e₁ e₂ e₃, b.bindTypes s = ⟨b₁, s₁, .ok ()⟩ ∧
      b₁.allot (s₁.note e₁) = ⟨b₂, s₂, .ok ()⟩ ∧
      b₂.checkProgram (s₂.note e₂) = ⟨b', k, .ok ()⟩ ∧ s' = k.session.note e₃ := by
  unfold analyse at h
  obtain ⟨b₁, s₁, _, htypes, h⟩ := Step.andThen_eq_ok.mp h
  obtain ⟨b₂, s₂, _, hdecls, h⟩ := Step.andThen_eq_ok.mp h
  obtain ⟨b₃, s₃, _, hcheck, h⟩ := Step.andThen_eq_ok.mp h
  obtain ⟨rfl, rfl, hresult⟩ := Step.ofResult_eq_ok.mp hcheck
  obtain ⟨rfl, rfl, _⟩ := Step.done_eq_ok.mp h
  refine ⟨b₁, s₁, b₂, s₂, _, _,
    .declarationsDone s₂.container.functions.length s₂.container.globals.length, _, htypes, hdecls,
    ?_, rfl⟩
  rw [← hresult]
  rfl

end Block

/-! ## Names -/

/--
**Names are looked up as the text has them.** The expressions that a check reaches are those of the
program in their order, all of them if it succeeds. At each of them a name means what `Context.find?`
says, which is one of the declarations of the blocks around, or else the only global of the name. The
check puts its outcome in the place of each expression that it reaches, and leaves the others alone.
-/
theorem Block.lookup_lexical {source : String} {version : Nat} {b b₁ b₂ : Block} {s₁ s₂ : Session}
    {e e' : LogEvent} (hparse : Block.parse source = .ok b)
    (htypes : b.bindTypes (.ofContainer (.empty version)) = ⟨b₁, s₁, .ok ()⟩)
    (hdecls : b₁.allot (s₁.note e) = ⟨b₂, s₂, .ok ()⟩) :
    let visits := b₂.visits (.ofSession (s₂.note e'))
    let globals := Item.variables b₂.items
    (∀ (i : Nat) (v : Visit), visits[i]? = some v → ∃ x, b₂.sites[i]? = some x ∧ v.expr = x.expr ∧
      (∀ name, v.checker.lookup.var? name = x.context.find? globals name) ∧
      (∀ name slot t, v.checker.lookup.var? name = some (.local slot, t) →
        ∃ block ∈ x.context.blocks, ∃ d ∈ block,
          d.name = some name ∧ d.slot = some slot ∧ d.valueType? = some t) ∧
      ∀ block ∈ x.context.blocks, ∀ d ∈ block, (d.reference? .local).isSome = true) ∧
    (globals.map (·.name)).Nodup ∧ (∀ d ∈ globals, (d.reference? .global).isSome = true) ∧
    (∀ b' k', b₂.checkProgram (s₂.note e') = ⟨b', k', .ok ()⟩ → visits.length = b₂.sites.length) ∧
    (b₂.checkProgram (s₂.note e')).tree.sites.map Site.expr =
      visits.map Visit.outcome ++ (b₂.sites.drop visits.length).map Site.expr := by
  have hentered := Block.entered_of_parse hparse htypes hdecls
  have hwalk := Block.walks_program (s := s₂.note e') hentered
  refine ⟨fun i v hv => ?_, hentered.variableNames, fun d hd => ?_,
    fun b' k' hcheck => (hwalk.finish hcheck).1, ?_⟩
  · obtain ⟨x, hx, hexpr, hmodels⟩ := hwalk.getElem? hv
    have hlookup := hmodels.lookup hentered
    refine ⟨x, hx, hexpr, hlookup, fun name slot t h => ?_, fun block hblock d hd => ?_⟩
    · exact Context.find?_local (hlookup name ▸ h)
    · exact hmodels.reference?_isSome hblock hd
  · obtain ⟨slot, v, hslot, hv, hdesc⟩ := hentered.globals.entry hd
    exact VarDecl.At.reference?_isSome ⟨hslot, v, hv, hdesc⟩ .global
  · obtain ⟨reached, rest, hsites, hreached, hexprs⟩ := hwalk.reaches
    have hdrop : b₂.sites.drop (b₂.visits (.ofSession (s₂.note e'))).length = rest := by
      rw [hsites, hreached.length_eq, List.drop_left]
    rw [hdrop]
    exact hexprs .outside

/-- A program with a global and three locals of the name `x`. -/
def shadowing : String :=
  "int f(int a) \x7b
  int b = x;
  \x7b string x = \"s\"; x = x; \x7d
  for (int x = a; x < 3; x++) b = x;
  int x = x + b;
  return x;
\x7d
int x;"

/-- What `x` means at the expressions of that program. -/
def shadowingMeanings : List (Option (VarRef × ValueType)) :=
  -- no initializer sees the variable it belongs to
  [some (.global 0, .int), some (.global 0, .int), some (.local 2, .string), some (.global 0, .int),
    some (.local 3, .int), some (.local 3, .int), some (.local 3, .int), some (.global 0, .int),
    some (.local 4, .int)]

set_option maxRecDepth 100000 in
theorem Block.lookup_lexical_shadowing :
    ∃ b b₁ b₂ s₁ s₂, Block.parse shadowing = .ok b ∧
      b.bindTypes (.ofContainer (.empty 0)) = ⟨b₁, s₁, .ok ()⟩ ∧
      b₁.allot (s₁.note (.typesDone 0)) = ⟨b₂, s₂, .ok ()⟩ ∧
      let visits := b₂.visits (.ofSession (s₂.note (.declarationsDone 1 1)))
      visits.map (fun v => v.checker.lookup.var? "x") = shadowingMeanings ∧
      ∀ (i : Nat) (v : Visit), visits[i]? = some v → ∃ x, b₂.sites[i]? = some x ∧
        ∀ name, v.checker.lookup.var? name = x.context.find? (Item.variables b₂.items) name := by
  obtain ⟨b, hparse, hrun⟩ := Block.exists_of_chars shadowing (fun b =>
      let r₁ := b.bindTypes (.ofContainer (.empty 0))
      let r₂ := r₁.tree.allot (r₁.state.note (.typesDone 0))
      let visits := r₂.tree.visits (.ofSession (r₂.state.note (.declarationsDone 1 1)))
      r₁.result.isOk && (r₂.result.isOk &&
        visits.map (fun v => v.checker.lookup.var? "x") = shadowingMeanings)) rfl (by decide +kernel)
  obtain ⟨hok₁, hrest⟩ := Bool.and_eq_true_iff.mp hrun
  obtain ⟨hok₂, hmeanings⟩ := Bool.and_eq_true_iff.mp hrest
  have htypes := Step.eq_of_isOk hok₁
  have hdecls := Step.eq_of_isOk hok₂
  refine ⟨b, _, _, _, _, hparse, htypes, hdecls, of_decide_eq_true hmeanings, fun i v hv => ?_⟩
  obtain ⟨x, hx, _, hlookup, _⟩ := (Block.lookup_lexical hparse htypes hdecls).1 i v hv
  exact ⟨x, hx, hlookup⟩

/-! ## Notes -/

/--
**The notes of an analysed program agree with the tables.** Every expression stands in a place where one
belongs, all its nodes have types and lead to the entries of their names, and it has the type that its
place asks for.
-/
theorem Block.analysed_agrees {source : String} {version : Nat} {b b' : Block} {s' : Session}
    (hparse : Block.parse source = .ok b)
    (hanalyse : b.analyse (.ofContainer (.empty version)) = ⟨b', s', .ok ()⟩) :
    b'.strays = [] ∧ ∀ x ∈ b'.sites, x.Agrees s'.container := by
  obtain ⟨b₁, s₁, b₂, s₂, k, e₁, e₂, e₃, htypes, hdecls, hcheck, rfl⟩ :=
    Block.analyse_eq_ok hanalyse
  have hentered := Block.entered_of_parse hparse htypes hdecls
  obtain ⟨_, houtside, hkept⟩ := (Block.walks_program (s := s₂.note e₂) hentered).finish hcheck
  refine ⟨hkept.strays.trans hentered.script.strays, fun x hx => ?_⟩
  exact (hkept.agrees .outside rfl x hx).of_sameTables houtside.tables

/-- A program with all that notes are about: members, calls, assignments and folded parts. -/
def annotated : String :=
  "struct P \x7b int x; P n; \x7d;
P p; int g = 2 * 3;
int f(int a) \x7b
  for (int i = 0; i < a; i++) p.n.x = 1 ? i : 2;
  int b = f(a - 1);
  return b + g;
\x7d"

set_option maxRecDepth 100000 in
theorem Block.analysed_agrees_annotated :
    ∃ b b' s', Block.parse annotated = .ok b ∧
      b.analyse (.ofContainer (.empty 0)) = ⟨b', s', .ok ()⟩ ∧ b'.sites.length = 7 ∧
      b'.strays = [] ∧ ∀ x ∈ b'.sites, x.Agrees s'.container := by
  obtain ⟨b, hparse, hrun⟩ := Block.exists_of_chars annotated (fun b =>
      let r := b.analyse (.ofContainer (.empty 0))
      r.result.isOk && r.tree.sites.length = 7) rfl (by decide +kernel)
  obtain ⟨hok, hlength⟩ := Bool.and_eq_true_iff.mp hrun
  have hanalyse := Step.eq_of_isOk hok
  exact ⟨b, _, _, hparse, hanalyse, of_decide_eq_true hlength,
    Block.analysed_agrees hparse hanalyse⟩

end Jaf
