import Jaf.Proofs.Analysis.AnalysedPrograms
import Jaf.Proofs.Analysis.BlamedPlaces
import Jaf.Proofs.Analysis.CheckErrors
import Jaf.Proofs.Analysis.PassMoves

/-!
# How an analysis ends

Each pass relies on what the passes before it have done. Handing out numbers takes it that every type
has a code, and a check takes it that every declaration has a number and that the number leads to its
entry. The three walks go through the same forms of statements each on their own, and if one of them
left out a form that the others know, a program without a flaw would be refused for a reason that has
nothing to do with it. So there are causes of errors that should never be seen
(`SemanticCause.isInternal`).

What every pass does to the session is known by now, and so is what it can complain about. Put together
over the passes, this says how an analysis ends, whatever the container it starts with
(`Block.analyse_ends`). The results below come from there: no error speaks of the inside of the
analysis, the container is well-formed at the end if it was at the start, and all that was in it is still
there under the same numbers.
-/

namespace Jaf

/-! ## Errors of expressions -/

/-- The stock that everything comes out of. -/
def Stock.all : Stock := ⟨fun _ => True, fun _ => True, fun _ _ => trivial⟩

/-- **Deriving the type of an expression complains about expressions only.** -/
theorem Expr.isOfExpr_of_infer {env : Lookup} {e : Expr} {err : SemanticError}
    (h : (e.infer env).result = .error err) : err.cause.isOfExpr = true := by
  have hall : e.From .all := fun _ _ => trivial
  exact ((ends_infer env e hall).error err h).cause

/-! ## The passes of an analysis -/

/-- What an analysis would complain about if its passes did not fit together. -/
def SemanticCause.isInternal : SemanticCause → Bool
  | outsideFunction | unknownSlot _ => true
  | _ => false

/-- Nothing that a pass complains about is internal. -/
theorem SemanticCause.isInternal_eq_false {c : SemanticCause}
    (h : (c.isOfTypes || c.isOfDeclarations || c.isDemand || c.isOfExpr) = true) :
    c.isInternal = false := by
  cases c with
  | outsideFunction | unknownSlot => cases h
  | _ => rfl

theorem Blamed.cause {vs : List Visit} {e : SemanticError} (h : Blamed vs e) :
    (e.cause.isDemand || e.cause.isOfExpr) = true := by
  rcases h with h | ⟨v, _, hinfer⟩
  · rw [h, Bool.true_or]
  · rw [Expr.isOfExpr_of_infer hinfer, Bool.or_true]

/-- Every item of a script is listed once it has been entered. -/
theorem Container.Enters.listed {c c' : Container} {b : Block} (h : c.Enters c' b.items)
    (hb : b.IsScript) {i : Item} (hi : i ∈ b.items) : i.Listed c' := by
  cases i with
  | var d =>
      intro hname
      obtain ⟨slot, v, hslot, hv, hdesc⟩ := h.globals.entry (Item.mem_variables.mpr ⟨hi, hname⟩)
      exact ⟨slot, hslot, v, hv, hdesc⟩
  | func head body => exact h.functions.entry (List.mem_filterMap.mpr ⟨_, hi, rfl⟩)
  | stmt x => cases hb.declares _ hi

section Passes

variable {source : String} {b b₁ b₂ : Block} {s s₁ s₂ : Session}

/-- How numbers are handed out in a program whose types have been bound. -/
theorem Block.allot_ends_of_parse (hparse : Block.parse source = .ok b)
    (htypes : b.bindTypes s = ⟨b₁, s₁, .ok ()⟩) (e : LogEvent) :
    (b₁.allot (s₁.note e)).Ends (fun _ _ s' => (s₁.note e).Appends s')
      fun err s' => (s₁.note e).Appends s' ∧ err.cause.isOfDeclarations = true := by
  have hends := (Block.bindTypes_appends (Block.written_of_parse hparse) s).ok ()
  rw [htypes] at hends
  exact Block.allot_ends (hends rfl).2

/-- How a program is checked whose types have been bound and whose numbers have been handed out. -/
theorem Block.checks_of_parse (hparse : Block.parse source = .ok b)
    (htypes : b.bindTypes s = ⟨b₁, s₁, .ok ()⟩) {e : LogEvent}
    (hdecls : b₁.allot (s₁.note e) = ⟨b₂, s₂, .ok ()⟩) (e' : LogEvent) :
    Checks True (.ofSession (s₂.note e')) (b₂.visits (.ofSession (s₂.note e')))
      (b₂.checkProgram (s₂.note e')) := by
  obtain ⟨hscript, _⟩ := Block.isScript_bindTypes htypes (Block.isScript_of_parse hparse)
  obtain ⟨henters, hscript'⟩ := Block.enters_allot hdecls hscript
  exact Block.checks_program fun i hi => henters.listed hscript' hi

/--
**How the analysis of a parsed program ends.** Whatever the session it starts with, it takes nothing back,
and it does not fail for a reason that is internal.
-/
theorem Block.analyse_ends (hparse : Block.parse source = .ok b) (s : Session) :
    (b.analyse s).Ends (fun _ _ s' => s.Appends s')
      fun e s' => s.Appends s' ∧ e.cause.isInternal = false := by
  unfold Block.analyse
  refine Step.Ends.andThen (P := fun b₁ _ s₁ => b.bindTypes s = ⟨b₁, s₁, .ok ()⟩ ∧ s.Appends s₁) ?_ ?_
  · refine (Block.bindTypes_appends (Block.written_of_parse hparse) s).named.mono ?_ ?_
    · rintro b₁ _ s₁ ⟨htypes, hs₁, _⟩
      exact ⟨htypes, hs₁⟩
    · rintro e s' ⟨hs', he⟩
      exact ⟨hs', SemanticCause.isInternal_eq_false (by simp [he])⟩
  rintro b₁ _ s₁ ⟨htypes, hs₁⟩
  have hnoted := hs₁.note (e := .typesDone s₁.container.structs.length) rfl
  refine Step.Ends.andThen (P := fun b₂ _ s₂ =>
    b₁.allot (s₁.note (.typesDone s₁.container.structs.length)) = ⟨b₂, s₂, .ok ()⟩ ∧ s.Appends s₂) ?_ ?_
  · refine (Block.allot_ends_of_parse hparse htypes _).named.mono ?_ ?_
    · rintro b₂ _ s₂ ⟨hdecls, hs₂⟩
      exact ⟨hdecls, hnoted.trans hs₂⟩
    · rintro e s' ⟨hs', he⟩
      exact ⟨hnoted.trans hs', SemanticCause.isInternal_eq_false (by simp [he])⟩
  rintro b₂ _ s₂ ⟨hdecls, hs₂⟩
  have hnoted := hs₂.note
    (e := .declarationsDone s₂.container.functions.length s₂.container.globals.length) rfl
  have hchecks := Block.checks_of_parse hparse htypes hdecls
    (.declarationsDone s₂.container.functions.length s₂.container.globals.length)
  have hpassed := hnoted.trans (hchecks.passes.session.appends hchecks.passes.tables.structs)
  refine Step.Ends.andThen (P := fun _ _ s' => s.Appends s') ⟨fun _ _ => hpassed, fun e he => ?_⟩ ?_
  · have hcause := (hchecks.blamed trivial he).cause
    refine ⟨hpassed, SemanticCause.isInternal_eq_false ?_⟩
    rw [Bool.or_assoc, hcause, Bool.or_true]
  · intro _ _ _ hs'
    exact .done (hs'.note rfl)

theorem Block.appends_analyse (hparse : Block.parse source = .ok b) (s : Session) :
    s.Appends (b.analyse s).state := by
  have hends := Block.analyse_ends hparse s
  cases hresult : (b.analyse s).result with
  | ok u => exact hends.ok u hresult
  | error e => exact (hends.error e hresult).1

end Passes

/-! ## No error is internal -/

/--
**The passes of an analysis fit together.** Whatever container the analysis of a parsed program starts
with, no error speaks of a place outside of functions or of a slot that does not exist. If the types have
been bound, then every type has a code when numbers are handed out. If that has succeeded too, then the
check finds no function inside of a function; and an unknown function or variable is one that the last
expression reached names, never a declaration that has no number.
-/
theorem Block.analyse_not_internal {source : String} {b : Block} (hparse : Block.parse source = .ok b)
    (s : Session) :
    (∀ e, (b.analyse s).result = .error e →
      e.cause ≠ .outsideFunction ∧ ∀ slot, e.cause ≠ .unknownSlot slot) ∧
    ∀ b₁ s₁ ev, b.bindTypes s = ⟨b₁, s₁, .ok ()⟩ →
      (∀ e, (b₁.allot (s₁.note ev)).result = .error e →
        (∀ name, e.cause ≠ .unknownType name) ∧ ∀ kind, e.cause ≠ .unsupportedType kind) ∧
      ∀ b₂ s₂ ev', b₁.allot (s₁.note ev) = ⟨b₂, s₂, .ok ()⟩ →
        ∀ e, (b₂.checkProgram (s₂.note ev')).result = .error e →
          e.cause ≠ .nestedFunction ∧
          ∀ name, e.cause = .unknownFunction name ∨ e.cause = .unknownVariable name →
            ∃ v, (b₂.visits (.ofSession (s₂.note ev'))).getLast? = some v ∧
              (v.expr.infer v.checker.lookup).result = .error e := by
  refine ⟨fun e he => ?_, fun b₁ s₁ ev htypes => ⟨fun e he => ?_, fun b₂ s₂ ev' hdecls e he => ?_⟩⟩
  · have hcause := ((Block.analyse_ends hparse s).error e he).2
    constructor
    · intro h; rw [h] at hcause; cases hcause
    · intro slot h; rw [h] at hcause; cases hcause
  · have hcause := ((Block.allot_ends_of_parse hparse htypes ev).error e he).2
    constructor
    · intro name h; rw [h] at hcause; cases hcause
    · intro kind h; rw [h] at hcause; cases hcause
  · have hblamed := (Block.checks_of_parse hparse htypes hdecls ev').blamed trivial he
    refine ⟨fun h => ?_, fun name hname => ?_⟩
    · have hcause := hblamed.cause
      rw [h] at hcause
      cases hcause
    · -- no place demands that a name be known, so it is the last expression that is to blame
      refine hblamed.resolve_left fun hdemand => ?_
      rcases hname with h | h <;> rw [h] at hdemand <;> cases hdemand

/-- A container that has an entry in every table. -/
def prefilled : Container where
  version := 12
  structs := [⟨"P", [⟨"x", some "", .scalar .int⟩]⟩]
  functions := [⟨"old", .scalar .int, 1, [⟨"n", some "", .scalar .int⟩]⟩]
  globals := [⟨"g", some "", .struct 0⟩]
  initvals := []

/-- A program with declarations inside of statements, which calls a function that it does not have. -/
def unsettled : String :=
  "struct Q \x7b struct P p; Q q; \x7d;
Q f(int n) \x7b
  for (int i; i < old(n);) \x7b struct P y = g; \x7d
  switch (n) \x7b case 1: do \x7b Q r = f(i(n)); \x7d while (n); \x7d
\x7d"

/-- The call of that program to the function it does not have. -/
def unsettledError : SemanticError := ⟨⟨127, 131⟩, .unknownFunction "i"⟩

set_option maxRecDepth 100000 in
/-- What the passes make of that program, one by one and together. -/
theorem Block.unsettled_runs :
    ∃ b b₁ s₁ b₂ s₂, Block.parse unsettled = .ok b ∧
      b.bindTypes (.ofContainer prefilled) = ⟨b₁, s₁, .ok ()⟩ ∧
      b₁.allot (s₁.note (.typesDone 2)) = ⟨b₂, s₂, .ok ()⟩ ∧
      (b₂.checkProgram (s₂.note (.declarationsDone 2 1))).result = .error unsettledError ∧
      (b.analyse (.ofContainer prefilled)).result = .error unsettledError ∧
      (b.analyse (.ofContainer prefilled)).state.container.structs.map (·.name) = ["P", "Q"] ∧
      (b.analyse (.ofContainer prefilled)).state.container.functions.map (·.name) = ["old", "f"] := by
  obtain ⟨b, hparse, hrun⟩ := Block.exists_of_chars unsettled (fun b =>
      let r₁ := b.bindTypes (.ofContainer prefilled)
      let r₂ := r₁.tree.allot (r₁.state.note (.typesDone 2))
      let r₃ := r₂.tree.checkProgram (r₂.state.note (.declarationsDone 2 1))
      let r := b.analyse (.ofContainer prefilled)
      r₁.result.isOk && (r₂.result.isOk && (r₃.result = .error unsettledError ∧
        r.result = .error unsettledError ∧ r.state.container.structs.map (·.name) = ["P", "Q"] ∧
        r.state.container.functions.map (·.name) = ["old", "f"] : Bool))) rfl (by decide +kernel)
  obtain ⟨htypes, hrest⟩ := Bool.and_eq_true_iff.mp hrun
  obtain ⟨hdecls, hends⟩ := Bool.and_eq_true_iff.mp hrest
  exact ⟨b, _, _, _, _, hparse, Step.eq_of_isOk htypes, Step.eq_of_isOk hdecls, of_decide_eq_true hends⟩

theorem Block.analyse_not_internal_unsettled :
    ∃ b b₁ s₁ b₂ s₂, Block.parse unsettled = .ok b ∧
      b.bindTypes (.ofContainer prefilled) = ⟨b₁, s₁, .ok ()⟩ ∧
      b₁.allot (s₁.note (.typesDone 2)) = ⟨b₂, s₂, .ok ()⟩ ∧
      (b₂.checkProgram (s₂.note (.declarationsDone 2 1))).result = .error unsettledError ∧
      ∃ v, (b₂.visits (.ofSession (s₂.note (.declarationsDone 2 1)))).getLast? = some v ∧
        (v.expr.infer v.checker.lookup).result = .error unsettledError := by
  obtain ⟨b, b₁, s₁, b₂, s₂, hparse, htypes, hdecls, herror, _⟩ := Block.unsettled_runs
  have hpasses := (Block.analyse_not_internal hparse (.ofContainer prefilled)).2
  have hchecks := (hpasses _ _ (.typesDone 2) htypes).2
  exact ⟨b, b₁, s₁, b₂, s₂, hparse, htypes, hdecls, herror,
    (hchecks _ _ _ hdecls _ herror).2 "i" (.inl rfl)⟩

/-! ## Well-formed containers stay well-formed -/

/--
**Analysis keeps a container well-formed**, whether it succeeds or fails, and wherever it fails. So names
lead to their entries afterwards. Its log replays on the struct table: each struct it added got the next
number, and each struct it wrote to was there by then.
-/
theorem Block.analyse_wellFormed {source : String} {b : Block} (hparse : Block.parse source = .ok b)
    {s : Session} (hs : s.container.WellFormed) :
    let s' := (b.analyse s).state
    s'.container.WellFormed ∧
    (∀ i st, s'.container.structs[i]? = some st → s'.container.structNo? st.name = some i) ∧
    (∀ i f, s'.container.functions[i]? = some f → s'.container.functionNo? f.name = some i) ∧
    (∀ i v, s'.container.globals[i]? = some v → s'.container.globalNo? v.name = some i) ∧
    ∃ events, s'.log = s.log ++ events ∧
      LogEvent.Replays s.container.structs.length events s'.container.structs.length := by
  intro s'
  have hreaches : s.Reaches s' := (Block.appends_analyse hparse s).reaches
  have hs' := hreaches.wellFormed hs
  refine ⟨hs', fun i st hst => ?_, fun i f hf => ?_, fun i v hv => ?_, hreaches.replays⟩
  · exact findIdx?_of_nodup hs'.structNames hst
  · exact findIdx?_of_nodup hs'.functionNames hf
  · exact findIdx?_of_nodup hs'.globalNames hv

theorem prefilled_wellFormed : prefilled.WellFormed := by
  have hint : (TypeCode.scalar .int).Within 1 := ⟨by decide, fun _ h => by cases h⟩
  have hstruct : (TypeCode.struct 0).Within 1 := ⟨by decide, fun _ h => by cases h; exact Nat.one_pos⟩
  constructor
  · simpa [prefilled] using ⟨hint, rfl⟩
  · simpa [prefilled] using ⟨hint, by simpa using ⟨hint, rfl⟩, Nat.le_refl 1⟩
  · simpa [prefilled] using ⟨hstruct, rfl⟩
  · decide
  · decide
  · decide

theorem Block.analyse_wellFormed_unsettled :
    ∃ b s', Block.parse unsettled = .ok b ∧ prefilled.WellFormed ∧
      (b.analyse (.ofContainer prefilled)).result = .error unsettledError ∧
      (b.analyse (.ofContainer prefilled)).state = s' ∧ s'.container.structs.length = 2 ∧
      s'.container.WellFormed ∧ LogEvent.Replays 1 s'.log 2 := by
  obtain ⟨b, _, _, _, _, hparse, _, _, _, herror, hstructs, _⟩ := Block.unsettled_runs
  have hlength : (b.analyse (.ofContainer prefilled)).state.container.structs.length = 2 := by
    simpa using congrArg List.length hstructs
  have hkept := Block.analyse_wellFormed hparse (s := .ofContainer prefilled) prefilled_wellFormed
  obtain ⟨hs', _, _, _, events, hlog, hreplays⟩ := hkept
  rw [hlength, ← show _ = events from hlog] at hreplays
  exact ⟨b, _, hparse, prefilled_wellFormed, herror, rfl, hlength, hs', hreplays⟩

/-! ## Tables are only added to -/

/--
**Analysis takes nothing back.** Whether it succeeds or fails, and wherever it fails, the tables of the
container it starts with are at the head of those it leaves: structs with their members, functions, globals
and initial values. So a number that was handed out before leads to the same entry, and a name that was
known before has the same number.
-/
theorem Block.analyse_precedes {source : String} {b : Block} (hparse : Block.parse source = .ok b)
    (s : Session) :
    let c := s.container
    let c' := (b.analyse s).state.container
    c.Precedes c' ∧
    (∀ (n : Nat) (st : Struct), c.structs[n]? = some st → c'.structs[n]? = some st) ∧
    (∀ (n : Nat) (f : Function), c.functions[n]? = some f → c'.functions[n]? = some f) ∧
    (∀ (n : Nat) (v : Variable), c.globals[n]? = some v → c'.globals[n]? = some v) ∧
    (∀ (n : Nat) (v : Initval), c.initvals[n]? = some v → c'.initvals[n]? = some v) ∧
    (∀ name n, c.structNo? name = some n → c'.structNo? name = some n) ∧
    (∀ name n, c.functionNo? name = some n → c'.functionNo? name = some n) ∧
    ∀ name n, c.globalNo? name = some n → c'.globalNo? name = some n := by
  intro c c'
  have hkept : c.Precedes c' := (Block.appends_analyse hparse s).precedes
  refine ⟨hkept, ?_, ?_, ?_, ?_, ?_, ?_, ?_⟩
  · exact fun n st => getElem?_of_isPrefix hkept.structs
  · exact fun n f => getElem?_of_isPrefix hkept.functions
  · exact fun n v => getElem?_of_isPrefix hkept.globals
  · exact fun n v => getElem?_of_isPrefix hkept.initvals
  · exact fun name n => findIdx?_of_isPrefix hkept.structs
  · exact fun name n => findIdx?_of_isPrefix hkept.functions
  · exact fun name n => findIdx?_of_isPrefix hkept.globals

theorem Block.analyse_precedes_unsettled :
    ∃ b c', Block.parse unsettled = .ok b ∧
      (b.analyse (.ofContainer prefilled)).result = .error unsettledError ∧
      (b.analyse (.ofContainer prefilled)).state.container = c' ∧
      c'.structs.map (·.name) = ["P", "Q"] ∧ c'.functions.map (·.name) = ["old", "f"] ∧
      prefilled.Precedes c' ∧ c'.structNo? "P" = some 0 ∧
      c'.structs[0]? = some ⟨"P", [⟨"x", some "", .scalar .int⟩]⟩ := by
  obtain ⟨b, _, _, _, _, hparse, _, _, _, herror, hstructs, hfunctions⟩ := Block.unsettled_runs
  obtain ⟨hkept, hentries, _, _, _, hnumbers, _⟩ :=
    Block.analyse_precedes hparse (.ofContainer prefilled)
  exact ⟨b, _, hparse, herror, rfl, hstructs, hfunctions, hkept, hnumbers "P" 0 rfl, hentries 0 _ rfl⟩

end Jaf
