import Jaf.Proofs.Analysis.CheckPlaceIndependence
import Jaf.Proofs.Analysis.FoldNormalForms
import Jaf.Proofs.Analysis.InitialValues

/-!
# Checking what has been checked

A check that succeeds leaves a tree on which a check succeeds in the same way: from the same state it leaves
the same tree and the same state. The second check does not meet the expressions that were written but what
folding has made of them, so three facts come together here: folding a second time changes nothing
(`Expr.fold_fold`), a folded tree keeps its types, and deriving the types of a tree that has them changes
nothing. From there the result goes up along the statements (`Block.check_again`), since all that a check
leaves of a statement is the statement around what it leaves of the parts.

A check of the whole program a second time does not start from the same state: the initial values are there
already. But a check cannot see them, so it does the same again and adds a second copy.
-/

namespace Jaf

/-! ## Checking expressions again -/

namespace Expr

variable {e e' : Expr} {k k' : Checker}

theorem check_again (h : e.check k = ⟨e', k', .ok ()⟩) : e'.check k = ⟨e', k', .ok ()⟩ := by
  unfold check at h
  split at h
  next x t hx =>
    obtain ⟨rfl, rfl, _⟩ := Step.done_eq_ok.mp h
    obtain ⟨hsettled, htype⟩ := infer_settled e hx
    obtain ⟨hfolded, hfoldedType⟩ := fold_settled hsettled
    unfold check
    rw [infer_of_settled x.fold hfolded (hfoldedType.trans htype)]
    exact congrArg (Step.done · k ()) (fold_fold x)
  next => simp at h

theorem checkOption_again {e e' : Option Expr} (h : checkOption e k = ⟨e', k', .ok ()⟩) :
    checkOption e' k = ⟨e', k', .ok ()⟩ := by
  cases e with
  | none =>
      obtain ⟨rfl, rfl, _⟩ := Step.done_eq_ok.mp h
      rfl
  | some e =>
      obtain ⟨x, hx, rfl⟩ := Step.map_eq_ok.mp h
      exact Step.map_eq_ok.mpr ⟨x, check_again hx, rfl⟩

theorem checkTyped_again {expected : ValueType} (h : e.checkTyped expected k = ⟨e', k', .ok ()⟩) :
    e'.checkTyped expected k = ⟨e', k', .ok ()⟩ := by
  obtain ⟨x, k₁, _, hx, h⟩ := Step.andThen_eq_ok.mp h
  have heq := Step.ofResult_eq_ok.mp h
  obtain ⟨rfl, rfl, _⟩ := heq
  exact Step.andThen_eq_ok.mpr ⟨x, k₁, (), check_again hx, h⟩

theorem checkInitval_again {name : String} {slot : Nat} {expected : ValueType}
    (h : e.checkInitval name slot expected k = ⟨e', k', .ok ()⟩) :
    e'.checkInitval name slot expected k = ⟨e', k', .ok ()⟩ := by
  obtain ⟨x, k₁, _, hx, h⟩ := Step.andThen_eq_ok.mp h
  have hsame : x = e' := by
    split at h
    · exact (Step.done_eq_ok.mp h).1
    · simp at h
  rw [hsame] at hx h
  exact Step.andThen_eq_ok.mpr ⟨e', k₁, (), checkTyped_again hx, h⟩

theorem checkReturn_again {e e' : Option Expr} {span : Span}
    (h : checkReturn e span k = ⟨e', k', .ok ()⟩) : checkReturn e' span k = ⟨e', k', .ok ()⟩ := by
  unfold checkReturn at h ⊢
  cases hf : k.function span with
  | error err => rw [hf] at h; simp at h
  | ok f =>
      rw [hf] at h
      dsimp only at h ⊢
      cases e with
      | some e =>
          obtain ⟨x, hx, rfl⟩ := Step.map_eq_ok.mp h
          exact Step.map_eq_ok.mpr ⟨x, checkTyped_again hx, rfl⟩
      | none =>
          dsimp only at h
          split at h
          next hvoid =>
            obtain ⟨rfl, rfl, _⟩ := Step.done_eq_ok.mp h
            exact if_pos hvoid
          next => simp at h

end Expr

/-! ## Checking declarations again -/

namespace VarDecl

variable {d d' : VarDecl} {k k' : Checker}

theorem checkGlobal_again (h : d.checkGlobal k = ⟨d', k', .ok ()⟩) :
    d'.checkGlobal k = ⟨d', k', .ok ()⟩ := by
  obtain ⟨name, type, init, slot, span⟩ := d
  cases name with
  | none =>
      obtain ⟨rfl, rfl, _⟩ := Step.done_eq_ok.mp h
      rfl
  | some name =>
      cases slot with
      | none => simp [checkGlobal] at h
      | some slot =>
          cases init with
          | none =>
              obtain ⟨rfl, rfl, _⟩ := Step.done_eq_ok.mp h
              rfl
          | some init =>
              unfold checkGlobal at h
              dsimp only at h
              cases hv : k.container.globals[slot]? with
              | none => rw [hv] at h; simp at h
              | some v =>
                  rw [hv] at h
                  obtain ⟨x, hx, rfl⟩ := Step.map_eq_ok.mp h
                  unfold checkGlobal
                  dsimp only
                  rw [hv]
                  exact Step.map_eq_ok.mpr ⟨x, Expr.checkInitval_again hx, rfl⟩

/-- Only the initializer changes, so the slot and the place are those of before. -/
theorem checkInit_again {slot : Nat} (h : d.checkInit slot k = ⟨d', k', .ok ()⟩) :
    d'.checkInit slot k = ⟨d', k', .ok ()⟩ ∧ d'.name = d.name ∧ d'.slot = d.slot := by
  obtain ⟨name, type, init, slot', span⟩ := d
  cases init with
  | none =>
      obtain ⟨rfl, rfl, _⟩ := Step.done_eq_ok.mp h
      exact ⟨rfl, rfl, rfl⟩
  | some init =>
      unfold checkInit at h
      dsimp only at h
      cases ht : k.slotType slot span with
      | error e => rw [ht] at h; simp at h
      | ok expected =>
          rw [ht] at h
          obtain ⟨x, hx, rfl⟩ := Step.map_eq_ok.mp h
          refine ⟨?_, rfl, rfl⟩
          unfold checkInit
          dsimp only
          rw [ht]
          exact Step.map_eq_ok.mpr ⟨x, Expr.checkTyped_again hx, rfl⟩

theorem checkLocal_again (h : d.checkLocal k = ⟨d', k', .ok ()⟩) :
    d'.checkLocal k = ⟨d', k', .ok ()⟩ := by
  unfold checkLocal at h
  cases hname : d.name with
  | none =>
      rw [hname] at h
      obtain ⟨rfl, rfl, _⟩ := Step.done_eq_ok.mp h
      unfold checkLocal
      rw [hname]
      rfl
  | some name =>
      cases hslot : d.slot with
      | none => rw [hname, hslot] at h; simp at h
      | some slot =>
          rw [hname, hslot] at h
          obtain ⟨x, k₁, _, hx, h⟩ := Step.andThen_eq_ok.mp h
          obtain ⟨hagain, hname', hslot'⟩ := checkInit_again hx
          have hsame : x = d' := by
            split at h
            · exact (Step.done_eq_ok.mp h).1
            · simp at h
          rw [hsame] at h hagain hname' hslot'
          unfold checkLocal
          rw [hname', hslot', hname, hslot]
          exact Step.andThen_eq_ok.mpr ⟨d', k₁, (), hagain, h⟩

theorem check_again (h : d.check k = ⟨d', k', .ok ()⟩) : d'.check k = ⟨d', k', .ok ()⟩ := by
  unfold check at h ⊢
  split at h
  next hglobal => rw [if_pos hglobal]; exact checkGlobal_again h
  next hlocal => rw [if_neg hlocal]; exact checkLocal_again h

end VarDecl

/-! ## Checking statements again -/

/-- A step that leaves, if it succeeds, what the pass leaves again when it starts from the same state. -/
def Step.Again {σ τ : Type} (pass : τ → σ → Step σ τ Unit) (s : σ) (r : Step σ τ Unit) : Prop :=
  r.Ends (fun t _ s' => pass t s = ⟨t, s', .ok ()⟩) fun _ _ => True

namespace Step.Again

variable {σ τ υ : Type} {pass : τ → σ → Step σ τ Unit} {s : σ} {r : Step σ τ Unit}

theorem of_eq_ok (h : ∀ t s', r = ⟨t, s', .ok ()⟩ → pass t s = ⟨t, s', .ok ()⟩) : r.Again pass s :=
  Step.Ends.of_eq_ok fun t _ s' hr => h t s' hr

theorem map {wrap : τ → υ} {pass' : υ → σ → Step σ υ Unit}
    (hpass : pass' (wrap r.tree) s = (pass r.tree s).map wrap) (h : r.Again pass s) :
    (r.map wrap).Again pass' s := by
  refine Step.Ends.map (.of_tree (P := fun t => pass' (wrap t) s = (pass t s).map wrap) hpass ?_)
  refine Step.Ends.mono h (fun t _ s' ht hwrap => ?_) fun _ _ h => h
  rw [hwrap, ht]
  rfl

theorem each {ts : List τ} (h : ∀ t ∈ ts, ∀ s, (pass t s).Again pass s) (s : σ) :
    (Step.each pass ts s).Again (Step.each pass) s := by
  induction ts generalizing s with
  | nil => exact .done rfl
  | cons t ts ih =>
      obtain ⟨ht, hts⟩ := List.forall_mem_cons.mp h
      refine Step.Ends.andThen (ht s) fun t' _ s' ht' => .map (Step.Ends.mono (ih hts s') ?_ fun _ _ h => h)
      intro ts' _ s'' hts'
      rw [Step.each, ht']
      exact Step.map_eq_ok.mpr ⟨ts', hts', rfl⟩

end Step.Again

theorem Checker.again_inBlock {τ : Type} {pass : τ → Checker → Step Checker τ Unit} {t : τ}
    (h : ∀ k, (pass t k).Again pass k) (k : Checker) :
    (k.inBlock (pass t)).Again (fun t k => k.inBlock (pass t)) k := by
  obtain ⟨k₁, leave, hwithin⟩ := Traversal.check.within_eq k
  have hinBlock : ∀ t, k.inBlock (pass t) = (pass t k₁).mapState leave := fun t => hwithin (pass t)
  rw [hinBlock]
  refine .mapState (Step.Ends.mono (h k₁) (fun t' _ k' ht' => ?_) fun _ _ h => h)
  exact (hinBlock t').trans (congrArg (Step.mapState leave) ht')

theorem Item.again_function {head : FuncHead} {body : Block} (h : ∀ k, (body.check k).Again Block.check k)
    (k : Checker) : ((Item.func head body).check k).Again Item.check k := by
  rcases Item.check_func head k with ⟨e, herror⟩ | ⟨n, f, _, _, hchecked⟩
  · rw [herror]
    exact .failed trivial
  · rw [hchecked]
    refine Step.Ends.map (.mapState (Step.Ends.mono (h _) (fun body' _ k' hbody => ?_) fun _ _ h => h))
    rw [hchecked, Checker.inFunction, hbody]
    rfl

theorem Traversal.check_again : Traversal.check.Rules (fun _ k r => r.Again Block.check k)
    (fun _ k r => r.Again Item.check k) (fun _ k r => r.Again Stmt.check k)
    fun _ k r => r.Again Traversal.check.clause k where
  block items p hitems k := .map (Traversal.check.block_eq _ p k) (.each hitems k)
  var d k := .map (Traversal.check.item_var _ k) (.of_eq_ok fun _ _ => VarDecl.check_again)
  func head body hbody k := Item.again_function hbody k
  stmt x hx k := .map (Traversal.check.item_stmt _ k) (hx k)
  value e k := .map rfl (.of_eq_ok fun _ _ => Expr.checkOption_again)
  result p e k := .map rfl (.of_eq_ok fun _ _ => Expr.checkReturn_again)
  scope b hb k := .map rfl (Checker.again_inBlock hb k)
  opening b hb k := .map rfl (hb k)
  inner x hx k := .map rfl (hx k)
  clauses x hclauses k := by
    have hagain : (Traversal.check.clauses x k).Again (fun cs k => if x.isScope then
        k.inBlock (Step.each Traversal.check.clause cs) else Step.each Traversal.check.clause cs k) k := by
      unfold Pass.clauses
      split
      · exact Checker.again_inBlock (.each hclauses) k
      · exact .each hclauses k
    -- the statement that is left has the clauses that are left, and a check comes to them
    refine Step.Ends.map (.of_tree (P := fun cs => (x.withClauses cs).clauses = cs) (by simp) ?_)
    refine Step.Ends.mono hagain (fun cs _ k' hcs hleft => ?_) fun _ _ h => h
    have hsame := Stmt.withClauses_clauses (x.withClauses cs)
    rw [hleft] at hsame
    rw [Stmt.check_eq, Pass.clauses, Stmt.isScope_withClauses, hleft]
    exact Step.map_eq_ok.mpr ⟨cs, hcs, hsame⟩

/-- **A check of what a check has left leaves the same again.** -/
theorem Block.check_again (b : Block) {b' : Block} {k k' : Checker} (h : b.check k = ⟨b', k', .ok ()⟩) :
    b'.check k = ⟨b', k', .ok ()⟩ := (Traversal.check_again.forBlock b k).eq_ok h

/-! ## Checking a program again -/

/-- A session with initial values and a log from before. -/
def Session.behind (values : List Initval) (log : List LogEvent) (s : Session) : Session :=
  ⟨{ s.container with initvals := values ++ s.container.initvals }, log ++ s.log⟩

theorem Session.unseen_behind (values : List Initval) (log : List LogEvent) :
    Session.Unseen (Session.behind values log) where
  visible _ := rfl
  note s e := by simp [Session.behind, Session.note]
  addInitval s name v := by simp [Session.behind, Session.addInitval, Container.addInitval, Session.note]

theorem Session.Reaches.version_eq {s s' : Session} (h : s.Reaches s') :
    s'.container.version = s.container.version := by
  induction h with
  | refl => rfl
  | step _ hmove ih => cases hmove <;> exact ih

/-- A check outside of functions ends there, and changes nothing in the container but initial values. -/
theorem Block.checkProgram_leaves {b : Block} {s : Session} :
    (b.checkProgram s).state.scopes = .empty ∧
      (b.checkProgram s).state.container =
        { s.container with initvals := (b.checkProgram s).state.container.initvals } := by
  have hpasses := (Block.checks_check b (.ofSession s)).passes
  refine ⟨congrArg Scopes.mk (hpasses.outside rfl), ?_⟩
  have hversion : (b.checkProgram s).state.container.version = s.container.version :=
    hpasses.session.version_eq
  have hstructs : (b.checkProgram s).state.container.structs = s.container.structs :=
    hpasses.tables.structs
  have hfunctions : (b.checkProgram s).state.container.functions = s.container.functions :=
    hpasses.tables.functions
  have hglobals : (b.checkProgram s).state.container.globals = s.container.globals :=
    hpasses.tables.globals
  dsimp only
  rw [← hversion, ← hstructs, ← hfunctions, ← hglobals]

/--
**A program that has been analysed can be checked again.** A new check of the tree and the container that a
successful analysis leaves succeeds and changes nothing in the tree. In the container it changes nothing but
the initial values, to which it adds all of them a second time.
-/
theorem Block.check_analysed {source : String} {version : Nat} {b b' : Block} {s' : Session}
    (hparse : Block.parse source = .ok b)
    (h : b.analyse (.ofContainer (.empty version)) = ⟨b', s', .ok ()⟩) (log : List LogEvent) :
    ∃ k, b'.checkProgram ⟨s'.container, log⟩ = ⟨b', k, .ok ()⟩ ∧ k.scopes = .empty ∧
      k.container =
        { s'.container with initvals := s'.container.initvals ++ s'.container.initvals } := by
  obtain ⟨b₁, s₁, b₂, s₂, k, e₁, e₂, e₃, htypes, hdecls, hcheck, rfl⟩ := Block.analyse_eq_ok h
  have hnone : s₂.container.initvals = [] :=
    Block.Fresh.initvals_eq (Block.fresh_of_parse hparse) htypes hdecls
  -- the first check, without the log of the passes before it
  let start : Session := ⟨s₂.container, []⟩
  have hfirst : b₂.check ((Checker.ofSession start).via (.behind [] (s₂.log ++ [e₂]))) =
      ⟨b', k, .ok ()⟩ := by
    rw [← hcheck]
    simp [start, Checker.via, Session.behind, Checker.ofSession, Block.checkProgram, Session.note]
  rw [Block.check_unseen (Session.unseen_behind _ _)] at hfirst
  obtain ⟨k₀, hk₀, rfl⟩ := Step.mapState_eq_ok.mp hfirst
  obtain ⟨hscopes, hcontainer⟩ := Block.checkProgram_leaves (b := b₂) (s := start)
  rw [Block.checkProgram, hk₀] at hscopes hcontainer
  -- the second one starts from the same tables, with the initial values in them
  have hsecond := Block.check_unseen (Session.unseen_behind k₀.container.initvals log) b'
    (.ofSession start)
  rw [Block.check_again b₂ hk₀] at hsecond
  have hstart : (Checker.ofSession start).via (.behind k₀.container.initvals log) =
      .ofSession ⟨k₀.container, log⟩ := by
    dsimp only at hcontainer
    rw [hcontainer]
    simp [start, Checker.via, Session.behind, Checker.ofSession, hnone]
  rw [hstart] at hsecond
  exact ⟨_, hsecond, hscopes, rfl⟩

/-- Folding takes a branch, drops items of a comma list, and leaves a division by zero alone. -/
def refolded : String :=
  "int g=2*3;int f(int a)\x7bfor(int i=1?a:0;i<1/0;i++)if((2,g=i),a)return(1,g)+4;return-f(a)+~1;\x7d"

set_option maxRecDepth 100000 in
theorem Block.check_analysed_refolded :
    ∃ b b' s', Block.parse refolded = .ok b ∧
      b.analyse (.ofContainer (.empty 12)) = ⟨b', s', .ok ()⟩ ∧
      s'.container.initvals = [⟨0, .int 6⟩] ∧
      ∃ k, b'.checkProgram ⟨s'.container, []⟩ = ⟨b', k, .ok ()⟩ ∧
        k.container.functions = s'.container.functions ∧
        k.container.initvals = [⟨0, .int 6⟩, ⟨0, .int 6⟩] := by
  obtain ⟨b, hparse, hrun⟩ := Block.exists_of_chars refolded (fun b =>
      let r := b.analyse (.ofContainer (.empty 12))
      r.result.isOk && r.state.container.initvals = [⟨0, .int 6⟩]) rfl (by decide +kernel)
  obtain ⟨hok, hinitvals⟩ := Bool.and_eq_true_iff.mp hrun
  have hanalyse := Step.eq_of_isOk hok
  have hvalues := of_decide_eq_true hinitvals
  obtain ⟨k, hcheck, _, hcontainer⟩ := Block.check_analysed hparse hanalyse []
  refine ⟨b, _, _, hparse, hanalyse, hvalues, k, hcheck, ?_, ?_⟩
  · rw [hcontainer]
  · rw [hcontainer]
    exact congrArg (fun vs => vs ++ vs) hvalues

end Jaf
