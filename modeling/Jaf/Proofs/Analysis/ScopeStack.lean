import Jaf.Proofs.Analysis.TableNumbers

/-!
# What a check does to the scopes

A check pushes a frame for every block and every function body that it enters, and pops it again, also if
something inside fails. In between it declares the variables that it comes to, in the innermost frame. So
all that a check can leave in the scopes are slots at the end of the innermost frame, and these are slots of
the variables that stand in the checked block itself, in their order (`Step.Declares`). If the check fails,
only the first few of them are there. A statement leaves nothing, and outside of functions there is no frame
that could keep something.

None of this takes the tree to be one that a parser has made or that earlier passes have numbered: whatever
slots and function numbers stand in it, a frame that is pushed is popped.
-/

namespace Jaf

/-! ## Slots in the innermost frame -/

namespace Scopes

variable {s s' : Scopes}

/-- The scopes with more slots in the innermost frame, if there is a frame. -/
def adding (s : Scopes) (slots : List Nat) : Scopes :=
  ⟨s.frames.modifyHead fun frame => { frame with slots := frame.slots ++ slots }⟩

theorem adding_of_isGlobal (h : s.isGlobal = true) (slots : List Nat) : s.adding slots = s := by
  obtain ⟨frames⟩ := s
  obtain rfl : frames = [] := List.isEmpty_iff.mp h
  rfl

@[simp] theorem adding_nil (s : Scopes) : s.adding [] = s := by
  obtain ⟨frames⟩ := s
  cases frames with
  | nil => rfl
  | cons frame frames => simp [adding]

theorem adding_adding (s : Scopes) (us vs : List Nat) : (s.adding us).adding vs = s.adding (us ++ vs) := by
  obtain ⟨frames⟩ := s
  cases frames with
  | nil => rfl
  | cons frame frames => simp [adding]

/-- Leaving a block leaves what was declared in it. -/
theorem leave_adding (frame : Frame) (frames : List Frame) (slots : List Nat) :
    (Scopes.adding ⟨frame :: frames⟩ slots).leave = ⟨frames⟩ := rfl

theorem eq_of_declare {c : Container} {slot : Nat} {p : Span} (h : s.declare c slot p = .ok s') :
    s' = s.adding [slot] := by
  obtain ⟨frames⟩ := s
  unfold declare at h
  dsimp only at h
  split at h
  · cases h
  · split at h
    · cases h
    · split at h
      · cases h
      · split at h
        · cases h
        · cases h
          rfl

end Scopes

/-! ## Steps that declare slots -/

/--
A step of a check that adds the given slots to the innermost frame. If it fails, it has added some of them,
from the first on. All frames below are as before, and so are scopes without a frame.
-/
def Step.Declares {τ : Type} (r : Step Checker τ Unit) (k : Checker) (slots : List Nat) : Prop :=
  r.Ends (fun _ _ k' => k'.scopes = k.scopes.adding slots)
    fun _ k' => ∃ new, new <+: slots ∧ k'.scopes = k.scopes.adding new

namespace Step.Declares

variable {τ υ : Type} {r : Step Checker τ Unit} {k : Checker} {us vs : List Nat}

/-- A step that does not touch the scopes declares nothing. -/
theorem kept (h : r.state.scopes = k.scopes) : r.Declares k [] := by
  have hkept : r.state.scopes = k.scopes.adding [] := by rw [h, Scopes.adding_nil]
  exact ⟨fun _ _ => hkept, fun _ _ => ⟨[], List.prefix_rfl, hkept⟩⟩

theorem exists_new (h : r.Declares k us) : ∃ new, new <+: us ∧ r.state.scopes = k.scopes.adding new := by
  cases hr : r.result with
  | ok u => exact ⟨us, List.prefix_rfl, h.ok u hr⟩
  | error e => exact h.error e hr

theorem scopes_eq (h : r.Declares k []) : r.state.scopes = k.scopes := by
  obtain ⟨new, hnew, hscopes⟩ := h.exists_new
  rw [hscopes, List.prefix_nil.mp hnew, Scopes.adding_nil]

/-- Outside of functions it makes no difference which slots are declared. -/
theorem outside (h : r.Declares k us) (hk : k.scopes.isGlobal = true) : r.state.scopes = k.scopes := by
  obtain ⟨new, _, hscopes⟩ := h.exists_new
  rw [hscopes, Scopes.adding_of_isGlobal hk]

theorem map {wrap : τ → υ} (h : r.Declares k us) : (r.map wrap).Declares k us := Step.Ends.map h

theorem andThen {wrap : τ → υ} {next : τ → Unit → Checker → Step Checker υ Unit} (h : r.Declares k us)
    (hnext : ∀ t k', (next t () k').Declares k' vs) : (r.andThen wrap next).Declares k (us ++ vs) := by
  refine Step.Ends.andThen (Step.Ends.mono_error h ?_) ?_
  · rintro _ k' ⟨new, hnew, hk'⟩
    exact ⟨new, hnew.trans (List.prefix_append us vs), hk'⟩
  · intro t _ k' hk'
    refine Step.Ends.mono (hnext t k') ?_ ?_
    · intro _ _ k'' hk''
      rw [hk'', hk', Scopes.adding_adding]
    · rintro _ k'' ⟨new, hnew, hk''⟩
      refine ⟨us ++ new, (List.prefix_append_right_inj us).mpr hnew, ?_⟩
      rw [hk'', hk', Scopes.adding_adding]

/-- A frame that was pushed is popped, with all that was declared in it. -/
theorem leave {session : Session} {frame : Frame} {frames : List Frame}
    (h : r.Declares ⟨session, ⟨frame :: frames⟩⟩ us) : (r.mapState Checker.leave).state.scopes = ⟨frames⟩ := by
  obtain ⟨new, _, hscopes⟩ := h.exists_new
  show r.state.scopes.leave = ⟨frames⟩
  rw [hscopes, Scopes.leave_adding]

theorem inBlock {step : Checker → Step Checker τ Unit} (h : ∀ k, (step k).Declares k us) :
    (k.inBlock step).Declares k [] := by
  unfold Checker.inBlock
  split
  next scopes henter =>
    obtain ⟨f, _, rfl⟩ := Option.map_eq_some_iff.mp henter
    exact kept (h _).leave
  next henter =>
    -- there is no function to be in, hence no frame
    refine kept ((h k).outside ?_)
    simpa [Scopes.enterBlock?, Scopes.function?, Scopes.isGlobal] using henter

theorem inFunction {step : Checker → Step Checker τ Unit} (h : ∀ k, (step k).Declares k us)
    (n argCount : Nat) : (k.inFunction n argCount step).Declares k [] := kept (h _).leave

end Step.Declares

/-! ## Expressions and variables -/

section Declarations

variable {k : Checker}

theorem Expr.declares_check (e : Expr) : (e.check k).Declares k [] := by
  unfold Expr.check
  split <;> exact .kept rfl

theorem Expr.declares_checkOption (e : Option Expr) : (Expr.checkOption e k).Declares k [] := by
  cases e with
  | none => exact .kept rfl
  | some e => exact .map (e.declares_check)

theorem Expr.declares_checkTyped (e : Expr) (expected : ValueType) :
    (e.checkTyped expected k).Declares k [] :=
  e.declares_check.andThen fun _ _ => .kept rfl

theorem Expr.declares_checkInitval (e : Expr) (name : String) (slot : Nat) (expected : ValueType) :
    (e.checkInitval name slot expected k).Declares k [] := by
  refine (e.declares_checkTyped expected).andThen fun e k' => ?_
  split <;> exact .kept rfl

theorem Expr.declares_checkReturn (e : Option Expr) (p : Span) :
    (Expr.checkReturn e p k).Declares k [] := by
  unfold Expr.checkReturn
  split
  · exact .kept rfl
  · dsimp only
    split
    · exact .map (Expr.declares_checkTyped _ _)
    · split <;> exact .kept rfl

/-- The slots of the named variables among items. -/
def Item.slots (is : List Item) : List Nat := (Item.variables is).filterMap (·.slot)

theorem Item.slots_eq_flatMap (is : List Item) : Item.slots is = is.flatMap fun i => Item.slots [i] := by
  induction is with
  | nil => rfl
  | cons i is ih =>
      rw [List.flatMap_cons, ← ih, ← List.singleton_append, Item.slots, Item.variables_append,
        List.filterMap_append]
      rfl

theorem VarDecl.declares_checkGlobal (d : VarDecl) : (d.checkGlobal k).Declares k [] := by
  unfold VarDecl.checkGlobal
  split
  · exact .kept rfl
  · exact .kept rfl
  · exact .kept rfl
  · split
    · exact .kept rfl
    · exact .map (Expr.declares_checkInitval _ _ _ _)

theorem VarDecl.declares_checkInit (d : VarDecl) (slot : Nat) : (d.checkInit slot k).Declares k [] := by
  unfold VarDecl.checkInit
  split
  · exact .kept rfl
  · split
    · exact .kept rfl
    · exact .map (Expr.declares_checkTyped _ _)

theorem VarDecl.declares_checkLocal (d : VarDecl) : (d.checkLocal k).Declares k (Item.slots [.var d]) := by
  unfold VarDecl.checkLocal
  split
  next hname =>
    rw [Item.slots, Item.variables_unnamed hname]
    exact .kept rfl
  next name hname hslot =>
    rw [Item.slots, Item.variables_named (by rw [hname]; rfl), List.filterMap_cons_none hslot]
    exact .kept rfl
  next name slot hname hslot =>
    rw [Item.slots, Item.variables_named (by rw [hname]; rfl), List.filterMap_cons_some hslot]
    refine (d.declares_checkInit slot).andThen fun d k' => ?_
    split
    next scopes hscopes => exact .done (Scopes.eq_of_declare hscopes)
    next e he => exact .failed ⟨[], List.nil_prefix, (Scopes.adding_nil _).symm⟩

theorem VarDecl.declares_check (d : VarDecl) : (d.check k).Declares k (Item.slots [.var d]) := by
  unfold VarDecl.check
  split
  next hglobal =>
    have hkept := (d.declares_checkGlobal (k := k)).scopes_eq
    rw [← Scopes.adding_of_isGlobal hglobal (Item.slots [.var d])] at hkept
    exact ⟨fun _ _ => hkept, fun _ _ => ⟨_, List.prefix_rfl, hkept⟩⟩
  next => exact d.declares_checkLocal

end Declarations

/-! ## Blocks and statements -/

/-- What things declare one after the other they declare together. -/
theorem Step.Declares.each {τ : Type} {f : τ → Checker → Step Checker τ Unit} {slots : τ → List Nat}
    {ts : List τ} (h : ∀ t ∈ ts, ∀ k, (f t k).Declares k (slots t)) (k : Checker) :
    (Step.each f ts k).Declares k (ts.flatMap slots) := by
  induction ts generalizing k with
  | nil => exact .kept rfl
  | cons t ts ih =>
      obtain ⟨ht, hts⟩ := List.forall_mem_cons.mp h
      exact (ht k).andThen fun _ k' => .map (ih hts k')

theorem Stmt.slots_opened {x : Stmt} (hx : x.isScope = false) :
    (x.clauses.flatMap fun c => Item.slots c.opened) = [] := by
  refine List.flatMap_eq_nil_iff.mpr fun c hc => ?_
  rw [Stmt.opened_clauses hx c hc]
  rfl

theorem Traversal.declares_check : Traversal.check.Rules (fun b k r => r.Declares k (Item.slots b.items))
    (fun i k r => r.Declares k (Item.slots [i])) (fun _ k r => r.Declares k [])
    fun c k r => r.Declares k (Item.slots c.opened) where
  block items _ hitems k := by
    rw [Item.slots_eq_flatMap]
    exact .map (.each hitems k)
  var d k := .map d.declares_check
  func h body hbody k := by
    show ((Item.func h body).check k).Declares k []
    unfold Item.check
    split
    · exact .kept rfl
    · split
      · exact .kept rfl
      · exact .map (.inFunction hbody _ _)
  stmt _ hx k := .map (hx k)
  value e k := .map (Expr.declares_checkOption e)
  result p e k := .map (Expr.declares_checkReturn e p)
  scope _ hb k := .map (.inBlock hb)
  opening _ hb k := .map (hb k)
  inner _ hx k := .map (hx k)
  clauses x hclauses k := by
    refine .map ?_
    unfold Pass.clauses
    split
    next => exact .inBlock (.each hclauses)
    next hx =>
      rw [← Stmt.slots_opened (Bool.eq_false_iff.mpr hx)]
      exact .each hclauses k

theorem Block.declares_check (b : Block) (k : Checker) : (b.check k).Declares k (Item.slots b.items) :=
  Traversal.declares_check.forBlock b k

theorem Item.declares_check (i : Item) (k : Checker) : (i.check k).Declares k (Item.slots [i]) :=
  Traversal.declares_check.forItem i k

theorem Stmt.declares_check (x : Stmt) (k : Checker) : (x.check k).Declares k [] :=
  Traversal.declares_check.forStmt x k

theorem Item.declares_checkAll (is : List Item) (k : Checker) :
    (Item.checkAll is k).Declares k (Item.slots is) := by
  rw [Item.checkAll_eq_each, Item.slots_eq_flatMap]
  exact .each (fun i _ => i.declares_check) k

/--
**Every frame that is pushed is popped, however a check ends.** Whatever tree is checked, in whatever
scopes and with whatever tables, the frames below the innermost one are as before, and the innermost one has
at most become longer, by slots of variables that stand in the tree outside of inner blocks. A statement
leaves the scopes as they were. A check that starts outside of functions ends there.
-/
theorem Block.check_declares :
    (∀ (b : Block) (k : Checker), (b.check k).Declares k (Item.slots b.items)) ∧
      (∀ (is : List Item) (k : Checker), (Item.checkAll is k).Declares k (Item.slots is)) ∧
      (∀ (i : Item) (k : Checker), (i.check k).Declares k (Item.slots [i])) ∧
      (∀ (d : VarDecl) (k : Checker), (d.check k).Declares k (Item.slots [.var d])) ∧
      (∀ (x : Stmt) (k : Checker), (x.check k).state.scopes = k.scopes) ∧
      (∀ (b : Block) (k : Checker), k.scopes.depth = 0 → (b.check k).state.scopes.depth = 0) ∧
      ∀ (b : Block) (s : Session), (b.checkProgram s).state.scopes.depth = 0 := by
  have houtside : ∀ (b : Block) (k : Checker), k.scopes.depth = 0 →
      (b.check k).state.scopes.depth = 0 := by
    intro b k hk
    have hglobal : k.scopes.isGlobal = true := List.isEmpty_iff_length_eq_zero.mpr hk
    rw [(b.declares_check k).outside hglobal, hk]
  refine ⟨Block.declares_check, Item.declares_checkAll, Item.declares_check, ?_, ?_, houtside, ?_⟩
  · exact fun d k => d.declares_check
  · exact fun x k => (x.declares_check k).scopes_eq
  · exact fun b s => houtside b (.ofSession s) rfl

end Jaf
