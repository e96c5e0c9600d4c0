import Jaf.Proofs.Output.DumpText

/-!
# Names that are declared twice

Whoever declares a name wants to reach what the name was given to. Structs, functions and globals have names
of their own in their tables, and a frame refuses a second slot of a name (`Scopes.admits_of_declare`). From
there, by going through all forms of statements, all that one block declares has different names, and what
the body of a function declares also differs from the parameters (`Function.Separates`).

Nothing looks at the parameters and at the members of a struct in this way. They come as lists, and the
lists are taken as they are. A lookup then finds the last of several parameters and the first of several
members, and the others are out of reach.
-/

namespace Jaf

/-! ## Names of slots -/

/-- The names that a function gives to slots. -/
def Function.names (f : Function) (slots : List Nat) : List String :=
  slots.filterMap fun slot => f.vars[slot]?.map (·.name)

/-- A block that has declared the slots `old` can declare the slots `new` too, without giving a name twice. -/
structure Function.Admits (f : Function) (old new : List Nat) : Prop where
  known : ∀ slot ∈ new, slot < f.vars.length
  nodup : (f.names new).Nodup
  disjoint : (f.names old).Disjoint (f.names new)

namespace Function

variable {f : Function} {old us vs : List Nat}

theorem names_append (f : Function) (us vs : List Nat) : f.names (us ++ vs) = f.names us ++ f.names vs :=
  List.filterMap_append

theorem names_range (f : Function) : f.names (List.range f.argCount) = f.params.map (·.name) := by
  unfold params
  generalize f.argCount = count
  induction count with
  | zero => rfl
  | succ count ih =>
      rw [List.range_succ, names_append, ih, List.take_add_one, List.map_append]
      congr 1
      cases hv : f.vars[count]? <;> simp [names, hv]

theorem Admits.nil : f.Admits old [] :=
  ⟨List.forall_mem_nil _, List.nodup_nil, List.disjoint_nil_right _⟩

theorem Admits.append (h : f.Admits old us) (h' : f.Admits (old ++ us) vs) : f.Admits old (us ++ vs) := by
  have hapart := h'.disjoint
  rw [names_append, List.disjoint_append_left] at hapart
  refine ⟨List.forall_mem_append.mpr ⟨h.known, h'.known⟩, ?_, ?_⟩
  · rw [names_append]
    exact h.nodup.append h'.nodup hapart.2
  · rw [names_append]
    exact List.disjoint_append_right.mpr ⟨h.disjoint, hapart.1⟩

/-- What a block can declare does not make a name double. -/
theorem Admits.nodup_iff (h : f.Admits old us) : (f.names (old ++ us)).Nodup ↔ (f.names old).Nodup := by
  rw [names_append]
  constructor
  · intro hall
    exact (List.nodup_append'.mp hall).1
  · intro hold
    exact hold.append h.nodup h.disjoint

end Function

/-- A slot that a frame takes has a name that is new there. -/
theorem Scopes.admits_of_declare {c : Container} {n slot : Nat} {f : Function} {old : List Nat}
    {outer : List Frame} {p : Span} {s' : Scopes} (hf : c.functions[n]? = some f)
    (h : Scopes.declare ⟨⟨n, old⟩ :: outer⟩ c slot p = .ok s') : f.Admits old [slot] := by
  unfold Scopes.declare at h
  simp only [hf] at h
  split at h
  next => cases h
  next v hv =>
    split at h
    next => cases h
    next hnew =>
      have hnames : f.names [slot] = [v.name] := by simp [Function.names, hv]
      refine ⟨List.forall_mem_singleton.mpr (List.getElem?_eq_some_iff.mp hv).1, ?_, ?_⟩
      · rw [hnames]
        exact List.nodup_singleton _
      · rw [hnames, List.disjoint_singleton]
        intro htaken
        obtain ⟨other, hother, hname⟩ := List.mem_filterMap.mp htaken
        refine hnew (List.any_eq_true.mpr ⟨other, hother, ?_⟩)
        obtain ⟨w, hw, hname⟩ := Option.map_eq_some_iff.mp hname
        simp [hw, hname]

/-! ## Frames of inner blocks -/

mutual

/-- The slots of each block inside of a block. -/
def Block.frames : Block → List (List Nat)
  | ⟨items, _⟩ => Item.framesOf items

/-- The slots of each block inside of items. -/
def Item.framesOf : List Item → List (List Nat)
  | [] => []
  | i :: is => i.frames ++ Item.framesOf is

/-- The slots of each block inside of an item of a function body. -/
def Item.frames : Item → List (List Nat)
  | .stmt x => x.frames
  | .var _ | .func _ _ => []

/-- The slots of each block inside of a statement. What a loop declares at its start is in a block too. -/
def Stmt.frames : Stmt → List (List Nat)
  | .compound _ b | .switch _ _ b => Item.slots b.items :: b.frames
  | .forLoop _ i _ _ x => Item.slots i.items :: (i.frames ++ x.frames)
  | .ifThen _ _ x | .whileLoop _ _ x | .doLoop _ x _ | .caseLabel _ _ x => x.frames
  | .defaultLabel _ x | .label _ _ x => x.frames
  | .ifElse _ _ y n => y.frames ++ n.frames
  | .expr _ _ | .returnFrom _ _ | .empty _ | .goto _ _ | .breakOut _ | .continueOn _ => []

end

/-- The slots of each block inside of a clause. -/
def Clause.frames : Clause → List (List Nat)
  | .value _ | .result _ _ => []
  | .scope b => Item.slots b.items :: b.frames
  | .opening b => b.frames
  | .inner x => x.frames

theorem Item.framesOf_eq_flatMap (is : List Item) : Item.framesOf is = is.flatMap Item.frames := by
  induction is with
  | nil => rw [Item.framesOf, List.flatMap_nil]
  | cons i is ih => rw [Item.framesOf, List.flatMap_cons, ih]

theorem Stmt.frames_clauses (x : Stmt) :
    x.frames = if x.isScope then
        (x.clauses.flatMap fun c => Item.slots c.opened) :: x.clauses.flatMap Clause.frames
      else x.clauses.flatMap Clause.frames := by
  cases x with
  | _ =>
      rw [Stmt.frames]
      simp [Stmt.clauses, Stmt.isScope, Clause.frames, Clause.opened, Item.slots, Item.variables]

/-- No name is given twice in any of the given frames. -/
def Function.Distinct (f : Function) (frames : List (List Nat)) : Prop :=
  ∀ slots ∈ frames, f.Admits [] slots

/--
The names in a function body are told apart: each block inside gives every name once, and so does the body,
which gives none of the names of the parameters.
-/
structure Function.Separates (f : Function) (body : Block) : Prop where
  locals : f.Admits (List.range f.argCount) (Item.slots body.items)
  blocks : f.Distinct body.frames

theorem Function.Distinct.nil {f : Function} : f.Distinct [] := List.forall_mem_nil _

theorem Function.Distinct.cons {f : Function} {slots : List Nat} {frames : List (List Nat)}
    (h : f.Admits [] slots) (h' : f.Distinct frames) : f.Distinct (slots :: frames) :=
  List.forall_mem_cons.mpr ⟨h, h'⟩

theorem Function.Distinct.append {f : Function} {us vs : List (List Nat)} (h : f.Distinct us)
    (h' : f.Distinct vs) : f.Distinct (us ++ vs) := List.forall_mem_append.mpr ⟨h, h'⟩

/-! ## Steps inside of a function -/

/-- The check is in a block of a function that has declared the given slots. -/
structure Checker.Holds (n : Nat) (f : Function) (slots : List Nat) (outer : List Frame) (k : Checker) :
    Prop where
  scopes : k.scopes = ⟨⟨n, slots⟩ :: outer⟩
  entry : k.container.functions[n]? = some f

section Steps

variable {τ υ : Type} {n : Nat} {f : Function} {slots new : List Nat} {outer : List Frame} {k k' : Checker}

theorem Checker.Holds.adding (h : k.Holds n f slots outer)
    (htables : k.container.SameTables k'.container) (hscopes : k'.scopes = k.scopes.adding new) :
    k'.Holds n f (slots ++ new) outer := by
  constructor
  · rw [hscopes, h.scopes]
    rfl
  · rw [htables.functions, h.entry]

/-- A step that declares nothing in the block the check is in, and enters blocks with the given slots. -/
def Step.Nests (n : Nat) (f : Function) (slots : List Nat) (outer : List Frame) (r : Step Checker τ Unit)
    (frames : τ → List (List Nat)) : Prop :=
  r.Ends (fun t _ k' => k'.Holds n f slots outer ∧ f.Distinct (frames t)) fun _ _ => True

/-- A step that declares new slots in the block the check is in, and enters blocks with the given slots. -/
def Step.Binds (n : Nat) (f : Function) (slots : List Nat) (outer : List Frame) (r : Step Checker τ Unit)
    (new : τ → List Nat) (frames : τ → List (List Nat)) : Prop :=
  r.Ends (fun t _ k' => k'.Holds n f (slots ++ new t) outer ∧ f.Admits slots (new t) ∧
    f.Distinct (frames t)) fun _ _ => True

namespace Step.Nests

variable {r : Step Checker τ Unit} {frames : τ → List (List Nat)}

/-- A step that leaves the tables and the scopes as they are. -/
theorem quiet (hk : k.Holds n f slots outer) (hpasses : k.Passes r.state) (hdeclares : r.Declares k []) :
    r.Nests n f slots outer fun _ => [] := by
  have hscopes : r.state.scopes = k.scopes.adding [] := by
    rw [hdeclares.scopes_eq, Scopes.adding_nil]
  have hk' := hk.adding hpasses.tables hscopes
  rw [List.append_nil] at hk'
  exact ⟨fun _ _ => ⟨hk', Function.Distinct.nil⟩, fun _ _ => trivial⟩

/-- A block is entered with nothing declared, and left with all that has been declared there. -/
theorem inBlock {step : Checker → Step Checker τ Unit} (hk : k.Holds n f slots outer)
    (h : ∀ k', k'.Holds n f [] (⟨n, slots⟩ :: outer) → (step k').Ends
      (fun t _ k'' => (∃ new, k''.Holds n f new (⟨n, slots⟩ :: outer)) ∧ f.Distinct (frames t))
      fun _ _ => True) :
    (k.inBlock step).Nests n f slots outer frames := by
  have henter : k.scopes.enterBlock? = some ⟨⟨n, []⟩ :: ⟨n, slots⟩ :: outer⟩ := by
    rw [hk.scopes]
    rfl
  unfold Checker.inBlock
  rw [henter]
  refine Step.Ends.mapState (Step.Ends.mono (h _ ⟨rfl, hk.entry⟩) ?_ fun _ _ h => h)
  rintro t _ k'' ⟨⟨new, hk''⟩, hframes⟩
  refine ⟨⟨?_, hk''.entry⟩, hframes⟩
  show k''.scopes.leave = _
  rw [hk''.scopes]
  rfl

end Step.Nests

/-- What a step in a block of its own declares is a frame, and so is every block that it enters. -/
theorem Step.Binds.inBlock {step : Checker → Step Checker τ Unit} {new : τ → List Nat}
    {frames : τ → List (List Nat)} (hk : k.Holds n f slots outer)
    (h : ∀ k', k'.Holds n f [] (⟨n, slots⟩ :: outer) →
      (step k').Binds n f [] (⟨n, slots⟩ :: outer) new frames) :
    (k.inBlock step).Nests n f slots outer fun t => new t :: frames t := by
  refine .inBlock hk fun k' hk' => Step.Ends.mono (h k' hk') ?_ fun _ _ h => h
  rintro t _ k'' ⟨hk'', hnew, hframes⟩
  exact ⟨⟨_, hk''⟩, .cons hnew hframes⟩

theorem Step.Binds.done {t : τ} {us : List Nat} {new : τ → List Nat} {frames : τ → List (List Nat)}
    (hnew : new t = us) (hk : k.Holds n f (slots ++ us) outer) (hadmits : f.Admits slots us)
    (hframes : f.Distinct (frames t)) : (Step.done t k ()).Binds n f slots outer new frames := by
  subst hnew
  exact Step.Ends.done ⟨hk, hadmits, hframes⟩

theorem Step.Binds.map {r : Step Checker τ Unit} {wrap : τ → υ} {new : υ → List Nat}
    {frames : υ → List (List Nat)}
    (h : r.Binds n f slots outer (fun t => new (wrap t)) fun t => frames (wrap t)) :
    (r.map wrap).Binds n f slots outer new frames := Step.Ends.map h

theorem Step.Binds.each {step : τ → Checker → Step Checker τ Unit} {new : τ → List Nat}
    {frames : τ → List (List Nat)} {ts : List τ} (h : ∀ t ∈ ts, ∀ k slots outer,
      k.Holds n f slots outer → (step t k).Binds n f slots outer new frames) (k : Checker) (slots : List Nat)
    (outer : List Frame) (hk : k.Holds n f slots outer) :
    (Step.each step ts k).Binds n f slots outer (List.flatMap new) (List.flatMap frames) := by
  induction ts generalizing k slots with
  | nil => exact .done List.flatMap_nil (by rwa [List.append_nil]) .nil .nil
  | cons t ts ih =>
      obtain ⟨ht, hts⟩ := List.forall_mem_cons.mp h
      refine Step.Ends.andThen (ht k slots outer hk) ?_
      rintro t' _ k' ⟨hk', hnew, ht'⟩
      refine .map (Step.Ends.mono (ih hts k' _ hk') ?_ fun _ _ h => h)
      rintro ts' _ k'' ⟨hk'', hnew', hts'⟩
      rw [List.flatMap_cons, List.flatMap_cons, ← List.append_assoc]
      exact ⟨hk'', hnew.append hnew', ht'.append hts'⟩

theorem Step.Nests.binds {r : Step Checker τ Unit} {frames : τ → List (List Nat)}
    (h : r.Nests n f slots outer frames) : r.Binds n f slots outer (fun _ => []) frames := by
  refine Step.Ends.mono h ?_ fun _ _ h => h
  rintro t _ k' ⟨hk', hframes⟩
  rw [List.append_nil]
  exact ⟨hk', .nil, hframes⟩

/-! ## Expressions and variables -/

theorem Expr.nests_checkOption (e : Option Expr) (hk : k.Holds n f slots outer) :
    (Expr.checkOption e k).Nests n f slots outer fun _ => [] :=
  .quiet hk (Expr.checks_checkOption (P := True) e).passes (Expr.declares_checkOption e)

/-- An initializer changes nothing about the variable it belongs to. -/
theorem VarDecl.keeps_checkInit (d : VarDecl) (slot : Nat) (hk : k.Holds n f slots outer) :
    (d.checkInit slot k).Ends
      (fun d' _ k' => k'.Holds n f slots outer ∧ d'.name = d.name ∧ d'.slot = d.slot)
      fun _ _ => True := by
  unfold VarDecl.checkInit
  split
  next => exact .done ⟨hk, rfl, rfl⟩
  next init _ =>
    split
    next => exact .failed trivial
    next expected _ =>
      have hinit : (init.checkTyped expected k).Nests n f slots outer fun _ => [] :=
        .quiet hk (Expr.checks_checkTyped (P := True) init expected).passes
          (init.declares_checkTyped expected)
      exact .map (Step.Ends.mono hinit (fun _ _ _ h => ⟨h.1, rfl, rfl⟩) fun _ _ h => h)

theorem VarDecl.binds_check (d : VarDecl) (hk : k.Holds n f slots outer) :
    (d.check k).Binds n f slots outer (fun d => Item.slots [.var d]) fun _ => [] := by
  have hinside : k.scopes.isGlobal = false := by
    rw [hk.scopes]
    rfl
  unfold VarDecl.check VarDecl.checkLocal
  rw [hinside, if_neg Bool.false_ne_true]
  split
  next hname =>
    have hslots : Item.slots [.var d] = [] := by
      rw [Item.slots, Item.variables_unnamed hname]
      rfl
    exact .done hslots (by rwa [List.append_nil]) .nil .nil
  next => exact .fail trivial
  next name slot hname hslot =>
    refine Step.Ends.andThen (d.keeps_checkInit slot hk) ?_
    rintro d' _ k' ⟨hk', hname', hslot'⟩
    have hslots : Item.slots [.var d'] = [slot] := by
      rw [Item.slots, Item.variables_named (by rw [hname', hname]; rfl),
        List.filterMap_cons_some (hslot'.trans hslot)]
      rfl
    split
    next scopes hscopes =>
      refine Step.Binds.done hslots (hk'.adding ⟨rfl, rfl, rfl⟩ (Scopes.eq_of_declare hscopes)) ?_ .nil
      rw [hk'.scopes] at hscopes
      exact Scopes.admits_of_declare hk'.entry hscopes
    next => exact .failed trivial

end Steps

/-! ## Blocks and statements -/

section Blocks

variable {n : Nat} {f : Function}

theorem Item.tree_check_func (h : FuncHead) (body : Block) (k : Checker) :
    ∃ body', ((Item.func h body).check k).tree = .func h body' := by
  unfold Item.check
  split
  · exact ⟨body, rfl⟩
  · split
    · exact ⟨body, rfl⟩
    · exact ⟨_, rfl⟩

theorem Traversal.binds_check : Traversal.check.Rules
    (fun _ k r => ∀ slots outer, k.Holds n f slots outer →
      r.Binds n f slots outer (fun b => Item.slots b.items) Block.frames)
    (fun _ k r => ∀ slots outer, k.Holds n f slots outer →
      r.Binds n f slots outer (fun i => Item.slots [i]) Item.frames)
    (fun _ k r => ∀ slots outer, k.Holds n f slots outer → r.Nests n f slots outer Stmt.frames)
    fun _ k r => ∀ slots outer, k.Holds n f slots outer →
      r.Binds n f slots outer (fun c => Item.slots c.opened) Clause.frames where
  block items p hitems k slots outer hk := by
    have hrun := Step.Binds.each hitems k slots outer hk
    rw [← funext Item.slots_eq_flatMap, ← funext Item.framesOf_eq_flatMap] at hrun
    exact .map hrun
  var d k slots outer hk := .map (d.binds_check hk)
  func h body _ k slots outer hk := by
    -- the frame of the inner function is popped again, and it is not one of the blocks of this one
    have hquiet := (Step.Nests.quiet hk (Item.checks_check (.func h body) k).passes
      (Item.declares_check (.func h body) k)).binds
    obtain ⟨body', htree⟩ := Item.tree_check_func h body k
    refine .of_tree (P := fun i => ∃ body', i = .func h body') ⟨body', htree⟩ (hquiet.mono ?_ fun _ _ h => h)
    rintro _ _ k' hk' ⟨body', rfl⟩
    exact hk'
  stmt x hx k slots outer hk := .map (hx k slots outer hk).binds
  value e k slots outer hk := .map (Expr.nests_checkOption e hk).binds
  result p e k slots outer hk := by
    refine .map (Step.Nests.binds ?_)
    exact .quiet hk (Expr.checks_checkReturn e p).passes (Expr.declares_checkReturn e p)
  scope b hb k slots outer hk := .map (Step.Binds.inBlock hk fun k' hk' => hb k' _ _ hk').binds
  opening b hb k slots outer hk := .map (hb k slots outer hk)
  inner x hx k slots outer hk := .map (hx k slots outer hk).binds
  clauses x hclauses k slots outer hk := by
    have hrun := Step.Binds.each hclauses
    refine Step.Ends.map (.of_tree (P := fun cs => (x.withClauses cs).clauses = cs) (by simp) ?_)
    simp only [Stmt.frames_clauses, Stmt.isScope_withClauses]
    unfold Pass.clauses
    split
    next =>
      refine (Step.Binds.inBlock hk fun k' hk' => hrun k' _ _ hk').mono ?_ fun _ _ h => h
      intro cs _ k' hk' hcs
      rwa [hcs]
    next hx =>
      refine (hrun k slots outer hk).mono ?_ fun _ _ h => h
      rintro cs _ k' ⟨hk', _, hframes⟩ hcs
      have hnone : cs.flatMap (fun c => Item.slots c.opened) = [] := by
        rw [← hcs]
        refine Stmt.slots_opened ?_
        rw [Stmt.isScope_withClauses]
        exact Bool.eq_false_iff.mpr hx
      rw [hnone, List.append_nil] at hk'
      rw [hcs]
      exact ⟨hk', hframes⟩

theorem Block.binds_check (b : Block) {k : Checker} {slots : List Nat} {outer : List Frame}
    (hk : k.Holds n f slots outer) :
    (b.check k).Binds n f slots outer (fun b => Item.slots b.items) Block.frames :=
  Traversal.binds_check.forBlock b k slots outer hk

end Blocks

/-! ## Functions of a program -/

/-- A function before and after a successful check: the names in its body have been told apart. -/
structure FuncHead.Checked (c : Container) (p p' : FuncHead × Block) : Prop where
  head : p'.1 = p.1
  entry : ∃ n f, p.1.number = some n ∧ c.functions[n]? = some f ∧ f.Separates p'.2

section Functions

variable {c : Container} {R : FuncHead × Block → FuncHead × Block → Prop}

/-- What holds of each function whose body has been checked in its frame holds of the functions of an item. -/
theorem Item.functions_check
    (hR : ∀ {n f h body body'} {k k' : Checker}, h.number = some n → c.functions[n]? = some f →
      k.Holds n f (List.range f.argCount) [] → body.check k = ⟨body', k', .ok ()⟩ →
      R (h, body) (h, body')) (i : Item) {k : Checker} (hk : k.Outside c) :
    (i.check k).Ends
      (fun i' _ k' => k'.Outside c ∧ List.Forall₂ R (Item.functions [i]) (Item.functions [i']))
      fun _ _ => True := by
  have houtside := hk.passes (Item.checks_check i k).passes
  refine ⟨fun u hu => ⟨houtside, ?_⟩, fun _ _ => trivial⟩
  suffices h : (i.check k).Ends
      (fun i' _ _ => List.Forall₂ R (Item.functions [i]) (Item.functions [i']))
      fun _ _ => True from h.ok u hu
  unfold Item.check
  cases i with
  | var d => exact .map ⟨fun _ _ => .nil, fun _ _ => trivial⟩
  | stmt x => exact .map ⟨fun _ _ => .nil, fun _ _ => trivial⟩
  | func h body =>
      dsimp only
      split
      next => exact .fail trivial
      next n hn =>
        split
        next => exact .fail trivial
        next f hf =>
          have hentry : c.functions[n]? = some f := by rw [← hk.tables.functions, hf]
          have hinside : Checker.Holds n f (List.range f.argCount) []
              ⟨k.session.note (.functionEntered h.name), k.scopes.enterFunction n f.argCount⟩ :=
            ⟨by rw [Scopes.enterFunction, hk.frames], hf⟩
          refine .map (.mapState ⟨fun _ hok => ?_, fun _ _ => trivial⟩)
          exact .cons (hR hn hentry hinside (Step.eq_of_isOk (by rw [hok]; rfl))) .nil

theorem Item.functions_checkAll
    (hR : ∀ {n f h body body'} {k k' : Checker}, h.number = some n → c.functions[n]? = some f →
      k.Holds n f (List.range f.argCount) [] → body.check k = ⟨body', k', .ok ()⟩ →
      R (h, body) (h, body')) (is : List Item) {k : Checker} (hk : k.Outside c) :
    (Item.checkAll is k).Ends
      (fun is' _ _ => List.Forall₂ R (Item.functions is) (Item.functions is')) fun _ _ => True := by
  induction is generalizing k with
  | nil =>
      unfold Item.checkAll
      exact .done .nil
  | cons i is ih =>
      unfold Item.checkAll
      refine Step.Ends.andThen (Item.functions_check hR i hk) ?_
      rintro i' _ k' ⟨hk', hi'⟩
      refine .map (Step.Ends.mono (ih hk') (fun is' _ _ his' => ?_) fun _ _ h => h)
      rw [← List.singleton_append, ← List.singleton_append (l := is'), Item.functions_append,
        Item.functions_append]
      exact List.rel_append hi' his'

/-- What holds of each function whose body has been checked holds of the functions of a program. -/
theorem Block.functions_checkProgram {b b' : Block} {s : Session} {k : Checker}
    (hR : ∀ {n f h body body'} {k k' : Checker}, h.number = some n →
      s.container.functions[n]? = some f → k.Holds n f (List.range f.argCount) [] →
      body.check k = ⟨body', k', .ok ()⟩ → R (h, body) (h, body'))
    (h : b.checkProgram s = ⟨b', k, .ok ()⟩) :
    List.Forall₂ R (Item.functions b.items) (Item.functions b'.items) := by
  obtain ⟨items, p⟩ := b
  unfold Block.checkProgram Block.check at h
  obtain ⟨items', hitems, rfl⟩ := Step.map_eq_ok.mp h
  have hends := Item.functions_checkAll hR items (k := .ofSession s) ⟨⟨rfl, rfl, rfl⟩, rfl⟩
  rw [hitems] at hends
  exact hends.ok () rfl

theorem Block.checked_checkProgram {b b' : Block} {s : Session} {k : Checker}
    (h : b.checkProgram s = ⟨b', k, .ok ()⟩) :
    List.Forall₂ (FuncHead.Checked s.container) (Item.functions b.items) (Item.functions b'.items) := by
  refine Block.functions_checkProgram (fun {n f h body body' k k'} hn hf hk hbody => ?_) h
  have hends := Block.binds_check body hk
  rw [hbody] at hends
  obtain ⟨_, hlocals, hblocks⟩ := hends.ok () rfl
  exact ⟨rfl, n, f, hn, hf, hlocals, hblocks⟩

end Functions

/-! ## What names lead to -/

/-- The name of each of the given slots leads to it where the frame is innermost, whatever is around. -/
def Frame.Reaches (c : Container) (frame : Frame) (slots : List Nat) : Prop :=
  ∀ slot ∈ slots, ∃ f v, c.functions[frame.function]? = some f ∧ f.vars[slot]? = some v ∧
    ∀ outer, Scopes.find? ⟨frame :: outer⟩ c v.name = some (.local slot, v)

section Lookups

variable {c : Container} {n : Nat} {f : Function} {name : String} {slot : Nat} {v : Variable}

/-- A name leads to the last slot that has it. -/
theorem Frame.find?_iff {slots : List Nat} (hf : c.functions[n]? = some f) :
    Frame.find? ⟨n, slots⟩ c name = some (.local slot, v) ↔
      f.vars[slot]? = some v ∧ v.name = name ∧
        ∃ us vs, slots = us ++ slot :: vs ∧ name ∉ f.names vs := by
  unfold Frame.find?
  simp only [hf, Option.bind_eq_bind, Option.bind_some, List.findSome?_eq_some_iff]
  constructor
  · rintro ⟨vs, other, us, hsplit, hfound, hmissed⟩
    split at hfound
    next w hw =>
      split at hfound
      next hname =>
        cases hfound
        refine ⟨hw, hname, us.reverse, vs.reverse, ?_, fun htaken => ?_⟩
        · simpa using congrArg List.reverse hsplit
        · obtain ⟨x, hx, hxname⟩ := List.mem_filterMap.mp htaken
          obtain ⟨u, hu, rfl⟩ := Option.map_eq_some_iff.mp hxname
          have hnone := hmissed x (List.mem_reverse.mp hx)
          simp [hu] at hnone
      next => cases hfound
    next => cases hfound
  · rintro ⟨hv, hname, us, vs, rfl, hmissed⟩
    refine ⟨vs.reverse, slot, us.reverse, by simp, by simp [hv, hname], fun x hx => ?_⟩
    split
    next w hw =>
      refine if_neg fun hxname => hmissed ?_
      exact List.mem_filterMap.mpr ⟨x, List.mem_reverse.mp hx, by rw [hw, Option.map_some, hxname]⟩
    next => rfl

theorem Scopes.find?_of_frame {frame : Frame} {found : VarRef × Variable}
    (h : frame.find? c name = some found) (outer : List Frame) :
    Scopes.find? ⟨frame :: outer⟩ c name = some found := by
  simp [Scopes.find?, h]

/-- What a block could declare can be reached there. -/
theorem Function.Admits.reaches {old new : List Nat} (h : f.Admits old new)
    (hf : c.functions[n]? = some f) : Frame.Reaches c ⟨n, old ++ new⟩ new := by
  intro slot hslot
  obtain ⟨v, hv⟩ : ∃ v, f.vars[slot]? = some v := ⟨_, List.getElem?_eq_getElem (h.known slot hslot)⟩
  refine ⟨f, v, hf, hv, Scopes.find?_of_frame ((Frame.find?_iff hf).mpr ⟨hv, rfl, ?_⟩)⟩
  obtain ⟨us, vs, rfl⟩ := List.append_of_mem hslot
  refine ⟨old ++ us, vs, (List.append_assoc _ _ _).symm, fun htaken => ?_⟩
  have hnodup := h.nodup
  rw [Function.names_append] at hnodup
  have hcons : f.names (slot :: vs) = v.name :: f.names vs :=
    List.filterMap_cons_some (by rw [hv, Option.map_some])
  rw [hcons] at hnodup
  exact (List.nodup_cons.mp (List.nodup_append'.mp hnodup).2.1).1 htaken

theorem Scopes.find?_singleton {frame : Frame} :
    Scopes.find? ⟨[frame]⟩ c name = some (.local slot, v) ↔
      frame.find? c name = some (.local slot, v) := by
  constructor
  · intro h
    unfold Scopes.find? at h
    split at h
    next found hfound =>
      cases h
      simpa using hfound
    next =>
      -- behind the frame there are only globals
      obtain ⟨g, _, h⟩ := Option.bind_eq_some_iff.mp h
      obtain ⟨w, _, h⟩ := Option.bind_eq_some_iff.mp h
      cases h
  · intro h
    exact Scopes.find?_of_frame h []

/-- On entry to a function, a name leads to the last parameter that has it. -/
theorem Scopes.find?_enterFunction (hf : c.functions[n]? = some f) {i : Nat}
    (hv : f.params[i]? = some v) :
    (Scopes.empty.enterFunction n f.argCount).find? c v.name = some (.local i, v) ↔
      ∀ (j : Nat) (w : Variable), i < j → f.params[j]? = some w → w.name ≠ v.name := by
  have hparam : ∀ {j : Nat} {w : Variable},
      f.params[j]? = some w ↔ j < f.argCount ∧ f.vars[j]? = some w := by
    intro j w
    simp [Function.params, List.getElem?_take, ite_eq_iff]
  obtain ⟨hi, hv⟩ := hparam.mp hv
  have hsorted := List.pairwise_lt_range (n := f.argCount)
  rw [Scopes.enterFunction, Scopes.empty, Scopes.find?_singleton, Frame.find?_iff hf]
  constructor
  · rintro ⟨_, _, us, vs, hsplit, hmissed⟩ j w hj hw hname
    obtain ⟨hj', hw⟩ := hparam.mp hw
    rw [hsplit] at hsorted
    have hmem : j ∈ us ++ i :: vs := hsplit ▸ List.mem_range.mpr hj'
    rcases List.mem_append.mp hmem with hus | hvs
    · have := (List.pairwise_append.mp hsorted).2.2 j hus i List.mem_cons_self
      omega
    · rcases List.mem_cons.mp hvs with rfl | hvs
      · omega
      · exact hmissed (List.mem_filterMap.mpr ⟨j, hvs, by rw [hw, Option.map_some, hname]⟩)
  · intro hlast
    obtain ⟨us, vs, hsplit⟩ := List.append_of_mem (List.mem_range.mpr hi)
    refine ⟨hv, rfl, us, vs, hsplit, fun htaken => ?_⟩
    obtain ⟨j, hj, hname⟩ := List.mem_filterMap.mp htaken
    obtain ⟨w, hw, hname⟩ := Option.map_eq_some_iff.mp hname
    rw [hsplit] at hsorted
    have hlt := (List.pairwise_cons.mp (List.pairwise_append.mp hsorted).2.1).1 j hj
    have hmem : j ∈ List.range f.argCount := hsplit ▸ List.mem_append_right us (List.mem_cons_of_mem i hj)
    exact hlast j w hlt (hparam.mpr ⟨List.mem_range.mp hmem, hw⟩) hname

end Lookups

/-! ## Analysed programs -/

/-- The entry at a number was made for something that carries the number. -/
theorem Fills.thing {α β : Type} {number : α → Option Nat} {describes : β → α → Prop} {old new : List β}
    {as : List α} (h : Fills number describes old as new) {n : Nat} (hold : old.length ≤ n)
    (hnew : n < new.length) : ∃ a ∈ as, number a = some n := by
  induction h with
  | nil => omega
  | @cons old new a as b hn _ _ ih =>
      rcases Nat.eq_or_lt_of_le hold with rfl | hlt
      · exact ⟨a, List.mem_cons_self, hn⟩
      · obtain ⟨a', ha', hn'⟩ := ih (by simp; omega) hnew
        exact ⟨a', List.mem_cons_of_mem a ha', hn'⟩

/--
**Which names can be reached.** In the container of an analysed program, no two structs, no two functions and
no two globals have the same name. In a function, no name is given twice in one block, and none of those in
the block of the body is a name of a parameter, so all of them can be reached where they are declared; if a
name stands twice in a frame, then it is one of two parameters. On entry to the function a parameter can be
reached if no parameter behind it has its name, and a member of a struct if none before it has.
-/
theorem Block.names_reached {source : String} {version : Nat} {b b' : Block} {s' : Session}
    (hparse : Block.parse source = .ok b)
    (hanalyse : b.analyse (.ofContainer (.empty version)) = ⟨b', s', .ok ()⟩) :
    let c := s'.container
    ((c.structs.map (·.name)).Nodup ∧ (c.functions.map (·.name)).Nodup ∧ (c.globals.map (·.name)).Nodup) ∧
    (∀ n f, c.functions[n]? = some f →
      (∃ head body, (head, body) ∈ Item.functions b'.items ∧ head.number = some n ∧ f.Separates body ∧
        Frame.Reaches c ⟨n, List.range f.argCount ++ Item.slots body.items⟩ (Item.slots body.items) ∧
        (∀ slots ∈ body.frames, Frame.Reaches c ⟨n, slots⟩ slots) ∧
        ((f.names (List.range f.argCount ++ Item.slots body.items)).Nodup ↔
          (f.params.map (·.name)).Nodup)) ∧
      ∀ i v, f.params[i]? = some v →
        ((Scopes.empty.enterFunction n f.argCount).find? c v.name = some (.local i, v) ↔
          ∀ j w, i < j → f.params[j]? = some w → w.name ≠ v.name)) ∧
    ∀ st ∈ c.structs, ∀ i m, st.members[i]? = some m →
      (st.member? m.name = some (i, m) ↔
        ∀ j m', j < i → st.members[j]? = some m' → m'.name ≠ m.name) := by
  have hwell := Block.wellFormed_of_analyse hparse hanalyse
  obtain ⟨b₁, s₁, b₂, s₂, k, e₁, e₂, e₃, htypes, hdecls, hcheck, rfl⟩ := Block.analyse_eq_ok hanalyse
  have hentered := Block.entered_of_parse hparse htypes hdecls
  have hpasses := (Block.checks_check b₂ (.ofSession (s₂.note e₂))).passes
  have hchecked := Block.checked_checkProgram hcheck
  rw [← Block.checkProgram, hcheck] at hpasses
  have hfunctions : k.container.functions = s₂.container.functions := hpasses.tables.functions
  refine ⟨⟨hwell.structNames, hwell.functionNames, hwell.globalNames⟩, fun n f hf => ⟨?_, ?_⟩, ?_⟩
  · have hf' : s₂.container.functions[n]? = some f := hfunctions ▸ hf
    obtain ⟨q, hq, hn⟩ := hentered.functions.thing (Nat.zero_le n) (List.getElem?_eq_some_iff.mp hf').1
    obtain ⟨q', hq', hhead, n', f', hn', hentry, hseparates⟩ := exists_of_forall₂ hchecked.flip hq
    obtain rfl : n' = n := Option.some.inj (hn'.symm.trans hn)
    obtain rfl : f' = f := Option.some.inj (hentry.symm.trans hf')
    refine ⟨q'.1, q'.2, hq', hhead ▸ hn, hseparates, hseparates.locals.reaches hf, ?_, ?_⟩
    · exact fun slots hslots => (hseparates.blocks slots hslots).reaches hf
    · rw [← Function.names_range]
      exact hseparates.locals.nodup_iff
  · exact fun i v hv => Scopes.find?_enterFunction hf hv
  · intro st _ i m hm
    rw [Struct.member?_iff]
    exact ⟨fun h => h.first, fun h => ⟨hm, rfl, h⟩⟩

/-- A program with names in all kinds of frames, with two members `a` and two parameters `p`. -/
def crowded : String :=
  "struct S \x7b int a, a; \x7d;
int f(int p, int p) \x7b int a; \x7b int p, a; \x7d for (int a; ;) ; return p; \x7d"

set_option maxRecDepth 100000 in
theorem Block.names_reached_crowded :
    ∃ b b' s', Block.parse crowded = .ok b ∧ b.analyse (.ofContainer (.empty 4)) = ⟨b', s', .ok ()⟩ ∧
      s'.container.structs.map (fun st => (st.member? "a").map Prod.fst) = [some 0] ∧
      (Item.functions b'.items).map (fun p => (Item.slots p.2.items, p.2.frames)) =
        [([2], [[3, 4], [5]])] ∧
      s'.container.functions.length = 1 ∧
      ∀ n f, s'.container.functions[n]? = some f →
        ∃ head body, (head, body) ∈ Item.functions b'.items ∧ head.number = some n ∧ f.Separates body := by
  obtain ⟨b, hparse, hrun⟩ := Block.exists_of_chars crowded (fun b =>
      let r := b.analyse (.ofContainer (.empty 4))
      r.result.isOk &&
        (r.state.container.structs.map (fun st => (st.member? "a").map Prod.fst) = [some 0] &&
          ((Item.functions r.tree.items).map (fun p => (Item.slots p.2.items, p.2.frames)) =
            [([2], [[3, 4], [5]])] && r.state.container.functions.length = 1))) rfl (by decide +kernel)
  obtain ⟨hok, hrest⟩ := Bool.and_eq_true_iff.mp hrun
  obtain ⟨hmember, hrest⟩ := Bool.and_eq_true_iff.mp hrest
  obtain ⟨hframes, hlength⟩ := Bool.and_eq_true_iff.mp hrest
  have hanalyse := Step.eq_of_isOk hok
  refine ⟨b, _, _, hparse, hanalyse, of_decide_eq_true hmember, of_decide_eq_true hframes,
    of_decide_eq_true hlength, fun n f hf => ?_⟩
  obtain ⟨head, body, hmem, hnumber, hseparates, _⟩ :=
    ((Block.names_reached hparse hanalyse).2.1 n f hf).1
  exact ⟨head, body, hmem, hnumber, hseparates⟩

/-- A program with two parameters of one name. -/
def doubled : String := "void f(int a, int a) \x7b\x7d"

set_option maxRecDepth 100000 in
/-- That program is accepted, and its first parameter is out of reach. -/
theorem Block.parameter_hidden :
    ∃ b b' s', Block.parse doubled = .ok b ∧ b.analyse (.ofContainer (.empty 4)) = ⟨b', s', .ok ()⟩ ∧
      s'.container.functions.map (fun f => f.params.map (·.name)) = [["a", "a"]] ∧
      ((Scopes.empty.enterFunction 0 2).find? s'.container "a").map Prod.fst = some (.local 1) := by
  obtain ⟨b, hparse, hrun⟩ := Block.exists_of_chars doubled (fun b =>
      let r := b.analyse (.ofContainer (.empty 4))
      r.result.isOk &&
        (r.state.container.functions.map (fun f => f.params.map (·.name)) = [["a", "a"]] &&
          ((Scopes.empty.enterFunction 0 2).find? r.state.container "a").map Prod.fst =
            some (.local 1))) rfl (by decide +kernel)
  obtain ⟨hok, hrest⟩ := Bool.and_eq_true_iff.mp hrun
  obtain ⟨hnames, hfound⟩ := Bool.and_eq_true_iff.mp hrest
  exact ⟨b, _, _, hparse, Step.eq_of_isOk hok, of_decide_eq_true hnames, of_decide_eq_true hfound⟩

end Jaf
