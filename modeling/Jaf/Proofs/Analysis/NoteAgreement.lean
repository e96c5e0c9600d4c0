import Jaf.Proofs.Analysis.LexicalScoping
import Jaf.Proofs.Analysis.SettledTrees

/-!
# Notes that agree with the tables

Whoever works on an analysed program reads the notes in its tree and goes to the tables with them.
`Expr.Agrees` says that a node can be read that way: it has a type, and the slot, the function number or
the member position it carries leads to an entry of its name with its type. `Site.Agrees` says it of
all nodes of an expression, and that the expression has the type which its place asks for. Nothing here
speaks of scopes or of how the notes were found.

The notes were written by looking names up, so they agree with the tables if the lookup does
(`Lookup.Sound`), and folding has kept them.
-/

namespace Jaf

/-! ## Reading notes -/

/-- The entry of the function around a place. -/
def Context.entry? (c : Container) (σ : Context) : Option Function := do
  c.functions[← c.functionNo? (← σ.function)]?

/-- The variable that a binding refers to at a place. -/
def VarRef.target? (c : Container) (σ : Context) : VarRef → Option Variable
  | .local slot => do (← σ.entry? c).vars[slot]?
  | .global slot => c.globals[slot]?

/-- What the declaration of a variable with the given slot declares at a place. -/
def Context.place (σ : Context) (slot : Nat) : VarRef :=
  if σ.function.isSome then .local slot else .global slot

/-- The notes of a node of type `t` lead to the right entries. -/
def Expr.Leads (c : Container) (σ : Context) (t : ValueType) : Expr → Prop
  | ident _ name b =>
    ∃ ref v, b = some ref ∧ ref.target? c σ = some v ∧ v.name = name ∧ v.type.valueType = t
  | call _ name args k =>
    ∃ no f, k = some no ∧ c.functionNo? name = some no ∧ c.functions[no]? = some f ∧
      args.length = f.argCount ∧
      args.map type? = f.params.map (fun v => some v.type.valueType) ∧ f.result.valueType = t
  | member _ o field p =>
    ∃ n s i m, o.type? = some (.struct n) ∧ c.structs[n]? = some s ∧ p = some i ∧
      s.members[i]? = some m ∧ m.name = field ∧ m.type.valueType = t
  | assign _ _ target _ => target.isPlace = true ∧ target.type? = some t
  | _ => True

/-- A node has a type, and its notes lead to the right entries. -/
def Expr.Agrees (c : Container) (σ : Context) (e : Expr) : Prop :=
  ∃ t, e.type? = some t ∧ e.Leads c σ t

/-- All nodes of an expression agree with the tables, and it has the type that its place asks for. -/
def Site.Agrees (c : Container) (x : Site) : Prop :=
  (∀ e ∈ x.expr.nodes, e.Agrees c x.context) ∧
    match x.role with
    | .value => True
    | .result => ∃ f, x.context.entry? c = some f ∧ x.expr.type? = some f.result.valueType
    | .initial slot =>
      ∃ n v, slot = some n ∧ (x.context.place n).target? c x.context = some v ∧
        x.expr.type? = some v.type.valueType

/-- Whether a place agrees with the tables depends on nothing else in the container. -/
theorem Site.Agrees.of_sameTables {c c' : Container} (h : c.SameTables c') {x : Site}
    (hx : x.Agrees c) : x.Agrees c' := by
  obtain ⟨version, structs, functions, globals, initvals⟩ := c
  obtain ⟨version', structs', functions', globals', initvals'⟩ := c'
  obtain ⟨rfl, rfl, rfl⟩ := h
  exact hx

/-! ## Sound lookups -/

/-- What a lookup finds at a place is in the tables. -/
structure Lookup.Sound (c : Container) (σ : Context) (env : Lookup) : Prop where
  var : ∀ {name ref t}, env.var? name = some (ref, t) →
    ∃ v, ref.target? c σ = some v ∧ v.name = name ∧ v.type.valueType = t
  function : ∀ {name no f}, env.function? name = some (no, f) →
    c.functionNo? name = some no ∧ c.functions[no]? = some f
  struct : ∀ {n s}, env.struct? n = some s → c.structs[n]? = some s

theorem Struct.member?_eq_some {s : Struct} {name : String} {i : Nat} {m : Variable}
    (h : s.member? name = some (i, m)) : s.members[i]? = some m ∧ m.name = name := by
  obtain ⟨⟨m', i'⟩, hfind, heq⟩ := Option.map_eq_some_iff.mp h
  cases heq
  exact ⟨by simpa using List.mem_zipIdx_iff_getElem?.mp (List.mem_of_find?_eq_some hfind),
    by simpa using List.find?_some hfind⟩

namespace Expr

variable {c : Container} {σ : Context} {env : Lookup}

/-- A node whose notes fit a sound lookup agrees with the tables. -/
theorem Fits.agrees (henv : env.Sound c σ) (hargs : ∀ f ∈ c.functions, f.argCount ≤ f.vars.length)
    {e : Expr} (h : e.Fits env) : e.Agrees c σ := by
  obtain ⟨t, ht⟩ := h.typed
  refine ⟨t, ht, ?_⟩
  cases e with
  | int | float | string | unary | binary | ternary | cast | comma => trivial
  | ident n name b =>
      obtain ⟨ref, t', hvar, hb, ht'⟩ := h
      obtain ⟨v, hv, hname, htype⟩ := henv.var hvar
      exact ⟨ref, v, hb, hv, hname, htype.trans (Option.some.inj (ht'.symm.trans ht))⟩
  | assign n op target value =>
      obtain ⟨hplace, t', s, htarget, _, _, ht'⟩ := h
      exact ⟨hplace, by rw [htarget, ← ht']; exact ht⟩
  | call n name args k =>
      obtain ⟨no, f, hf, hk, hmap, ht'⟩ := h
      obtain ⟨hno, hentry⟩ := henv.function hf
      refine ⟨no, f, hk, hno, hentry, ?_, hmap, Option.some.inj (ht'.symm.trans ht)⟩
      -- the parameters are the first variables, and there are as many as the entry counts
      have hlen : args.length = f.params.length := by simpa using congrArg List.length hmap
      have hle := hargs f (List.mem_of_getElem? hentry)
      rw [hlen, Function.params, List.length_take]
      omega
  | member n o field p =>
      obtain ⟨m, s, i, v, ho, hs, hm, hp, ht'⟩ := h
      obtain ⟨hi, hname⟩ := Struct.member?_eq_some hm
      exact ⟨m, s, i, v, ho, henv.struct hs, hp, hi, hname, Option.some.inj (ht'.symm.trans ht)⟩

end Expr

/-! ## The lookups of a check -/

theorem Frame.find?_eq_some {c : Container} {frame : Frame} {name : String} {ref : VarRef}
    {v : Variable} (h : frame.find? c name = some (ref, v)) :
    ∃ f slot, c.functions[frame.function]? = some f ∧ ref = .local slot ∧ f.vars[slot]? = some v ∧
      v.name = name := by
  unfold Frame.find? at h
  obtain ⟨f, hf, h⟩ := Option.bind_eq_some_iff.mp h
  obtain ⟨slot, _, hslot⟩ := List.exists_of_findSome?_eq_some h
  split at hslot
  next w hw =>
    split at hslot
    next hname =>
      cases hslot
      exact ⟨f, slot, hf, rfl, hw, hname⟩
    next => cases hslot
  next => cases hslot

theorem Checker.Inside.entry?_eq {c : Container} {n : Nat} {f : Function} {σ : Context} {k : Checker}
    (h : k.Inside c n f σ) : σ.entry? c = some f := by
  simp [Context.entry?, h.function, h.number, h.entry]

theorem Container.globalNo?_name {c : Container} {name : String} {n : Nat} {v : Variable}
    (h : c.globalNo? name = some n) (hv : c.globals[n]? = some v) : v.name = name := by
  obtain ⟨hn, hname, _⟩ := List.findIdx?_eq_some_iff_getElem.mp h
  rw [List.getElem?_eq_getElem hn] at hv
  cases hv
  simpa using hname

/-- All frames belong to the function that the check is in. -/
theorem Checker.Inside.frame_function {c : Container} {n : Nat} {f : Function} {σ : Context}
    {k : Checker} (h : k.Inside c n f σ) : ∀ frame ∈ k.scopes.frames, frame.function = n := by
  have hblocks := h.blocks
  generalize k.scopes.frames = frames at hblocks
  generalize σ.blocks = blocks at hblocks
  induction hblocks with
  | nil => intro frame hframe; cases hframe
  | cons hhead _ ih =>
      intro frame hframe
      rcases List.mem_cons.mp hframe with h' | h'
      · rw [h']; exact hhead.1
      · exact ih frame h'

/-- A local that a check finds is a variable of the function around the place. -/
theorem Checker.Models.local_sound {c : Container} {σ : Context} {k : Checker} (h : k.Models c σ)
    {name : String} {ref : VarRef} {v : Variable}
    (hfind : k.scopes.frames.findSome? (·.find? k.container name) = some (ref, v)) :
    ref.target? c σ = some v ∧ v.name = name := by
  obtain ⟨frame, hmem, hframe⟩ := List.exists_of_findSome?_eq_some hfind
  cases h with
  | outside _ hframes => rw [hframes] at hmem; cases hmem
  | @inside n f _ _ h =>
      obtain ⟨f', slot, hf', rfl, hv, hname⟩ := Frame.find?_eq_some hframe
      rw [h.frame_function frame hmem, h.tables.functions, h.entry] at hf'
      cases hf'
      exact ⟨by simp [VarRef.target?, h.entry?_eq, hv], hname⟩

theorem Checker.Models.sound {c : Container} {σ : Context} {k : Checker} (h : k.Models c σ) :
    k.lookup.Sound c σ := by
  have htables := h.tables
  refine ⟨?_, ?_, ?_⟩
  · intro name ref t hvar
    obtain ⟨⟨ref', v⟩, hfind, heq⟩ := Option.map_eq_some_iff.mp hvar
    cases heq
    refine ⟨v, ?_⟩
    -- a name is looked for in the frames first, and then among the globals
    unfold Scopes.find? at hfind
    split at hfind
    next r hr =>
      cases hfind
      obtain ⟨hv, hname⟩ := h.local_sound hr
      exact ⟨hv, hname, rfl⟩
    next =>
      obtain ⟨n, hn, hfind⟩ := Option.bind_eq_some_iff.mp hfind
      obtain ⟨w, hw, hfind⟩ := Option.bind_eq_some_iff.mp hfind
      cases hfind
      refine ⟨?_, Container.globalNo?_name hn hw, rfl⟩
      rw [VarRef.target?, ← htables.globals]
      exact hw
  · intro name no f hf
    obtain ⟨no', hno, hf⟩ := Option.bind_eq_some_iff.mp hf
    obtain ⟨f', hf', hf⟩ := Option.bind_eq_some_iff.mp hf
    cases hf
    rw [Container.functionNo?, ← htables.functions]
    exact ⟨hno, hf'⟩
  · intro n s hs
    rw [← htables.structs]
    exact hs

end Jaf
