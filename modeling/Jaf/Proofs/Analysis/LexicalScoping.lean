import Jaf.Proofs.Analysis.TableNumbers

/-!
# Scopes and the text of the program

The names in an expression can be looked up in the text alone: `Context.find?` takes the last
declaration of the name in the innermost block around the expression that has one, and outside of these
the global of that name. It knows nothing of frames and tables but the numbers that declarations carry.

A check looks names up in its scopes instead, which are stacks of slot numbers. `Checker.Models` says
that the scopes stand for a context: a frame for each block, in it a slot for each declaration, and in
the function's entry at that slot a record that describes the declaration. The steps of a check keep
this, each moving the context as the text does, and where it holds the two lookups agree
(`Models.lookup`).
-/

namespace Jaf

/-! ## Looking names up in the text -/

/-- The type that a declaration gives to its variable. -/
def VarDecl.valueType? (d : VarDecl) : Option ValueType :=
  match d.type.encode with
  | .ok t => some t.valueType
  | .error _ => none

/-- What the name of a declared variable refers to: the place with the variable's number. -/
def VarDecl.reference? (place : Nat → VarRef) (d : VarDecl) : Option (VarRef × ValueType) := do
  return (place (← d.slot), ← d.valueType?)

theorem VarDecl.reference?_eq_some {place : Nat → VarRef} {d : VarDecl} {ref : VarRef}
    {t : ValueType} : d.reference? place = some (ref, t) ↔
      ∃ slot, d.slot = some slot ∧ place slot = ref ∧ d.valueType? = some t := by
  unfold VarDecl.reference?
  cases d.slot <;> cases d.valueType? <;> simp

namespace Context

/-- The last declaration of a name in the innermost block that has one. -/
def declaration? (σ : Context) (name : String) : Option VarDecl :=
  σ.blocks.findSome? fun block => block.reverse.find? fun d => d.name = some name

/-- What a name refers to: a declaration of the blocks around, and else a global. -/
def find? (globals : List VarDecl) (σ : Context) (name : String) : Option (VarRef × ValueType) :=
  match σ.declaration? name with
  | some d => d.reference? .local
  | none => (globals.find? fun d => d.name = some name).bind fun d => d.reference? .global

end Context

/-- What is found as a local has been declared in a block around the place. -/
theorem Context.find?_local {globals : List VarDecl} {σ : Context} {name : String} {slot : Nat}
    {t : ValueType} (h : σ.find? globals name = some (.local slot, t)) :
    ∃ block ∈ σ.blocks, ∃ d ∈ block,
      d.name = some name ∧ d.slot = some slot ∧ d.valueType? = some t := by
  unfold Context.find? at h
  cases hd : σ.declaration? name with
  | none =>
      -- what is found further out is a global
      rw [hd] at h
      obtain ⟨d, _, hglobal⟩ := Option.bind_eq_some_iff.mp h
      obtain ⟨_, _, hplace, _⟩ := VarDecl.reference?_eq_some.mp hglobal
      cases hplace
  | some d =>
      rw [hd] at h
      obtain ⟨_, hslot, hplace, htype⟩ := VarDecl.reference?_eq_some.mp h
      cases hplace
      obtain ⟨block, hblock, hfind⟩ := List.exists_of_findSome?_eq_some hd
      have hname : d.name = some name := by simpa using List.find?_some hfind
      have hmem : d ∈ block := List.mem_reverse.mp (List.mem_of_find?_eq_some hfind)
      exact ⟨block, hblock, d, hmem, hname, hslot, htype⟩

/-! ## Frames and blocks -/

/-- The variable list holds at a slot what the declaration says. -/
def VarDecl.At (vars : List Variable) (d : VarDecl) (slot : Nat) : Prop :=
  d.slot = some slot ∧ ∃ v, vars[slot]? = some v ∧ v.Describes d

/-- A frame of a function stands for a block: it has a slot for each declaration. -/
def Frame.Holds (n : Nat) (f : Function) (block : List VarDecl) (frame : Frame) : Prop :=
  frame.function = n ∧ List.Forall₂ (VarDecl.At f.vars) block frame.slots

/-- A variable that was found is the one that a declaration stands for. -/
def VarDecl.Found (place : Nat → VarRef) (d : VarDecl) (r : VarRef × Variable) : Prop :=
  ∃ slot, d.slot = some slot ∧ r.1 = place slot ∧ r.2.Describes d

theorem VarDecl.Found.reference? {place : Nat → VarRef} {d : VarDecl} {r : VarRef × Variable}
    (h : d.Found place r) : d.reference? place = some (r.1, r.2.type.valueType) := by
  obtain ⟨slot, hslot, href, _, htype⟩ := h
  simp [VarDecl.reference?, VarDecl.valueType?, hslot, htype, href]

theorem VarDecl.At.reference?_isSome {vars : List Variable} {d : VarDecl} {slot : Nat}
    (h : d.At vars slot) (place : Nat → VarRef) : (d.reference? place).isSome = true := by
  obtain ⟨hslot, v, _, hdesc⟩ := h
  have hfound : d.Found place (place slot, v) := ⟨slot, hslot, rfl, hdesc⟩
  rw [hfound.reference?]
  rfl

theorem Frame.find?_of_holds {c : Container} {n : Nat} {f : Function} {block : List VarDecl}
    {frame : Frame} (h : frame.Holds n f block) (hf : c.functions[n]? = some f) (name : String) :
    Option.Rel (VarDecl.Found .local) (block.reverse.find? fun d => d.name = some name)
      (frame.find? c name) := by
  obtain ⟨hn, hslots⟩ := h
  rw [← hn] at hf
  simp only [Frame.find?, hf, Option.bind_eq_bind, Option.bind_some]
  have hrev := List.forall₂_reverse_iff.mpr hslots
  generalize block.reverse = ds at hrev
  generalize frame.slots.reverse = slots at hrev
  induction hrev with
  | nil => exact .none
  | @cons d slot ds slots hd _ ih =>
      obtain ⟨hslot, v, hv, hname, htype⟩ := hd
      rw [List.find?_cons, List.findSome?_cons, hv]
      by_cases h : v.name = name
      · simp only [hname, h, decide_true, if_true]
        exact .some ⟨slot, hslot, rfl, hname, htype⟩
      · simpa [hname, h] using ih

/-! ## Scopes and contexts -/

/-- The tables that expressions depend on are the same. -/
structure Container.SameTables (c c' : Container) : Prop where
  structs : c'.structs = c.structs
  functions : c'.functions = c.functions
  globals : c'.globals = c.globals

/-- The check is in a context inside of the function with the entry `f` at `n`. -/
structure Checker.Inside (c : Container) (n : Nat) (f : Function) (σ : Context) (k : Checker) :
    Prop where
  tables : c.SameTables k.container
  entry : c.functions[n]? = some f
  number : c.functionNo? f.name = some n
  function : σ.function = some f.name
  nested : σ.blocks ≠ []
  blocks : List.Forall₂ (fun block frame => Frame.Holds n f block frame) σ.blocks k.scopes.frames

/-- The scopes of a check stand for a context. -/
inductive Checker.Models (c : Container) : Context → Checker → Prop
  | outside {k : Checker} : c.SameTables k.container → k.scopes.frames = [] →
      Models c .outside k
  | inside {n : Nat} {f : Function} {σ : Context} {k : Checker} : k.Inside c n f σ → Models c σ k

theorem Checker.Models.tables {c : Container} {σ : Context} {k : Checker} (h : k.Models c σ) :
    c.SameTables k.container := by
  cases h with
  | outside h _ => exact h
  | inside h => exact h.tables

/-- All declarations that a place can see have a slot and a type. -/
theorem Checker.Models.reference?_isSome {c : Container} {σ : Context} {k : Checker} (h : k.Models c σ)
    {block : List VarDecl} (hblock : block ∈ σ.blocks) {d : VarDecl} (hd : d ∈ block) :
    (d.reference? .local).isSome = true := by
  cases h with
  | outside => cases hblock
  | @inside n f _ _ h =>
      have hslots : List.Forall₂ (fun block frame =>
          (∀ d ∈ block, (VarDecl.reference? .local d).isSome = true) ∧ Frame.Holds n f block frame)
          σ.blocks k.scopes.frames := by
        refine h.blocks.imp fun block frame hframe => ⟨?_, hframe⟩
        exact ((List.forall₂_and_left _ _).mp
          (hframe.2.imp fun d slot hat => ⟨hat.reference?_isSome .local, hat⟩)).1
      exact ((List.forall₂_and_left _ _).mp hslots).1 block hblock d hd

theorem Scopes.find?_of_holds {c : Container} {n : Nat} {f : Function} {σ : Context}
    {frames : List Frame} (hf : c.functions[n]? = some f)
    (h : List.Forall₂ (fun block frame => Frame.Holds n f block frame) σ.blocks frames)
    (name : String) :
    Option.Rel (VarDecl.Found .local) (σ.declaration? name) (frames.findSome? (·.find? c name)) := by
  unfold Context.declaration?
  generalize σ.blocks = blocks at h ⊢
  induction h with
  | nil => exact .none
  | @cons block frame blocks frames hframe _ ih =>
      rw [List.findSome?_cons, List.findSome?_cons]
      have hfound := Frame.find?_of_holds hframe hf name
      revert hfound
      cases block.reverse.find? fun d => d.name = some name with
      | none =>
          cases frame.find? c name with
          | none => intro _; exact ih
          | some r => intro h; cases h
      | some d =>
          cases frame.find? c name with
          | none => intro h; cases h
          | some r => intro h; exact h

/-- A global is found under its name, wherever it is declared. -/
theorem Block.Entered.find_global {b : Block} {c : Container} (h : b.Entered c) (name : String) :
    Option.Rel (VarDecl.Found .global) ((Item.variables b.items).find? fun d => d.name = some name)
      (do let n ← c.globalNo? name; let v ← c.globals[n]?; return (.global n, v)) := by
  cases hd : (Item.variables b.items).find? fun d => d.name = some name with
  | none =>
      have hnone : c.globalNo? name = none := by
        rw [Container.globalNo?_eq_none]
        intro hmem
        obtain ⟨v, hv, hname⟩ := List.mem_map.mp hmem
        rcases h.globals.mem_new hv with hnil | ⟨d, hdmem, hdesc⟩
        · cases hnil
        · have := List.find?_eq_none.mp hd d hdmem
          simp [hdesc.1, hname] at this
      rw [hnone]
      exact .none
  | some d =>
      have hname : d.name = some name := by simpa using List.find?_some hd
      obtain ⟨n, v, hslot, hv, hdesc⟩ := h.globals.entry (List.mem_of_find?_eq_some hd)
      have hvname : v.name = name := Option.some.inj (hdesc.1.symm.trans hname)
      have hno : c.globalNo? name = some n := by
        rw [← hvname]
        exact findIdx?_of_nodup h.globalNames hv
      simp only [hno, hv, Option.bind_eq_bind, Option.bind_some]
      exact .some ⟨n, hslot, rfl, hdesc⟩

theorem VarDecl.map_of_found {place : Nat → VarRef} {o : Option VarDecl}
    {r : Option (VarRef × Variable)} (h : Option.Rel (VarDecl.Found place) o r) :
    (r.map fun (ref, v) => (ref, v.type.valueType)) = o.bind (·.reference? place) := by
  cases h with
  | none => rfl
  | some hfound => exact hfound.reference?.symm

/-- **Where the scopes stand for a context, names are looked up as the text says.** -/
theorem Checker.Models.lookup {b : Block} {c : Container} {σ : Context} {k : Checker}
    (hb : b.Entered c) (h : k.Models c σ) (name : String) :
    k.lookup.var? name = σ.find? (Item.variables b.items) name := by
  have htables := h.tables
  have hlocal : Option.Rel (VarDecl.Found .local) (σ.declaration? name)
      (k.scopes.frames.findSome? (·.find? k.container name)) := by
    cases h with
    | outside _ hframes => rw [hframes]; exact .none
    | inside h => exact Scopes.find?_of_holds (htables.functions ▸ h.entry) h.blocks name
  have hglobal : Option.Rel (VarDecl.Found .global)
      ((Item.variables b.items).find? fun d => d.name = some name)
      (do let n ← k.container.globalNo? name
          let v ← k.container.globals[n]?
          return (.global n, v)) := by
    rw [Container.globalNo?, htables.globals]
    exact hb.find_global name
  unfold Context.find?
  show ((k.scopes.find? k.container name).map fun (ref, v) => (ref, v.type.valueType)) = _
  unfold Scopes.find?
  revert hlocal
  cases σ.declaration? name with
  | none =>
      cases k.scopes.frames.findSome? (·.find? k.container name) with
      | none => intro _; exact VarDecl.map_of_found hglobal
      | some r => intro h; cases h
  | some d =>
      cases k.scopes.frames.findSome? (·.find? k.container name) with
      | none => intro h; cases h
      | some r => intro h; exact VarDecl.map_of_found h

/-! ## Steps -/

theorem Context.afterAll_blocks {σ : Context} {block : List VarDecl} {rest : List (List VarDecl)}
    (h : σ.blocks = block :: rest) (items : List Item) :
    (σ.afterAll items).blocks = (block ++ Item.variables items) :: rest := by
  induction items generalizing σ block with
  | nil => simpa [Context.afterAll, Item.variables] using h
  | cons i items ih =>
      have hstep : (σ.after i).blocks = (block ++ Item.variables [i]) :: rest := by
        cases i with
        | func | stmt => simpa [Context.after, Item.variables] using h
        | var d =>
            cases hd : d.name with
            | none => simpa [Context.after, Item.variables, hd] using h
            | some name => simp [Context.after, Item.variables, hd, h]
      show ((σ.after i).afterAll items).blocks = _
      rw [ih hstep, List.append_assoc, ← Item.variables_append]
      rfl

namespace Checker.Inside

variable {c : Container} {n : Nat} {f : Function} {σ : Context} {k : Checker}

theorem function?_eq (h : k.Inside c n f σ) : k.scopes.function? = some n := by
  have hblocks := h.blocks
  unfold Scopes.function?
  cases hb : σ.blocks with
  | nil => exact absurd hb h.nested
  | cons block rest =>
      rw [hb] at hblocks
      obtain ⟨frame, frames, hframe, _, hk⟩ := List.forall₂_cons_left_iff.mp hblocks
      rw [hk]
      simp [hframe.1]

/-- A block is entered with nothing declared in it. -/
theorem enter (h : k.Inside c n f σ) :
    Checker.Inside c n f σ.enter { k with scopes := ⟨⟨n, []⟩ :: k.scopes.frames⟩ } where
  tables := h.tables
  entry := h.entry
  number := h.number
  function := h.function
  nested := by simp [Context.enter]
  blocks := .cons ⟨rfl, .nil⟩ h.blocks

theorem inBlock_eq (h : k.Inside c n f σ) {τ α : Type} (step : Checker → Step Checker τ α) :
    k.inBlock step =
      (step { k with scopes := ⟨⟨n, []⟩ :: k.scopes.frames⟩ }).mapState Checker.leave := by
  simp [Checker.inBlock, Scopes.enterBlock?, h.function?_eq]

/-- Leaving a block brings back the context around it. -/
theorem leave {k' : Checker} {items : List Item} (hσ : σ.blocks ≠ [])
    (h : k'.Inside c n f (σ.enter.afterAll items)) : k'.leave.Inside c n f σ := by
  have hframes := h.blocks
  rw [Context.afterAll_blocks (σ := σ.enter) rfl items] at hframes
  obtain ⟨frame, frames, _, hrest, hk⟩ := List.forall₂_cons_left_iff.mp hframes
  have hfunction := h.function
  rw [Context.afterAll_function] at hfunction
  refine ⟨h.tables, h.entry, h.number, hfunction, hσ, ?_⟩
  show List.Forall₂ _ _ k'.scopes.frames.tail
  rw [hk]
  exact hrest

/-- A variable that is declared joins the innermost block. -/
theorem declare (h : k.Inside c n f σ) {d : VarDecl} {slot : Nat} {p : Span} {scopes : Scopes}
    (hname : d.name.isSome = true) (hd : d.At f.vars slot)
    (hs : k.scopes.declare k.container slot p = .ok scopes) :
    Checker.Inside c n f (σ.after (.var d)) { k with scopes } := by
  obtain ⟨block, rest, hb⟩ := List.exists_cons_of_ne_nil h.nested
  have hblocks := h.blocks
  rw [hb] at hblocks
  obtain ⟨frame, frames, ⟨hframe, hslots⟩, hrest, hk⟩ := List.forall₂_cons_left_iff.mp hblocks
  have hentry : k.container.functions[frame.function]? = some f := by
    rw [hframe, h.tables.functions]; exact h.entry
  obtain ⟨v, hv, _⟩ := hd.2
  simp only [Scopes.declare, hk, hentry, hv] at hs
  split at hs
  · cases hs
  · cases hs
    have hafter : σ.after (.var d) = { σ with blocks := (block ++ [d]) :: rest } := by
      simp [Context.after, hname, hb]
    rw [hafter]
    refine ⟨h.tables, h.entry, h.number, h.function, List.cons_ne_nil _ _, .cons ⟨hframe, ?_⟩ hrest⟩
    exact List.rel_append hslots (.cons hd .nil)

end Checker.Inside

/-- What fills a table from its start is numbered from zero on. -/
theorem Fills.forall₂ {α β : Type} {number : α → Option Nat} {describes : β → α → Prop}
    {old new : List β} {as : List α} (h : Fills number describes old as new) :
    List.Forall₂ (fun a n => number a = some n ∧ ∃ b, new[n]? = some b ∧ describes b a) as
      (List.range' old.length as.length) := by
  induction h with
  | nil => exact .nil
  | @cons old new a as b hn hb hrest ih =>
      obtain ⟨t, rfl⟩ := hrest.isPrefix
      refine .cons ⟨hn, b, by simp, hb⟩ ?_
      simpa using ih

/-- A function body is entered with the parameters declared. -/
theorem Checker.Inside.enterFunction {c : Container} {n : Nat} {f : Function} {k : Checker}
    {head : FuncHead} {body : Block} (htables : c.SameTables k.container)
    (hframes : k.scopes.frames = []) (hentry : c.functions[n]? = some f)
    (hnumber : c.functionNo? head.name = some n) (hf : f.Describes (head, body)) :
    Checker.Inside c n f (.body head)
      { k with scopes := k.scopes.enterFunction n f.argCount } := by
  refine ⟨htables, hentry, hf.name ▸ hnumber, congrArg some hf.name.symm, by simp [Context.body], ?_⟩
  show List.Forall₂ _ [head.params] (⟨n, List.range f.argCount⟩ :: k.scopes.frames)
  rw [hframes, hf.argCount]
  refine .cons ⟨rfl, ?_⟩ .nil
  have hall := List.forall₂_take head.params.length hf.vars.forall₂
  simp only [List.length_append, List.length_nil] at hall
  rw [List.take_left, List.take_range'_of_length_ge (Nat.le_add_right _ _)] at hall
  rw [List.range_eq_range']
  exact hall

end Jaf
