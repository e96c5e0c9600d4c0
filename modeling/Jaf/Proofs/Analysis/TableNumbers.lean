import Jaf.Proofs.Analysis.TypeSettling
import Mathlib.Data.List.Nodup
import Mathlib.Data.Option.Basic

/-!
# What the tables say of the program

Numbers are handed out in source order, and each goes to the entry that is added to a table at the same
moment. `Fills` says this of any table: the things entered get the numbers from the table's length on,
and the entry at such a number describes the thing it was given to. Locals, globals and functions are
three instances. From `Fills` it follows that what carries a number is described by the entry there,
which is all that checking needs to know about how numbers were handed out.

A function is described together with its body: its variables are the parameters and then every named
variable of the body, and no function is defined inside of it. The walk through a body is a run along
its declarations (`Block.declarations_allotLocals`), so nothing else needs to know the statement forms.
-/

namespace Jaf

/-! ## Tables -/

section Fills

variable {α β : Type} {number : α → Option Nat} {describes : β → α → Prop}

/-- Entering some things into a table that holds `old` so far makes it hold `new`. -/
inductive Fills (number : α → Option Nat) (describes : β → α → Prop) :
    List β → List α → List β → Prop
  | nil {old : List β} : Fills number describes old [] old
  | cons {old new : List β} {a : α} {as : List α} {b : β} :
      number a = some old.length → describes b a → Fills number describes (old ++ [b]) as new →
      Fills number describes old (a :: as) new

namespace Fills

theorem single {old : List β} {a : α} {b : β} (hn : number a = some old.length)
    (hb : describes b a) : Fills number describes old [a] (old ++ [b]) :=
  .cons hn hb .nil

theorem append {r s t : List β} {as as' : List α} (h : Fills number describes r as s)
    (h' : Fills number describes s as' t) : Fills number describes r (as ++ as') t := by
  induction h with
  | nil => exact h'
  | cons hn hb _ ih => exact .cons hn hb (ih h')

/-- Entries are only ever added at the end. -/
theorem isPrefix {old new : List β} {as : List α} (h : Fills number describes old as new) :
    old <+: new := by
  induction h with
  | nil => exact List.prefix_refl _
  | cons _ _ _ ih => exact (List.prefix_append _ _).trans ih

/-- The entry at the number of a thing describes it. -/
theorem entry {old new : List β} {as : List α} (h : Fills number describes old as new) {a : α}
    (ha : a ∈ as) : ∃ n b, number a = some n ∧ new[n]? = some b ∧ describes b a := by
  induction h with
  | nil => cases ha
  | @cons old new x xs b hn hb hrest ih =>
      rcases List.mem_cons.mp ha with h | h
      · subst h
        obtain ⟨t, rfl⟩ := hrest.isPrefix
        exact ⟨old.length, b, hn, by simp, hb⟩
      · exact ih h

/-- Every entry was there or describes something that was entered. -/
theorem mem_new {old new : List β} {as : List α} (h : Fills number describes old as new) {b : β}
    (hb : b ∈ new) : b ∈ old ∨ ∃ a ∈ as, describes b a := by
  induction h with
  | nil => exact .inl hb
  | @cons old new x xs c hn hc _ ih =>
      rcases ih hb with h | ⟨a, ha, hd⟩
      · rcases List.mem_append.mp h with h | h
        · exact .inl h
        · rw [List.mem_singleton.mp h]
          exact .inr ⟨x, List.mem_cons_self, hc⟩
      · exact .inr ⟨a, List.mem_cons_of_mem _ ha, hd⟩

theorem length_eq {old new : List β} {as : List α} (h : Fills number describes old as new) :
    new.length = old.length + as.length := by
  induction h with
  | nil => rfl
  | cons _ _ _ ih => rw [ih]; simp; omega

/-- What an entry has in common with the thing it describes stands in the table in the same order. -/
theorem map_eq {γ : Type} {f : α → γ} {g : β → γ} (hfg : ∀ {b a}, describes b a → f a = g b)
    {old new : List β} {as : List α} (h : Fills number describes old as new) :
    new.map g = old.map g ++ as.map f := by
  induction h with
  | nil => simp
  | cons _ hb _ ih => simp [ih, hfg hb]

end Fills

end Fills

/-! ## Locals -/

/-- The record of a variable says what the declaration says. -/
def Variable.Describes (v : Variable) (d : VarDecl) : Prop :=
  d.name = some v.name ∧ d.type.encode = .ok v.type

/-- The named variables among declarations. -/
def Item.variables (is : List Item) : List VarDecl :=
  is.filterMap fun
    | .var d => if d.name.isSome then some d else none
    | _ => none

@[simp] theorem Item.variables_append {is js : List Item} :
    Item.variables (is ++ js) = Item.variables is ++ Item.variables js := List.filterMap_append

theorem Item.variables_named {d : VarDecl} {is : List Item} (h : d.name.isSome = true) :
    Item.variables (.var d :: is) = d :: Item.variables is := by
  simp [Item.variables, h]

theorem Item.variables_unnamed {d : VarDecl} {is : List Item} (h : d.name = none) :
    Item.variables (.var d :: is) = Item.variables is := by
  simp [Item.variables, h]

theorem Item.mem_variables {is : List Item} {d : VarDecl} :
    d ∈ Item.variables is ↔ Item.var d ∈ is ∧ d.name.isSome = true := by
  unfold Item.variables
  rw [List.mem_filterMap]
  constructor
  · rintro ⟨i, hi, h⟩
    cases i with
    | var e =>
        by_cases he : e.name.isSome = true
        · simp only [he, if_true, Option.some.injEq] at h
          exact h ▸ ⟨hi, he⟩
        · simp [he] at h
    | func | stmt => cases h
  · rintro ⟨hd, hn⟩
    exact ⟨.var d, hd, by simp [hn]⟩

/-- Whether an item is a variable. -/
def Item.isVariable : Item → Bool
  | .var _ => true
  | _ => false

/-- What numbering the locals of a function does: its variables go from `vars` to `vars'`. -/
structure Item.Placed (vars vars' : List Variable) (old new : List Item) : Prop where
  fills : Fills VarDecl.slot Variable.Describes vars (Item.variables new) vars'
  flat : ∀ i ∈ new, i.isVariable = true
  strays : Item.straysOf new = Item.straysOf old

namespace Item.Placed

theorem nil {vars : List Variable} : Item.Placed vars vars [] [] := ⟨.nil, by simp, rfl⟩

theorem append {a b c : List Variable} {is is' js js' : List Item} (h : Item.Placed a b is is')
    (h' : Item.Placed b c js js') : Item.Placed a c (is ++ js) (is' ++ js') := by
  refine ⟨?_, ?_, ?_⟩
  · rw [variables_append]
    exact h.fills.append h'.fills
  · intro i hi
    exact (List.mem_append.mp hi).elim (h.flat i) (h'.flat i)
  · rw [straysOf_append, straysOf_append, h.strays, h'.strays]

end Item.Placed

variable {c : Container}

/-- A variable with a name gets the next slot, and one without a name is left as it is. -/
theorem VarDecl.allot_eq_ok {d d' : VarDecl} {vars vars' : List Variable}
    (h : d.allot c vars = ⟨d', vars', .ok ()⟩) :
    (d.name = none ∧ d' = d ∧ vars' = vars) ∨
      ∃ name t, d.name = some name ∧ d.type.encode = .ok t ∧
        d' = { d with slot := some vars.length } ∧ vars' = vars ++ [c.newVariable name t] := by
  unfold VarDecl.allot at h
  split at h
  next hn =>
    obtain ⟨rfl, rfl, _⟩ := Step.done_eq_ok.mp h
    exact .inl ⟨hn, rfl, rfl⟩
  next name hn =>
    dsimp only at h
    split at h
    next t ht =>
      obtain ⟨rfl, rfl, _⟩ := Step.done_eq_ok.mp h
      exact .inr ⟨name, t, hn, ht, rfl, rfl⟩
    next => simp at h

theorem VarDecl.placed_allot {d d' : VarDecl} {vars vars' : List Variable}
    (h : d.allot c vars = ⟨d', vars', .ok ()⟩) : Item.Placed vars vars' [.var d] [.var d'] := by
  rcases VarDecl.allot_eq_ok h with ⟨hn, rfl, rfl⟩ | ⟨name, t, hn, ht, rfl, rfl⟩
  · refine ⟨?_, by simp [Item.isVariable], rfl⟩
    rw [Item.variables_unnamed hn]
    exact .nil
  · refine ⟨?_, by simp [Item.isVariable], by simp [Item.strays, hn]⟩
    rw [Item.variables_named (by simp [hn])]
    exact .single rfl ⟨hn, ht⟩

/-- Gives a slot to a variable somewhere in a function body, where nothing else may be declared. -/
def Item.allotDeclared (c : Container) : Item → List Variable → Step (List Variable) Item Unit
  | .var d, vars => (d.allot c vars).map .var
  | .func h body, vars => .fail (.func h body) vars h.span .nestedFunction
  | .stmt x, vars => .fail (.stmt x) vars x.span .nestedFunction

theorem Traversal.declarations_allotLocals : (allotLocals c).Rules
    (fun b vars r => r.map Block.declarations = Step.each (Item.allotDeclared c) b.declarations vars)
    (fun i vars r => r.map Item.declarations = Step.each (Item.allotDeclared c) i.declarations vars)
    (fun x vars r => r.map Stmt.declarations = Step.each (Item.allotDeclared c) x.declarations vars)
    fun d vars r => r.map Clause.declarations = Step.each (Item.allotDeclared c) d.declarations vars := by
  refine plain_allotLocals.runs .declarations id (fun _ _ => rfl) (fun _ _ _ => rfl) ?_ ?_
  · intro d vars
    exact (Step.each_singleton (f := Item.allotDeclared c) (.var d) vars).symm
  · intro h body _ vars
    -- a function inside of a function is refused, with all that is declared in it
    show ((Item.func h body).allotLocals c vars).map Item.declarations = _
    unfold Item.allotLocals
    rfl

/-- **Numbering the locals of a body is a run along its declarations.** -/
theorem Block.declarations_allotLocals (b : Block) (vars : List Variable) :
    (b.allotLocals c vars).map Block.declarations =
      Step.each (Item.allotDeclared c) b.declarations vars :=
  Traversal.declarations_allotLocals.forBlock b vars

theorem Item.placed_each {is is' : List Item} {vars vars' : List Variable}
    (h : Step.each (Item.allotDeclared c) is vars = ⟨is', vars', .ok ()⟩) :
    Item.Placed vars vars' is is' := by
  induction is generalizing is' vars with
  | nil =>
      obtain ⟨rfl, rfl, _⟩ := Step.done_eq_ok.mp h
      exact .nil
  | cons i is ih =>
      obtain ⟨i', u, _, hi, h⟩ := Step.andThen_eq_ok.mp h
      obtain ⟨rest, hrest, rfl⟩ := Step.map_eq_ok.mp h
      cases i with
      | var d =>
          obtain ⟨d', hd, rfl⟩ := Step.map_eq_ok.mp hi
          exact (VarDecl.placed_allot hd).append (ih hrest)
      | func head body => simp [Item.allotDeclared] at hi
      | stmt x => simp [Item.allotDeclared] at hi

theorem Block.placed_allotLocals {b b' : Block} {vars vars' : List Variable}
    (h : b.allotLocals c vars = ⟨b', vars', .ok ()⟩) :
    Item.Placed vars vars' b.declarations b'.declarations := by
  apply Item.placed_each (c := c)
  rw [← Block.declarations_allotLocals, h]
  rfl

/-! ## Functions -/

theorem VarDecl.fills_allotParams : ∀ (ds : List VarDecl) {ds' : List VarDecl}
    {vars vars' : List Variable}, VarDecl.allotParams c ds vars = ⟨ds', vars', .ok ()⟩ →
      Fills VarDecl.slot Variable.Describes vars ds' vars' ∧
        VarDecl.exprsOf ds' = VarDecl.exprsOf ds := by
  intro ds
  induction ds with
  | nil =>
      intro ds' vars vars' h
      obtain ⟨rfl, rfl, _⟩ := Step.done_eq_ok.mp h
      exact ⟨.nil, rfl⟩
  | cons d ds ih =>
      intro ds' vars vars' h
      unfold VarDecl.allotParams at h
      split at h
      next hsome =>
        obtain ⟨d', u, _, hd, h⟩ := Step.andThen_eq_ok.mp h
        obtain ⟨rest, hrest, rfl⟩ := Step.map_eq_ok.mp h
        obtain ⟨hfills, he⟩ := ih hrest
        rcases VarDecl.allot_eq_ok hd with ⟨hn, _, _⟩ | ⟨name, t, hn, ht, rfl, rfl⟩
        · simp [hn] at hsome
        · obtain ⟨_, type, init, slot, span⟩ := d
          exact ⟨.cons rfl ⟨hn, ht⟩ hfills, by simp [he]⟩
      next => simp at h

/-- The entry of a function says what its definition says. -/
structure Function.Describes (f : Function) (p : FuncHead × Block) : Prop where
  name : f.name = p.1.name
  result : p.1.result.encode = .ok f.result
  argCount : f.argCount = p.1.params.length
  vars : Fills VarDecl.slot Variable.Describes [] (p.1.params ++ Item.variables p.2.declarations)
    f.vars
  flat : ∀ i ∈ p.2.declarations, i.isVariable = true

/-- How a function is entered: its parameters and then its locals are numbered in one list of variables. -/
theorem FuncHead.allot_eq_ok {h : FuncHead} {body : Block} {p : FuncHead × Block} {s s' : Session}
    (hs : h.allot body s = ⟨p, s', .ok ()⟩) :
    s.container.functionNo? h.name = none ∧ ∃ result params vars body' all, h.result.encode = .ok result ∧
      VarDecl.allotParams s.container h.params [] = ⟨params, vars, .ok ()⟩ ∧
      body.allotLocals s.container vars = ⟨body', all, .ok ()⟩ ∧
      p = ({ h with params, number := some s.container.functions.length }, body') ∧
      s' = s.addFunction ⟨h.name, result, vars.length, all⟩ := by
  unfold FuncHead.allot at hs
  split at hs
  next => simp at hs
  next hnew =>
    split at hs
    next => simp at hs
    next result hresult =>
      dsimp only at hs
      split at hs
      next => simp at hs
      next h' body' vars argCount hvars =>
        obtain ⟨rfl, rfl, _⟩ := Step.done_eq_ok.mp hs
        obtain ⟨params, vs, _, hparams, hvars⟩ := Step.andThen_eq_ok.mp hvars
        obtain ⟨body'', all, _, hbody, hvars⟩ := Step.andThen_eq_ok.mp hvars
        obtain ⟨hp, rfl, rfl⟩ := Step.done_eq_ok.mp hvars
        cases hp
        exact ⟨by simpa using hnew, result, params, vs, _, _, hresult, hparams, hbody, rfl, rfl⟩

/-- A function that is entered is described by its entry, and keeps its name and its strays. -/
theorem FuncHead.allot_describes {h : FuncHead} {body : Block} {p : FuncHead × Block} {s s' : Session}
    (hs : h.allot body s = ⟨p, s', .ok ()⟩) :
    s.container.functionNo? h.name = none ∧ p.1.name = h.name ∧
      p.1.number = some s.container.functions.length ∧
      Item.straysOf (Item.func p.1 p.2).declarations = Item.straysOf (Item.func h body).declarations ∧
      ∃ f, f.Describes p ∧ s' = s.addFunction f := by
  obtain ⟨hnew, result, params, vars, body', all, hresult, hparams, hbody, rfl, rfl⟩ := allot_eq_ok hs
  obtain ⟨hfills, he⟩ := VarDecl.fills_allotParams _ hparams
  have hplaced := Block.placed_allotLocals hbody
  refine ⟨hnew, rfl, rfl, ?_, _, ⟨rfl, hresult, ?_, ?_, hplaced.flat⟩, rfl⟩
  · simp [Item.strays, he, hplaced.strays]
  · simpa using hfills.length_eq
  · exact hfills.append hplaced.fills

/-! ## The whole program -/

/-- The functions among top-level items. -/
def Item.functions (is : List Item) : List (FuncHead × Block) :=
  is.filterMap fun
    | .func h body => some (h, body)
    | _ => none

theorem Item.functions_append {is js : List Item} :
    Item.functions (is ++ js) = Item.functions is ++ Item.functions js := List.filterMap_append

/-- What entering the items of a program does to the tables. -/
structure Container.Enters (c c' : Container) (items : List Item) : Prop where
  globals : Fills VarDecl.slot Variable.Describes c.globals (Item.variables items) c'.globals
  functions : Fills (fun p : FuncHead × Block => p.1.number) Function.Describes c.functions
    (Item.functions items) c'.functions
  globalNames : (c.globals.map (·.name)).Nodup → (c'.globals.map (·.name)).Nodup
  functionNames : (c.functions.map (·.name)).Nodup → (c'.functions.map (·.name)).Nodup

namespace Container

theorem Enters.nil (c : Container) : c.Enters c [] := ⟨.nil, .nil, id, id⟩

theorem Enters.cons {a b c : Container} {i : Item} {is : List Item} (h : a.Enters b [i])
    (h' : b.Enters c is) : a.Enters c (i :: is) where
  globals := by
    have := h.globals.append h'.globals
    rwa [← Item.variables_append] at this
  functions := by
    have := h.functions.append h'.functions
    rwa [Item.functions, Item.functions, ← List.filterMap_append] at this
  globalNames hn := h'.globalNames (h.globalNames hn)
  functionNames hn := h'.functionNames (h.functionNames hn)

theorem globalNo?_eq_none {c : Container} {name : String} :
    c.globalNo? name = none ↔ name ∉ c.globals.map (·.name) := by
  simp [globalNo?, List.findIdx?_eq_none_iff]

theorem functionNo?_eq_none {c : Container} {name : String} :
    c.functionNo? name = none ↔ name ∉ c.functions.map (·.name) := by
  simp [functionNo?, List.findIdx?_eq_none_iff]

theorem globalNo?_isSome {c : Container} {name : String} :
    (c.globalNo? name).isSome = true ↔ name ∈ c.globals.map (·.name) := by
  rw [Option.isSome_iff_ne_none, Ne, globalNo?_eq_none, Decidable.not_not]

theorem functionNo?_isSome {c : Container} {name : String} :
    (c.functionNo? name).isSome = true ↔ name ∈ c.functions.map (·.name) := by
  rw [Option.isSome_iff_ne_none, Ne, functionNo?_eq_none, Decidable.not_not]

end Container

theorem VarDecl.enters_allotGlobal {d d' : VarDecl} {s s' : Session}
    (h : d.allotGlobal s = ⟨d', s', .ok ()⟩) :
    s.container.Enters s'.container [.var d'] ∧ (Item.var d').strays = (Item.var d).strays := by
  unfold VarDecl.allotGlobal at h
  split at h
  next hn =>
    obtain ⟨rfl, rfl, _⟩ := Step.done_eq_ok.mp h
    refine ⟨⟨?_, .nil, id, id⟩, rfl⟩
    rw [Item.variables_unnamed hn]
    exact .nil
  next name hn =>
    split at h
    next => simp at h
    next hnew =>
      split at h
      next => simp at h
      next t ht =>
        obtain ⟨rfl, rfl, _⟩ := Step.done_eq_ok.mp h
        refine ⟨⟨?_, .nil, ?_, id⟩, by simp [Item.strays, hn]⟩
        · rw [Item.variables_named (by simp [hn])]
          exact .single rfl ⟨hn, ht⟩
        · intro hnodup
          have hfresh := Container.globalNo?_eq_none.mp (by simpa using hnew)
          simpa [Session.addGlobal, Session.note, Container.addGlobal, Container.newVariable] using
            hnodup.concat hfresh

theorem FuncHead.enters_allot {h : FuncHead} {body : Block} {p : FuncHead × Block} {s s' : Session}
    (hs : h.allot body s = ⟨p, s', .ok ()⟩) :
    s.container.Enters s'.container [.func p.1 p.2] ∧
      Item.straysOf (Item.func p.1 p.2).declarations =
        Item.straysOf (Item.func h body).declarations := by
  obtain ⟨hnew, hname, hnumber, hstrays, f, hf, rfl⟩ := FuncHead.allot_describes hs
  refine ⟨⟨.nil, .single hnumber hf, id, ?_⟩, hstrays⟩
  intro hnodup
  have hfresh := Container.functionNo?_eq_none.mp hnew
  rw [← hname, ← hf.name] at hfresh
  simpa [Session.addFunction, Session.note, Container.addFunction] using hnodup.concat hfresh

theorem Item.enters_allot {i i' : Item} {s s' : Session} (h : i.allot s = ⟨i', s', .ok ()⟩) :
    s.container.Enters s'.container [i'] ∧ i'.isDeclaration = i.isDeclaration ∧
      Item.straysOf i'.declarations = Item.straysOf i.declarations := by
  cases i with
  | var d =>
      obtain ⟨d', hd, rfl⟩ := Step.map_eq_ok.mp h
      obtain ⟨henters, he⟩ := VarDecl.enters_allotGlobal hd
      exact ⟨henters, rfl, by simp [he]⟩
  | func head body =>
      unfold Item.allot at h
      obtain ⟨p, hp, rfl⟩ := Step.map_eq_ok.mp h
      obtain ⟨henters, he⟩ := FuncHead.enters_allot hp
      exact ⟨henters, rfl, he⟩
  | stmt x =>
      obtain ⟨rfl, rfl, _⟩ := Step.done_eq_ok.mp h
      exact ⟨⟨.nil, .nil, id, id⟩, rfl, rfl⟩

theorem Item.enters_allotAll : ∀ (is : List Item) {is' : List Item} {s s' : Session},
    Item.allotAll is s = ⟨is', s', .ok ()⟩ →
      s.container.Enters s'.container is' ∧
        is'.map Item.isDeclaration = is.map Item.isDeclaration ∧
        Item.straysOf (Item.declarationsOf is') = Item.straysOf (Item.declarationsOf is) := by
  intro is
  induction is with
  | nil =>
      intro is' s s' h
      obtain ⟨rfl, rfl, _⟩ := Step.done_eq_ok.mp h
      exact ⟨.nil _, rfl, rfl⟩
  | cons i is ih =>
      intro is' s s' h
      obtain ⟨i', u, _, hi, h⟩ := Step.andThen_eq_ok.mp h
      obtain ⟨rest, hrest, rfl⟩ := Step.map_eq_ok.mp h
      obtain ⟨henters, hdecl, he⟩ := Item.enters_allot hi
      obtain ⟨henters', hdecl', he'⟩ := ih hrest
      exact ⟨henters.cons henters', by simp [hdecl, hdecl'], by simp [he, he']⟩

/-- **Numbering enters a script into the tables**, and leaves it a script. -/
theorem Block.enters_allot {b b' : Block} {s s' : Session} (h : b.allot s = ⟨b', s', .ok ()⟩)
    (hb : b.IsScript) : s.container.Enters s'.container b'.items ∧ b'.IsScript := by
  obtain ⟨items, p⟩ := b
  obtain ⟨items', hitems, rfl⟩ := Step.map_eq_ok.mp h
  obtain ⟨henters, hdecl, he⟩ := Item.enters_allotAll _ hitems
  exact ⟨henters, hb.transfer he hdecl⟩

/-- A script that has been entered into tables that were empty before. -/
structure Block.Entered (b : Block) (c : Container) : Prop where
  script : b.IsScript
  globals : Fills VarDecl.slot Variable.Describes [] (Item.variables b.items) c.globals
  functions : Fills (fun p : FuncHead × Block => p.1.number) Function.Describes []
    (Item.functions b.items) c.functions
  globalNames : (c.globals.map (·.name)).Nodup
  functionNames : (c.functions.map (·.name)).Nodup

/-- The first two passes on a new container enter a script into the tables. -/
theorem Block.IsScript.entered {version : Nat} {b b₁ b₂ : Block} {s₁ s₂ : Session} {e : LogEvent}
    (hb : b.IsScript) (htypes : b.bindTypes (.ofContainer (.empty version)) = ⟨b₁, s₁, .ok ()⟩)
    (hdecls : b₁.allot (s₁.note e) = ⟨b₂, s₂, .ok ()⟩) : b₂.Entered s₂.container := by
  obtain ⟨hscript, hsame⟩ := Block.isScript_bindTypes htypes hb
  obtain ⟨henters, hscript'⟩ := Block.enters_allot hdecls hscript
  -- nothing was in the two tables before
  have hglobals : (s₁.note e).container.globals = [] := hsame.globals
  have hfunctions : (s₁.note e).container.functions = [] := hsame.functions
  refine ⟨hscript', ?_, ?_, henters.globalNames ?_, henters.functionNames ?_⟩
  · rw [← hglobals]; exact henters.globals
  · rw [← hfunctions]; exact henters.functions
  · rw [hglobals]; exact List.nodup_nil
  · rw [hfunctions]; exact List.nodup_nil

/-- The first two passes on a new container enter a parsed program into the tables. -/
theorem Block.entered_of_parse {source : String} {version : Nat} {b b₁ b₂ : Block}
    {s₁ s₂ : Session} {e : LogEvent} (hparse : Block.parse source = .ok b)
    (htypes : b.bindTypes (.ofContainer (.empty version)) = ⟨b₁, s₁, .ok ()⟩)
    (hdecls : b₁.allot (s₁.note e) = ⟨b₂, s₂, .ok ()⟩) : b₂.Entered s₂.container :=
  (Block.isScript_of_parse hparse).entered htypes hdecls

/-- Looking for the name of an entry finds the entry, if no two have the same name. -/
theorem findIdx?_of_nodup {β : Type} {name : β → String} {entries : List β}
    (h : (entries.map name).Nodup) {n : Nat} {b : β} (hb : entries[n]? = some b) :
    entries.findIdx? (fun x => decide (name x = name b)) = some n := by
  obtain ⟨hn, rfl⟩ := List.getElem?_eq_some_iff.mp hb
  rw [List.findIdx?_eq_some_iff_getElem]
  refine ⟨hn, by simp, ?_⟩
  intro j hj
  have hne := List.pairwise_iff_getElem.mp (List.pairwise_map.mp (List.nodup_iff_pairwise_ne.mp h))
  simpa using hne j n (by omega) hn hj

namespace Block.Entered

variable {b : Block} {c : Container}

/-- A function of the program has an entry that describes it, under its number and its name. -/
theorem function (h : b.Entered c) {head : FuncHead} {body : Block}
    (hmem : Item.func head body ∈ b.items) :
    ∃ n f, head.number = some n ∧ c.functions[n]? = some f ∧ f.Describes (head, body) ∧
      c.functionNo? head.name = some n := by
  have hmem' : (head, body) ∈ Item.functions b.items :=
    List.mem_filterMap.mpr ⟨_, hmem, rfl⟩
  obtain ⟨n, f, hn, hf, hd⟩ := h.functions.entry hmem'
  refine ⟨n, f, hn, hf, hd, ?_⟩
  rw [← hd.name]
  exact findIdx?_of_nodup h.functionNames hf

/-- No two globals have the same name. -/
theorem variableNames (h : b.Entered c) : ((Item.variables b.items).map (·.name)).Nodup := by
  -- the table has the names of the globals, in the same order
  have hnames := h.globals.map_eq (f := VarDecl.name) (g := some ∘ Variable.name) fun h => h.1
  rw [List.map_nil, List.nil_append] at hnames
  rw [← hnames, ← List.map_map]
  exact h.globalNames.map (Option.some_injective _)

/-- No entry counts more parameters than it has variables. -/
theorem argCount_le (h : b.Entered c) {f : Function} (hf : f ∈ c.functions) :
    f.argCount ≤ f.vars.length := by
  rcases h.functions.mem_new hf with hnil | ⟨p, _, hd⟩
  · cases hnil
  · have hlen := hd.vars.length_eq
    rw [hd.argCount, hlen]
    simp

end Block.Entered

end Jaf
