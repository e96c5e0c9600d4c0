import Jaf.Proofs.Analysis.Acceptance

/-!
# Numbers do not matter

Two containers may hold the same structs, functions and globals under different numbers. This module shows
that a check cannot tell them apart: what passes by the tables of one passes by those of the other, and
struct types change their numbers as the structs do.

`Container.Translates ρ` says that all that can be looked up in one container can be looked up in the other,
with struct numbers replaced by `ρ`. Functions and globals are looked up by name, so their numbers need not
be spoken of. The argument goes in one direction only, from success to success, and the numbers of the
variables of a function are the same on both sides (`Checker.Follows`). A part keeps this relation
(`Part.pass_follows`), and so does the whole body of a function.
-/

namespace Jaf

variable {ρ : Nat → Nat}

/-! ## Types with other numbers -/

/-- A type with another number for its struct. -/
def ValueType.renumber (ρ : Nat → Nat) : ValueType → ValueType
  | .struct n => .struct (ρ n)
  | t => t

/-- A type code with another number for its struct. -/
def TypeCode.renumber (ρ : Nat → Nat) (t : TypeCode) : TypeCode :=
  { t with structNo := t.structNo.map ρ }

/-- A variable with another number for the struct of its type. -/
def Variable.renumber (ρ : Nat → Nat) (v : Variable) : Variable := { v with type := v.type.renumber ρ }

/-- A struct with other numbers in the types of its members. -/
def Struct.renumber (ρ : Nat → Nat) (s : Struct) : Struct :=
  { s with members := s.members.map (Variable.renumber ρ) }

/-- A function with other numbers in the types of its result and its variables. -/
def Function.renumber (ρ : Nat → Nat) (f : Function) : Function :=
  { f with result := f.result.renumber ρ, vars := f.vars.map (Variable.renumber ρ) }

theorem TypeCode.valueType_renumber (t : TypeCode) :
    (t.renumber ρ).valueType = t.valueType.renumber ρ := by
  obtain ⟨data, structNo⟩ := t
  cases data <;> cases structNo <;> rfl

theorem ValueType.renumber_of_isNumeric {t : ValueType} (h : t.isNumeric = true) :
    t.renumber ρ = t := by
  cases t with
  | struct n => cases h
  | _ => rfl

theorem ValueType.renumber_eq_void {t : ValueType} : t.renumber ρ = .void ↔ t = .void := by
  cases t <;> simp [renumber]

theorem Function.params_renumber (f : Function) :
    (f.renumber ρ).params.map (·.type.valueType) =
      (f.params.map (·.type.valueType)).map (ValueType.renumber ρ) := by
  unfold Function.params Function.renumber
  rw [← List.map_take, List.map_map, List.map_map]
  exact List.map_congr_left fun v _ => v.type.valueType_renumber

theorem Struct.HasMember.renumber {s : Struct} {field : String} {i : Nat} {m : Variable}
    (h : s.HasMember field i m) : (s.renumber ρ).HasMember field i (m.renumber ρ) := by
  refine ⟨?_, h.name, ?_⟩
  · show (s.members.map (Variable.renumber ρ))[i]? = _
    rw [List.getElem?_map, h.entry]
    rfl
  · intro j m' hj hm'
    have hm' : (s.members.map (Variable.renumber ρ))[j]? = some m' := hm'
    rw [List.getElem?_map] at hm'
    obtain ⟨m₀, hm₀, rfl⟩ := Option.map_eq_some_iff.mp hm'
    exact h.first j m₀ hj hm₀

theorem BinaryOp.Joins.renumber {op : BinaryOp} {l r t : ValueType} (h : op.Joins l r t) :
    op.Joins (l.renumber ρ) (r.renumber ρ) (t.renumber ρ) := by
  cases h with
  | ints hop => exact .ints hop
  | floats hop hl hr hfloat =>
      rw [ValueType.renumber_of_isNumeric hl, ValueType.renumber_of_isNumeric hr]
      exact .floats hop hl hr hfloat
  | strings => exact .strings
  | compareNumbers hop hl hr =>
      rw [ValueType.renumber_of_isNumeric hl, ValueType.renumber_of_isNumeric hr]
      exact .compareNumbers hop hl hr
  | compareStrings hop => exact .compareStrings hop
  | integral hop => exact .integral hop

/-! ## Expressions -/

/-- All that can be looked up in one way can be looked up in the other, with other struct numbers. -/
structure Lookup.Translates (ρ : Nat → Nat) (env env' : Lookup) : Prop where
  var : ∀ {name ref t}, env.var? name = some (ref, t) →
    ∃ ref', env'.var? name = some (ref', t.renumber ρ)
  function : ∀ {name n f}, env.function? name = some (n, f) →
    ∃ n', env'.function? name = some (n', f.renumber ρ)
  struct : ∀ {n s}, env.struct? n = some s → env'.struct? (ρ n) = some (s.renumber ρ)

namespace Expr.HasType

variable {env env' : Lookup}

theorem renumberAll {es : List Expr} {ts : List ValueType} (h : List.Forall₂ (HasType env) es ts)
    (hes : ∀ e ∈ es, ∀ {t}, HasType env e t → HasType env' e (t.renumber ρ)) :
    List.Forall₂ (HasType env') es (ts.map (ValueType.renumber ρ)) := by
  induction h with
  | nil => exact .nil
  | cons he _ ih =>
      obtain ⟨hfirst, hrest⟩ := List.forall_mem_cons.mp hes
      exact .cons (hfirst he) (ih hrest)

/-- **The rules give the same types**, up to the numbers of structs. -/
theorem renumber (henv : env.Translates ρ env') {e : Expr} {t : ValueType} (h : HasType env e t) :
    HasType env' e (t.renumber ρ) := by
  induction e using Expr.induct generalizing t with
  | int | float | string => cases h; constructor
  | ident n name b =>
      cases h with
      | ident hv =>
          obtain ⟨ref', hv'⟩ := henv.var hv
          exact .ident hv'
  | unary n op e ih =>
      cases h with
      | neg he ht =>
          have he' := ih he
          rw [ValueType.renumber_of_isNumeric ht] at he' ⊢
          exact .neg he' ht
      | invert hop he => exact .invert hop (ih he)
      | step hop hp he => exact .step hop hp (ih he)
  | binary n op l r ihl ihr =>
      cases h with
      | binary hl hr hop => exact .binary (ihl hl) (ihr hr) hop.renumber
  | assign n op a v iha ihv =>
      cases h with
      | set hp ha hv => exact .set hp (iha ha) (ihv hv)
      | update hb hp ha hv hop => exact .update hb hp (iha ha) (ihv hv) hop.renumber
  | ternary n c y o ihc ihy iho =>
      cases h with
      | ternary hc hy ho => exact .ternary (ihc hc) (ihy hy) (iho ho)
  | call n name args k ih =>
      cases h with
      | @call _ _ _ _ no f hf hargs =>
          obtain ⟨no', hf'⟩ := henv.function hf
          have hargs' := renumberAll hargs ih
          rw [← f.params_renumber] at hargs'
          have hcall := HasType.call (n := n) (k := k) hf' hargs'
          rw [show (f.renumber ρ).result = f.result.renumber ρ from rfl,
            TypeCode.valueType_renumber] at hcall
          exact hcall
  | cast n target e ih =>
      cases h with
      | castInt he hs =>
          have he' := ih he
          rw [ValueType.renumber_of_isNumeric hs] at he'
          exact .castInt he' hs
      | castFloat he hs =>
          have he' := ih he
          rw [ValueType.renumber_of_isNumeric hs] at he'
          exact .castFloat he' hs
  | member n o field p ih =>
      cases h with
      | @member _ _ _ _ k s i m ho hs hm =>
          have hmember := HasType.member (n := n) (p := p) (ih ho) (henv.struct hs) hm.renumber
          rw [show (m.renumber ρ).type = m.type.renumber ρ from rfl,
            TypeCode.valueType_renumber] at hmember
          exact hmember
  | comma n es ih =>
      cases h with
      | @comma _ _ ts hes =>
          have hcomma := HasType.comma (n := n) (renumberAll hes ih)
          have hlast : (ts.map (ValueType.renumber ρ)).getLast?.getD .void =
              (ts.getLast?.getD .void).renumber ρ := by
            rw [List.getLast?_map]
            cases ts.getLast? <;> rfl
          rw [hlast] at hcomma
          exact hcomma

end Expr.HasType

/-! ## Containers -/

/-- All that one container has is in the other, with other struct numbers. -/
structure Container.Translates (ρ : Nat → Nat) (c c' : Container) : Prop where
  structs : ∀ {n st}, c.structs[n]? = some st → c'.structs[ρ n]? = some (st.renumber ρ)
  functions : ∀ {name n f}, c.functionNo? name = some n → c.functions[n]? = some f →
    ∃ n', c'.functionNo? name = some n' ∧ c'.functions[n']? = some (f.renumber ρ)
  globals : ∀ {name n v}, c.globalNo? name = some n → c.globals[n]? = some v →
    ∃ n', c'.globalNo? name = some n' ∧ c'.globals[n']? = some (v.renumber ρ)

/-- What names mean in one container they mean in the other, if variables do. -/
theorem Container.Translates.ofScopes {c c' : Container} (h : c.Translates ρ c') {scopes scopes' : Scopes}
    (hfind : ∀ {name ref v}, scopes.find? c name = some (ref, v) →
      ∃ ref', scopes'.find? c' name = some (ref', v.renumber ρ)) :
    (Lookup.ofScopes scopes c).Translates ρ (.ofScopes scopes' c') where
  var := by
    intro name ref t hvar
    obtain ⟨⟨ref, v⟩, hv, heq⟩ := Option.map_eq_some_iff.mp hvar
    cases heq
    obtain ⟨ref', hv'⟩ := hfind hv
    refine ⟨ref', ?_⟩
    rw [← TypeCode.valueType_renumber]
    exact Option.map_eq_some_iff.mpr ⟨_, hv', rfl⟩
  function := by
    intro name n f hfunction
    obtain ⟨n, hn, hfunction⟩ := Option.bind_eq_some_iff.mp hfunction
    obtain ⟨f, hf, hfunction⟩ := Option.bind_eq_some_iff.mp hfunction
    cases hfunction
    obtain ⟨n', hn', hf'⟩ := h.functions hn hf
    refine ⟨n', ?_⟩
    show (c'.functionNo? name >>= fun n => _) = _
    simp [hn', hf']
  struct := fun hs => h.structs hs

/-! ## Inside of a function -/

/--
Two checks are at the same place of a function, which has the number `n` on one side and `n'` on the
other: the blocks around have declared the same slots.
-/
structure Checker.Follows (ρ : Nat → Nat) (n n' : Nat) (f : Function) (k k' : Checker) : Prop where
  tables : k.container.Translates ρ k'.container
  entry : k.container.functions[n]? = some f
  entry' : k'.container.functions[n']? = some (f.renumber ρ)
  own : ∀ frame ∈ k.scopes.frames, frame.function = n
  frames : k'.scopes.frames = k.scopes.frames.map fun frame => { frame with function := n' }

/-- A search finds the image of what it found if all that it looks at is the image. -/
theorem findSome?_eq_map {α β γ : Type} {g : α → Option β} {g' : α → Option γ} {m : β → γ}
    {as : List α} (h : ∀ a ∈ as, g' a = (g a).map m) : as.findSome? g' = (as.findSome? g).map m := by
  induction as with
  | nil => rfl
  | cons a as ih =>
      obtain ⟨ha, has⟩ := List.forall_mem_cons.mp h
      rw [List.findSome?_cons, List.findSome?_cons, ha]
      cases g a with
      | none => exact ih has
      | some b => rfl

namespace Checker.Follows

variable {n n' : Nat} {f : Function} {k k' : Checker}

theorem vars_eq (f : Function) (slot : Nat) :
    (f.renumber ρ).vars[slot]? = f.vars[slot]?.map (Variable.renumber ρ) := List.getElem?_map

theorem find?_frame (h : k.Follows ρ n n' f k') {frame : Frame} (hframe : frame ∈ k.scopes.frames)
    (name : String) :
    Frame.find? { frame with function := n' } k'.container name =
      (frame.find? k.container name).map fun r => (r.1, r.2.renumber ρ) := by
  unfold Frame.find?
  rw [h.own frame hframe, h.entry, h.entry']
  refine findSome?_eq_map fun slot _ => ?_
  rw [vars_eq]
  cases f.vars[slot]? with
  | none => rfl
  | some v =>
      dsimp only [Option.map_some, Variable.renumber]
      split <;> rfl

theorem find? (h : k.Follows ρ n n' f k') {name : String} {ref : VarRef} {v : Variable}
    (hfind : k.scopes.find? k.container name = some (ref, v)) :
    ∃ ref', k'.scopes.find? k'.container name = some (ref', v.renumber ρ) := by
  have hlocal : k'.scopes.frames.findSome? (·.find? k'.container name) =
      (k.scopes.frames.findSome? (·.find? k.container name)).map fun r => (r.1, r.2.renumber ρ) := by
    rw [h.frames, List.findSome?_map]
    exact findSome?_eq_map fun frame hframe => h.find?_frame hframe name
  unfold Scopes.find? at hfind ⊢
  rw [hlocal]
  cases hfound : k.scopes.frames.findSome? (·.find? k.container name) with
  | some found =>
      rw [hfound] at hfind
      cases hfind
      exact ⟨ref, rfl⟩
  | none =>
      rw [hfound] at hfind
      obtain ⟨m, hm, hfind⟩ := Option.bind_eq_some_iff.mp hfind
      obtain ⟨g, hg, hfind⟩ := Option.bind_eq_some_iff.mp hfind
      cases hfind
      obtain ⟨m', hm', hg'⟩ := h.tables.globals hm hg
      refine ⟨.global m', ?_⟩
      simp [hm', hg']

/-- What names mean on one side they mean on the other. -/
theorem lookup (h : k.Follows ρ n n' f k') : k.lookup.Translates ρ k'.lookup :=
  h.tables.ofScopes fun hfind => h.find? hfind

theorem entry?_eq (h : k.Follows ρ n n' f k') (hinside : k.scopes.frames ≠ []) :
    k.entry? = some f ∧ k'.entry? = some (f.renumber ρ) := by
  obtain ⟨frame, frames, hframes⟩ := List.exists_cons_of_ne_nil hinside
  have hown := h.own frame (hframes ▸ List.mem_cons_self)
  unfold Checker.entry? Scopes.function?
  rw [h.frames, hframes]
  simp [hown, h.entry, h.entry']

theorem slot?_eq (h : k.Follows ρ n n' f k') (hinside : k.scopes.frames ≠ []) (slot : Nat) :
    k'.slot? slot = (k.slot? slot).map (Variable.renumber ρ) := by
  obtain ⟨hentry, hentry'⟩ := h.entry?_eq hinside
  rw [Checker.slot?, Checker.slot?, hentry, hentry']
  exact vars_eq f slot

theorem isGlobal_eq (h : k.Follows ρ n n' f k') : k'.scopes.isGlobal = k.scopes.isGlobal := by
  rw [Scopes.isGlobal, Scopes.isGlobal, h.frames, List.isEmpty_map]

/-- Declaring a slot that is new to the block on one side declares it on the other. -/
theorem declare? (h : k.Follows ρ n n' f k') {slot : Nat} {k₁ : Checker}
    (hdeclare : k.declare? slot = some k₁) :
    ∃ k₁', k'.declare? slot = some k₁' ∧ k₁.Follows ρ n n' f k₁' ∧ k₁.session = k.session ∧
      k₁'.session = k'.session ∧ k₁.scopes.frames.length = k.scopes.frames.length := by
  obtain ⟨scopes, hscopes, rfl⟩ := Option.map_eq_some_iff.mp hdeclare
  unfold Scopes.declare at hscopes
  cases hframes : k.scopes.frames with
  | nil => rw [hframes] at hscopes; cases hscopes
  | cons frame outer =>
      have hown := h.own
      rw [hframes] at hscopes hown
      obtain ⟨hfirst, houter⟩ := List.forall_mem_cons.mp hown
      simp only [hfirst, h.entry] at hscopes
      cases hv : f.vars[slot]? with
      | none => rw [hv] at hscopes; cases hscopes
      | some v =>
          rw [hv] at hscopes
          -- the names of the slots are the same on both sides
          have hsame : ∀ other : Nat,
              (f.vars[other]?.map (Variable.renumber ρ)).any (·.name = (v.renumber ρ).name) =
                f.vars[other]?.any (·.name = v.name) := by
            intro other
            cases f.vars[other]? <;> rfl
          dsimp only at hscopes
          split at hscopes
          next => cases hscopes
          next hfresh =>
            cases hscopes
            refine ⟨{ k' with scopes := ⟨⟨n', frame.slots ++ [slot]⟩ ::
              outer.map fun frame => { frame with function := n' }⟩ }, ?_, ?_, rfl, rfl, rfl⟩
            · unfold Checker.declare? Scopes.declare
              rw [h.frames, hframes]
              simp only [List.map_cons, h.entry', vars_eq, hv, Option.map_some]
              simp only [hsame]
              rw [if_neg hfresh]
              rfl
            · refine ⟨h.tables, h.entry, h.entry', ?_, rfl⟩
              exact List.forall_mem_cons.mpr ⟨rfl, houter⟩

end Checker.Follows

/-! ## Parts and bodies -/

/-- How many blocks are entered after a part, if there are `n` of them before. -/
def Part.level : Part → Nat → Nat
  | .enter, n | .head _, n => n + 1
  | .leave, n => n - 1
  | _, n => n

section Follows

variable {n n' : Nat} {f : Function} {k k' k₁ : Checker}

/-- **What passes on one side passes on the other**, part by part, and only scopes change. -/
theorem Part.pass_follows (h : k.Follows ρ n n' f k') (hinside : k.scopes.frames ≠ []) {p : Part}
    (hp : p.isHead = false) (hpass : p.pass k = some k₁) :
    ∃ k₁', p.pass k' = some k₁' ∧ k₁.Follows ρ n n' f k₁' ∧ k₁.session = k.session ∧
      k₁'.session = k'.session ∧ k₁.scopes.frames.length = p.level k.scopes.frames.length := by
  cases p with
  | head => cases hp
  | value e =>
      obtain ⟨rfl, t, ht⟩ := Expr.after?_check.mp hpass
      exact ⟨k', Expr.after?_check.mpr ⟨rfl, _, ht.renumber h.lookup⟩, h, rfl, rfl, rfl⟩
  | result p e =>
      obtain ⟨rfl, g, hg, hvalue⟩ := Expr.after?_checkReturn.mp hpass
      obtain ⟨hentry, hentry'⟩ := h.entry?_eq hinside
      rw [hentry] at hg
      cases hg
      refine ⟨k', Expr.after?_checkReturn.mpr ⟨rfl, _, hentry', ?_⟩, h, rfl, rfl, rfl⟩
      rintro t rfl
      have hvalue := hvalue _ rfl
      show Option.elim e _ _
      rw [show (f.renumber ρ).result = f.result.renumber ρ from rfl, TypeCode.valueType_renumber]
      cases e with
      | none => exact ValueType.renumber_eq_void.mpr hvalue
      | some e => exact hvalue.renumber h.lookup
  | enter =>
      obtain ⟨frame, frames, hframes⟩ := List.exists_cons_of_ne_nil hinside
      have hown := h.own frame (hframes ▸ List.mem_cons_self)
      have henter : k.scopes.enterBlock? = some ⟨⟨n, []⟩ :: k.scopes.frames⟩ := by
        simp [Scopes.enterBlock?, Scopes.function?, hframes, hown]
      have henter' : k'.scopes.enterBlock? = some ⟨⟨n', []⟩ :: k'.scopes.frames⟩ := by
        simp [Scopes.enterBlock?, Scopes.function?, h.frames, hframes]
      rw [Part.pass, henter] at hpass
      cases hpass
      refine ⟨⟨k'.session, ⟨⟨n', []⟩ :: k'.scopes.frames⟩⟩, by rw [Part.pass, henter']; rfl,
        ⟨h.tables, h.entry, h.entry', ?_, ?_⟩, rfl, rfl, rfl⟩
      · exact List.forall_mem_cons.mpr ⟨rfl, h.own⟩
      · exact congrArg (List.cons _) h.frames
  | leave =>
      cases hpass
      refine ⟨k'.leave, rfl, ⟨h.tables, h.entry, h.entry', ?_, ?_⟩, rfl, rfl, ?_⟩
      · exact fun frame hframe => h.own frame (List.mem_of_mem_tail hframe)
      · show k'.scopes.frames.tail = k.scopes.frames.tail.map _
        rw [h.frames, List.map_tail]
      · exact List.length_tail
  | var d =>
      have hlocal : k.scopes.isGlobal = false := by
        simpa [Scopes.isGlobal] using hinside
      have hpass : (d.check k).after? = some k₁ := hpass
      show ∃ k₁', (d.check k').after? = some k₁' ∧ _
      unfold VarDecl.check at hpass ⊢
      rw [hlocal, if_neg Bool.false_ne_true] at hpass
      rw [h.isGlobal_eq, hlocal, if_neg Bool.false_ne_true]
      rcases VarDecl.after?_checkLocal.mp hpass with ⟨hname, rfl⟩ | ⟨slot, hname, hslot, hdeclare, hinit⟩
      · exact ⟨k', VarDecl.after?_checkLocal.mpr (.inl ⟨hname, rfl⟩), h, rfl, rfl, rfl⟩
      · obtain ⟨k₁', hdeclare', hfollows, hs, hs', hlength⟩ := h.declare? hdeclare
        refine ⟨k₁', VarDecl.after?_checkLocal.mpr (.inr ⟨slot, hname, hslot, hdeclare', ?_⟩),
          hfollows, hs, hs', hlength⟩
        intro e he
        obtain ⟨v, hv, ht⟩ := hinit e he
        refine ⟨v.renumber ρ, by rw [h.slot?_eq hinside, hv]; rfl, ?_⟩
        have ht' := ht.renumber h.lookup
        rw [← TypeCode.valueType_renumber] at ht'
        exact ht'

/-- What passes on one side passes on the other, as long as the check stays in the function. -/
theorem Part.passAll_follows {ps : List Part} (hps : ∀ p ∈ ps, p.isHead = false) {m : Nat}
    (h : k.Follows ρ n n' f k') (hlevel : k.scopes.frames.length = m + 1)
    (hstays : Part.stays m ps = true) (hpass : Part.passAll ps k = some k₁) :
    ∃ k₁', Part.passAll ps k' = some k₁' ∧ k₁.Follows ρ n n' f k₁' ∧ k₁.session = k.session ∧
      k₁'.session = k'.session := by
  induction ps generalizing k k' m with
  | nil =>
      cases hpass
      exact ⟨k', rfl, h, rfl, rfl⟩
  | cons p ps ih =>
      obtain ⟨hp, hps⟩ := List.forall_mem_cons.mp hps
      obtain ⟨k₂, hk₂, hrest⟩ := Option.bind_eq_some_iff.mp hpass
      have hinside : k.scopes.frames ≠ [] := by
        intro hnil
        rw [hnil] at hlevel
        cases hlevel
      obtain ⟨k₂', hk₂', hfollows, hs, hs', hlength⟩ := Part.pass_follows h hinside hp hk₂
      rw [hlevel] at hlength
      obtain ⟨m', hm', hstays'⟩ : ∃ m', k₂.scopes.frames.length = m' + 1 ∧
          Part.stays m' ps = true := by
        cases p with
        | head => cases hp
        | enter => exact ⟨m + 1, hlength, hstays⟩
        | leave =>
            cases m with
            | zero => cases hstays
            | succ m => exact ⟨m, hlength, hstays⟩
        | var | value | result => exact ⟨m, hlength, hstays⟩
      obtain ⟨k₁', hk₁', hfollows', hs₁, hs₁'⟩ := ih hps hfollows hm' hstays' hrest
      refine ⟨k₁', ?_, hfollows', hs₁.trans hs, hs₁'.trans hs'⟩
      rw [Part.passAll, hk₂', Option.bind_some]
      exact hk₁'

end Follows

/-! ## Functions -/

/--
**A function that is accepted by the tables of one container is accepted by those of the other**, if it has
the same body but for types. Nothing is left of the check but a line in the log.
-/
theorem Item.passAll_function {h h' : FuncHead} {body body' : Block} {n n' : Nat} {f : Function}
    {k k' k₁ : Checker} (htables : k.container.Translates ρ k'.container)
    (houtside : k.scopes.frames = []) (houtside' : k'.scopes.frames = [])
    (hnumber : h.number = some n) (hnumber' : h'.number = some n')
    (hentry : k.container.functions[n]? = some f)
    (hentry' : k'.container.functions[n']? = some (f.renumber ρ))
    (hbody : body'.parts.map Part.bare = body.parts.map Part.bare)
    (hflat : ∀ p ∈ body.parts, p.isHead = false)
    (hpass : Part.passAll (Item.func h body).parts k = some k₁) :
    k₁.session = k.session.note (.functionEntered h.name) ∧
      ∃ k₁', Part.passAll (Item.func h' body').parts k' = some k₁' ∧
        k₁'.session = k'.session.note (.functionEntered h'.name) := by
  -- both sides enter the body with the parameters declared
  have henter : Part.pass (.head h) k = some ⟨k.session.note (.functionEntered h.name),
      k.scopes.enterFunction n f.argCount⟩ := by
    simp [Part.pass, hnumber, hentry]
  have henter' : Part.pass (.head h') k' = some ⟨k'.session.note (.functionEntered h'.name),
      k'.scopes.enterFunction n' f.argCount⟩ := by
    simp [Part.pass, hnumber', hentry', Function.renumber]
  have hparts : ∀ (h : FuncHead) (b : Block), (Item.func h b).parts = .head h :: (b.parts ++ [.leave]) :=
    fun _ _ => rfl
  rw [hparts, Part.passAll, henter, Option.bind_some, Part.passAll_append] at hpass
  obtain ⟨k₂, hk₂, hleave⟩ := Option.bind_eq_some_iff.mp hpass
  rw [Part.passAll_singleton] at hleave
  cases hleave
  have hstays : Part.stays 0 body.parts = true := by
    have := body.stays_parts 0 []
    rwa [List.append_nil] at this
  have hlevel : (k.scopes.enterFunction n f.argCount).frames.length = 0 + 1 := by
    rw [Scopes.enterFunction, houtside]
    rfl
  have hfollows : Checker.Follows ρ n n' f
      ⟨k.session.note (.functionEntered h.name), k.scopes.enterFunction n f.argCount⟩
      ⟨k'.session.note (.functionEntered h'.name), k'.scopes.enterFunction n' f.argCount⟩ := by
    refine ⟨htables, hentry, hentry', ?_, ?_⟩
    · simp [Scopes.enterFunction, houtside]
    · simp [Scopes.enterFunction, houtside, houtside']
  obtain ⟨k₂', hk₂', _, hs, hs'⟩ := Part.passAll_follows hflat hfollows hlevel hstays hk₂
  refine ⟨hs, k₂'.leave, ?_, hs'⟩
  rw [hparts, Part.passAll, henter', Option.bind_some, Part.passAll_append, ← Part.passAll_bare, hbody,
    Part.passAll_bare, hk₂']
  rfl

end Jaf
