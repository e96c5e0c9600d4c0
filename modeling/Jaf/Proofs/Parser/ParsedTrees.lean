import Jaf.Proofs.Parser.StatementForms
import Jaf.Proofs.Tree.ExprSites

/-!
# What parsing promises

A parser is judged here by what it gives whenever it succeeds, whatever the stream. `Parser.Gives` says
that, and it comes with a rule for each way of putting parsers together; the rule for a loop takes an
invariant of what the loop hands from turn to turn. Going through the grammar with these rules shows
that a script is made of declarations alone, and that no expression stands where none belongs.

Later passes also rely on what the types of a program look like. `TypeSpec.Written` lists the forms that
the parser gives them: a word, a name, an enumeration, or a struct with a body whose members have types
of these forms again. None of them has a number yet.
-/

namespace Jaf

namespace Parser

variable {φ α β : Type}

/-- Whatever the parser gives has the property. -/
def Gives (p : Parser φ α) (Q : α → Prop) : Prop := ∀ s a s', p s = .ok (a, s') → Q a

/-! ## Rules -/

theorem Gives.pure {Q : α → Prop} {a : α} (h : Q a) : (Pure.pure a : Parser φ α).Gives Q := by
  intro s b s' hb
  cases hb
  exact h

/-- A sequence: what the first parser gives is known to the second. -/
theorem Gives.bind {p : Parser φ α} {f : α → Parser φ β} {P : α → Prop} {Q : β → Prop}
    (hp : p.Gives P) (hf : ∀ a, P a → (f a).Gives Q) : Gives (p >>= f) Q := by
  intro s b s' h
  cases hs : p s with
  | error e =>
      simp only [Bind.bind, StateT.bind, hs, Except.bind] at h
      cases h
  | ok r =>
      obtain ⟨a, t⟩ := r
      simp only [Bind.bind, StateT.bind, hs, Except.bind] at h
      exact hf a (hp s a t hs) t b s' h

/-- A sequence in which nothing needs to be known of what the first parser gives. -/
theorem Gives.skip {p : Parser φ α} {f : α → Parser φ β} {Q : β → Prop}
    (hf : ∀ a, (f a).Gives Q) : Gives (p >>= f) Q :=
  Gives.bind (P := fun _ => True) (fun _ _ _ _ => trivial) fun a _ => hf a

theorem Gives.ite {c : Prop} [Decidable c] {p q : Parser φ α} {Q : α → Prop} (hp : p.Gives Q)
    (hq : q.Gives Q) : Gives (if c then p else q) Q := by
  split
  · exact hp
  · exact hq

theorem gives_failAt {p : Span} {c : SyntaxCause} {Q : α → Prop} : (failAt p c : Parser φ α).Gives Q :=
  fun _ _ _ h => nomatch h

theorem gives_unexpected {e : Expected} {Q : α → Prop} : (unexpected e : Parser φ α).Gives Q :=
  fun _ _ _ h => nomatch h

theorem gives_giveUp {Q : α → Prop} : (giveUp : Parser φ α).Gives Q :=
  fun _ _ _ h => nomatch h

/-- What holds of the outcome of a turn: the invariant if there is another, and else the result. -/
def Turn.Keeps (I : α → Prop) (Q : β → Prop) : Turn α β → Prop
  | .again a => I a
  | .done b => Q b

theorem gives_loopN {turn : α → Parser φ (Turn α β)} {I : α → Prop} {Q : β → Prop}
    (hturn : ∀ a, I a → (turn a).Gives (Turn.Keeps I Q)) :
    ∀ (n : Nat) {a : α}, I a → (loopN turn n a).Gives Q := by
  intro n
  induction n with
  | zero => intro a _; exact gives_giveUp
  | succ n ih =>
      intro a ha
      refine (hturn a ha).bind fun t ht => ?_
      cases t with
      | again a' => exact ih ht
      | done b => exact .pure ht

variable [Feed φ] in
/-- A loop: every turn keeps the invariant, and the last one gives the result. -/
theorem gives_loop {turn : α → Parser φ (Turn α β)} {I : α → Prop} {Q : β → Prop}
    (hturn : ∀ a, I a → (turn a).Gives (Turn.Keeps I Q)) {a : α} (ha : I a) :
    (loop turn a).Gives Q :=
  fun s => gives_loopN hturn (depth s) ha s

/-! ## Types and parameters -/

end Parser

/-- The kinds of types that are one word. -/
def TypeKind.isWord : TypeKind → Bool
  | void | int | float | string => true
  | struct | enum | typedef => false

/--
A type as the parser leaves it: a word, a name, an enumeration, or a struct with a body. Nothing is
numbered yet, and members have no initializers.
-/
inductive TypeSpec.Written : TypeSpec → Prop
  | word {kind : TypeKind} {p : Span} : kind.isWord = true → Written (.simple kind p)
  | named {name : String} {p : Span} : Written (.named name p)
  | enum {tag : Option String} {p : Span} : Written ⟨.enum, tag, none, none, p⟩
  | body {tag : Option String} {ds : List VarDecl} {p : Span} :
      (∀ d ∈ ds, d.init = none) → (∀ d ∈ ds, d.type.Written) → Written (.body tag ds p)

/-- A member or a parameter as the parser leaves it. -/
structure VarDecl.Written (d : VarDecl) : Prop where
  init : d.init = none
  type : d.type.Written

theorem VarDecl.exprsOf_eq_nil {ds : List VarDecl} (hinit : ∀ d ∈ ds, d.init = none)
    (htype : ∀ d ∈ ds, d.type.exprs = []) : VarDecl.exprsOf ds = [] := by
  induction ds with
  | nil => rfl
  | cons d ds ih =>
      obtain ⟨hd, hds⟩ := List.forall_mem_cons.mp hinit
      obtain ⟨hd', hds'⟩ := List.forall_mem_cons.mp htype
      obtain ⟨_, type, init, _, _⟩ := d
      subst hd
      have htype : type.exprs = [] := hd'
      simp [htype, ih hds hds']

namespace TypeSpec.Written

/-- No expression stands in a type. -/
theorem exprs {t : TypeSpec} (h : t.Written) : t.exprs = [] := by
  induction h with
  | word | named | enum => rfl
  | body hinit _ ih => exact VarDecl.exprsOf_eq_nil hinit ih

theorem forNext {t : TypeSpec} (h : t.Written) : t.forNext.Written := by
  unfold TypeSpec.forNext
  split
  · exact .named
  · exact h

end TypeSpec.Written

namespace Parser

variable {φ : Type} [Feed φ]

/-- The parser adds a plain declaration to the members or parameters that it has read. -/
theorem written_plain {ds : List VarDecl} {t : TypeSpec} (name : Option String) (p : Span)
    (hds : ∀ d ∈ ds, d.Written) (ht : t.Written) :
    ∀ d ∈ ds ++ [VarDecl.plain name t p], d.Written :=
  List.forall_mem_append.mpr ⟨hds, List.forall_mem_singleton.mpr ⟨rfl, ht⟩⟩

theorem gives_members {inner : Parser φ TypeSpec} (h : inner.Gives TypeSpec.Written) :
    (members inner).Gives fun ds => ∀ d ∈ ds, d.Written := by
  refine .skip fun start => h.bind fun t ht => .skip fun alone => ?_
  split
  · exact .skip fun p => .pure (List.forall_mem_singleton.mpr ⟨rfl, ht⟩)
  · refine Gives.bind (P := fun ds => ∀ d ∈ ds, d.Written) ?_ fun ds hds =>
      .skip fun _ => .pure hds
    -- from turn to turn: the type that the next member gets, and the members so far
    refine gives_loop (I := fun r => r.1.Written ∧ ∀ d ∈ r.2, d.Written) ?_ ⟨ht, by simp⟩
    rintro ⟨t, ds⟩ ⟨ht, hds⟩
    refine .skip fun field => .skip fun p => .skip fun more => .ite ?_ ?_
    · exact .pure ⟨ht.forNext, written_plain _ _ hds ht⟩
    · exact .pure (written_plain _ _ hds ht)

theorem gives_structTail {inner : Parser φ TypeSpec} (h : inner.Gives TypeSpec.Written) (start : Span) :
    (structTail inner start).Gives TypeSpec.Written := by
  refine .skip fun tag => ?_
  -- what follows the tag is the same whether the tag makes a type name or not
  extract_lets rest
  have hrest : ∀ u, (rest u).Gives TypeSpec.Written := by
    intro u
    refine .skip fun braced => .ite ?_ ?_
    · refine Gives.bind (P := fun ds => ∀ d ∈ ds, d.Written) ?_ fun ds hds =>
        .skip fun _ => .skip fun p => .pure (.body (fun d hd => (hds d hd).init)
          fun d hd => (hds d hd).type)
      refine gives_loop (I := fun ds => ∀ d ∈ ds, d.Written) (fun ds hds => .skip fun k => ?_) (by simp)
      split
      · exact .pure hds
      · exact gives_failAt
      · exact (gives_members h).bind fun more hmore =>
          .pure (List.forall_mem_append.mpr ⟨hds, hmore⟩)
    · split
      · exact .skip fun p => .pure .named
      · exact gives_unexpected
  split
  · exact .skip hrest
  · exact hrest ()

theorem gives_enumTail (start : Span) :
    (enumTail start : Parser φ TypeSpec).Gives TypeSpec.Written := by
  refine .skip fun tag => .skip fun braced => ?_
  extract_lets rest
  have hrest : ∀ u, (rest u).Gives TypeSpec.Written := fun u => .skip fun p => .pure .enum
  exact .ite (.skip fun _ => .skip hrest) (hrest ())

theorem gives_typeSpecN : ∀ n : Nat, (typeSpecN n : Parser φ TypeSpec).Gives TypeSpec.Written := by
  intro n
  induction n with
  | zero => exact gives_giveUp
  | succ n ih =>
      refine .skip fun start => ?_
      extract_lets word
      have hword : ∀ k : TypeKind, k.isWord = true → (word k).Gives TypeSpec.Written :=
        fun k hk => .skip fun _ => .pure (.word hk)
      refine .skip fun k => ?_
      split
      · exact hword .void rfl
      · exact hword .int rfl
      · exact hword .float rfl
      · exact hword .string rfl
      · exact .skip fun _ => gives_structTail ih start
      · exact .skip fun _ => gives_enumTail start
      · exact .skip fun known => .ite (.skip fun _ => .pure .named) gives_unexpected
      · exact gives_unexpected

theorem gives_typeSpec : (typeSpec : Parser φ TypeSpec).Gives TypeSpec.Written :=
  fun s => gives_typeSpecN (depth s) s

theorem gives_parameters :
    (parameters : Parser φ (List VarDecl)).Gives fun ds => ∀ d ∈ ds, d.Written := by
  refine .skip fun _ => .skip fun none => .ite (.pure (by simp)) (.skip fun lone => .ite ?_ ?_)
  · exact .skip fun _ => .skip fun _ => .pure (by simp)
  · refine Gives.bind (P := fun ds => ∀ d ∈ ds, d.Written) ?_ fun ds hds =>
      .skip fun _ => .pure hds
    refine gives_loop (I := fun ds => ∀ d ∈ ds, d.Written) (fun ds hds => ?_) (by simp)
    refine .skip fun start => gives_typeSpec.bind fun t ht => .skip fun label => .skip fun p => ?_
    have hadd := written_plain label (start.merge p) hds ht
    exact .skip fun more => .ite (.pure hadd) (.pure hadd)

end Parser

/-! ## Declarations and statements -/

/-- A declaration as the parser leaves it; one without a name has no initializer. -/
def Item.Written : Item → Prop
  | .var d => d.type.Written ∧ (d.name = none → d.init = none)
  | .func h _ => h.result.Written ∧ ∀ d ∈ h.params, d.Written
  | .stmt _ => True

theorem Item.Written.strays {i : Item} (h : i.Written) : i.strays = [] := by
  cases i with
  | var d =>
      obtain ⟨htype, hinit⟩ := h
      rw [Item.strays, htype.exprs]
      cases hname : d.name with
      | none => simp [hinit hname]
      | some name => simp
  | func head body =>
      obtain ⟨hresult, hparams⟩ := h
      rw [Item.strays, hresult.exprs, VarDecl.exprsOf_eq_nil (fun d hd => (hparams d hd).init)
        fun d hd => (hparams d hd).type.exprs]
      rfl
  | stmt x => rfl

/-- The property passes from the parts of a node to the node, for the nodes that are not statements of their own. -/
structure Node.ParseClosed (N : Node → Prop) : Prop where
  var : ∀ {d : VarDecl}, d.type.Written → (d.name = none → d.init = none) → N (.var d)
  func : ∀ {h : FuncHead} {body : Block},
    h.result.Written → (∀ d ∈ h.params, d.Written) → N (.block body) → N (.func h body)
  block : ∀ {items : List Item} {p : Span}, (∀ i ∈ items, N (.ofItem i)) → N (.block ⟨items, p⟩)
  expr : ∀ p e, N (.stmt (.expr p e))

variable {φ : Type} [Feed φ]

namespace BlockParsers

open Jaf.Parser

variable {N : Node → Prop} {inner : BlockParsers φ}

/-- What a declaration gives: declarations only, with the property. -/
def Declares (N : Node → Prop) (is : List Item) : Prop :=
  ∀ i ∈ is, N (.ofItem i) ∧ i.isDeclaration = true

theorem Declares.append {is js : List Item} (h : Declares N is) (h' : Declares N js) :
    Declares N (is ++ js) := List.forall_mem_append.mpr ⟨h, h'⟩

theorem Declares.nil : Declares N [] := fun _ hi => absurd hi List.not_mem_nil

theorem Declares.one {i : Item} (h : N (.ofItem i)) (hi : i.isDeclaration = true) : Declares N [i] :=
  List.forall_mem_singleton.mpr ⟨h, hi⟩

theorem gives_block (hN : Node.ParseClosed N) (h : inner.item.Gives fun is => ∀ i ∈ is, N (.ofItem i)) :
    inner.block.Gives fun b => N (.block b) := by
  refine .skip fun start => .skip fun _ => ?_
  refine Gives.bind (P := fun is => ∀ i ∈ is, N (.ofItem i)) ?_ fun is his =>
    .skip fun _ => .skip fun p => .pure (hN.block his)
  refine gives_loop (I := fun is => ∀ i ∈ is, N (.ofItem i)) (fun is his => .skip fun k => ?_)
    fun _ hi => absurd hi List.not_mem_nil
  split
  · exact .pure his
  · exact gives_failAt
  · exact h.bind fun more hmore => .pure (List.forall_mem_append.mpr ⟨his, hmore⟩)

theorem gives_declarators (hN : Node.ParseClosed N) (start : Span) {t : TypeSpec} (ht : t.Written)
    (first : String) : (declarators start t first : Parser φ (List Item)).Gives (Declares N) := by
  refine Gives.bind (P := Declares N) ?_ fun is his => .skip fun _ => .pure his
  -- from turn to turn: the type that the next name gets, and the items so far
  refine gives_loop (I := fun r => r.2.1.Written ∧ Declares N r.2.2) ?_ ⟨ht, .nil⟩
  rintro ⟨label, t, is⟩ ⟨ht, his⟩
  refine .skip fun initialised => ?_
  extract_lets rest
  have hrest : ∀ init, (rest init).Gives
      (Turn.Keeps (fun r => r.2.1.Written ∧ Declares N r.2.2) (Declares N)) := by
    intro init
    refine .skip fun p => .skip fun more => ?_
    have hvar : N (.ofItem (.var ⟨some label, t, init, none, start.merge p⟩)) :=
      hN.var ht fun h => by cases h
    have hadd := his.append (.one hvar rfl)
    exact .ite (.skip fun next => .pure ⟨ht.forNext, hadd⟩) (.pure hadd)
  exact .ite (.skip hrest) (.skip hrest)

theorem gives_declaration (hN : Node.ParseClosed N)
    (h : inner.item.Gives fun is => ∀ i ∈ is, N (.ofItem i)) : inner.declaration.Gives (Declares N) := by
  refine .skip fun start => gives_typeSpec.bind fun t ht => .skip fun alone => .ite ?_ ?_
  · exact .skip fun p => .pure (.one (i := .var _) (hN.var ht fun _ => rfl) rfl)
  · refine .skip fun label => .skip fun isFunction => .ite ?_ (gives_declarators hN start ht label)
    refine gives_parameters.bind fun ds hds => (gives_block hN h).bind fun body hbody => .pure ?_
    exact .one (i := .func _ _) (hN.func ht hds hbody) rfl

theorem gives_forInit (hN : Node.ParseClosed N) (h : inner.item.Gives fun is => ∀ i ∈ is, N (.ofItem i)) :
    inner.forInit.Gives fun b => N (.block b) := by
  refine .skip fun start => .skip fun typed => ?_
  extract_lets rest
  have hrest : ∀ is, (∀ i ∈ is, N (.ofItem i)) → (rest is).Gives fun b => N (.block b) :=
    fun is his => .skip fun p => .pure (hN.block his)
  refine .ite ?_ (.skip fun empty => .ite ?_ ?_)
  · exact (gives_declaration hN h).bind fun is his => hrest is fun i hi => (his i hi).1
  · exact hrest [] fun _ hi => absurd hi List.not_mem_nil
  · exact .skip fun e => .skip fun _ => hrest _ (List.forall_mem_singleton.mpr (hN.expr _ e))

theorem gives_itemLayer (hN : Node.ParseClosed N) (h : inner.item.Gives fun is => ∀ i ∈ is, N (.ofItem i))
    (hstmt : inner.stmtLayer.Gives fun x => N (.stmt x)) :
    inner.itemLayer.Gives fun is => ∀ i ∈ is, N (.ofItem i) := by
  refine .skip fun typed => .ite ?_ ?_
  · exact fun s is s' hs i hi => (gives_declaration hN h s is s' hs i hi).1
  · exact hstmt.bind fun x hx => .pure (List.forall_mem_singleton.mpr hx)

end BlockParsers

theorem Parser.gives_script {N : Node → Prop} (hN : Node.ParseClosed N)
    (h : ∀ n, (blockParsers n : BlockParsers φ).item.Gives fun is => ∀ i ∈ is, N (.ofItem i)) :
    (Parser.script : Parser φ Block).Gives fun b => N (.block b) ∧ ∀ i ∈ b.items, i.isDeclaration = true := by
  refine .skip fun start => Gives.bind (P := BlockParsers.Declares N) ?_ fun is his => .skip fun p => .pure ?_
  · refine gives_loop (I := BlockParsers.Declares N) (fun is his => ?_) .nil
    refine .skip fun atEnd => .ite (.pure his) (.skip fun typed => .ite ?_ gives_unexpected)
    refine Gives.bind (P := BlockParsers.Declares N) ?_ fun more hmore => .pure (his.append hmore)
    exact fun s => BlockParsers.gives_declaration hN (h (depth s)) s
  · exact ⟨hN.block fun i hi => (his i hi).1, fun i hi => (his i hi).2⟩

/-! ## The declarations inside of a node -/

/-- The declarations inside of a node. -/
def Node.declarations : Node → List Item
  | block b => b.declarations
  | func h body => (Item.func h body).declarations
  | var d => [.var d]
  | stmt x => x.declarations
  | _ => []

theorem Stmt.declarations_children (x : Stmt) : x.declarations = x.children.flatMap Node.declarations := by
  cases x with
  | forLoop p i e u x => cases e <;> cases u <;> simp [Stmt.children, Node.declarations, Node.ofOption]
  | returnFrom p e => cases e <;> simp [Stmt.children, Node.declarations, Node.ofOption]
  | _ => simp [Stmt.children, Node.declarations]

theorem Item.declarations_ofItem (i : Item) : (Node.ofItem i).declarations = i.declarations := by
  cases i <;> simp [Node.ofItem, Node.declarations]

/-- All declarations inside of the node are as the parser leaves them. -/
def Node.Tidy (n : Node) : Prop := ∀ i ∈ n.declarations, i.Written

theorem Node.tidy_expr {e : Expr} : (Node.expr e).Tidy := fun _ hi => absurd hi List.not_mem_nil

theorem Stmt.tidy_of_children {x : Stmt} (h : ∀ n ∈ x.children, n.Tidy) : (Node.stmt x).Tidy := by
  intro i hi
  rw [Node.declarations, declarations_children, List.mem_flatMap] at hi
  obtain ⟨n, hn, hi⟩ := hi
  exact h n hn i hi

theorem Node.parseClosed_tidy : ParseClosed Tidy where
  var ht hinit := by simpa [Tidy, declarations, Item.Written] using ⟨ht, hinit⟩
  func hresult hparams hbody := by simpa [Tidy, declarations, Item.Written, hresult] using ⟨hparams, hbody⟩
  block := by
    intro items p h j hj
    rw [declarations, Block.declarations, Item.declarationsOf_eq_flatMap, List.mem_flatMap] at hj
    obtain ⟨i, hi, hj⟩ := hj
    exact h i hi j (i.declarations_ofItem ▸ hj)
  expr p e := Stmt.tidy_of_children (List.forall_mem_singleton.mpr tidy_expr)

namespace BlockParsers

/-- All declarations in the items and the statements that the parsers give are as the parser leaves them. -/
structure Tidy (inner : BlockParsers φ) : Prop where
  item : inner.item.Gives fun is => ∀ i ∈ is, (Node.ofItem i).Tidy
  stmt : inner.stmt.Gives fun x => (Node.stmt x).Tidy

theorem gives_tail {inner : BlockParsers φ} (h : inner.Tidy) (finish : Parser φ Span) {ns : List Node}
    (t : StmtTail ns) (hns : ∀ n ∈ ns, n.Tidy) : (t.parser inner finish).Gives fun x => (Node.stmt x).Tidy := by
  induction t with
  | done make _ children =>
      refine .skip fun p => .pure (Stmt.tidy_of_children ?_)
      rw [children]
      exact hns
  | expect k next _ ih => exact .skip fun _ => ih hns
  | name next ih => exact .skip fun text => ih text hns
  | expr rule next ih => exact .skip fun e => ih e (Node.forall_mem_concat hns Node.tidy_expr)
  | option stop next ih =>
      exact .skip fun e => .skip fun _ => ih e (Node.forall_mem_option hns fun _ _ => Node.tidy_expr)
  | block next ih =>
      exact (gives_block Node.parseClosed_tidy h.item).bind fun b hb => ih b (Node.forall_mem_concat hns hb)
  | init next ih =>
      exact (gives_forInit Node.parseClosed_tidy h.item).bind fun b hb => ih b (Node.forall_mem_concat hns hb)
  | stmt next ih => exact h.stmt.bind fun x hx => ih x (Node.forall_mem_concat hns hx)
  | ifNext k yes no _ ihyes ihno => exact .skip fun more => .ite (ihyes hns) (ihno hns)

theorem gives_stmtLayer {inner : BlockParsers φ} (h : inner.Tidy) :
    inner.stmtLayer.Gives fun x => (Node.stmt x).Tidy := by
  rw [stmtLayer_eq]
  refine .skip fun start => .skip fun k => ?_
  have htail : ∀ t finish, (StmtTail.parser inner finish t).Gives fun x => (Node.stmt x).Tidy :=
    fun t finish => gives_tail h finish t fun _ hn => absurd hn List.not_mem_nil
  cases StmtStart.of k with
  | word t => exact .skip fun _ => htail t _
  | block => exact htail .compound _
  | expr => exact htail .expression _
  | name text => exact .skip fun next => .ite (.skip fun _ => .skip fun _ => htail (.label text) _) (htail .expression _)

end BlockParsers

theorem tidy_blockParsers : ∀ n : Nat, (blockParsers n : BlockParsers φ).Tidy := by
  intro n
  induction n with
  | zero => exact ⟨Parser.gives_giveUp, Parser.gives_giveUp⟩
  | succ n ih =>
      have hstmt := BlockParsers.gives_stmtLayer ih
      exact ⟨fun s => BlockParsers.gives_itemLayer Node.parseClosed_tidy ih.item hstmt s, fun s => hstmt s⟩

theorem Parser.tidy_script : (Parser.script : Parser φ Block).Gives fun b =>
    (Node.block b).Tidy ∧ ∀ i ∈ b.items, i.isDeclaration = true :=
  gives_script Node.parseClosed_tidy fun n => (tidy_blockParsers n).item

/-- What parsing promises of a script: no strays, and nothing but declarations at the top. -/
structure Block.IsScript (b : Block) : Prop where
  strays : b.strays = []
  declares : ∀ i ∈ b.items, i.isDeclaration = true

/-- A step that moves no stray and turns declarations into declarations leaves a script. -/
theorem Block.IsScript.transfer {b b' : Block} (hb : b.IsScript) (hstrays : b'.strays = b.strays)
    (hitems : b'.items.map Item.isDeclaration = b.items.map Item.isDeclaration) : b'.IsScript := by
  refine ⟨hstrays.trans hb.strays, ?_⟩
  intro i hi
  have hmem : i.isDeclaration ∈ b.items.map Item.isDeclaration := hitems ▸ List.mem_map_of_mem hi
  obtain ⟨j, hj, hij⟩ := List.mem_map.mp hmem
  rw [← hij]
  exact hb.declares j hj

theorem Parser.Gives.run {α : Type} {p : Parser φ α} {Q : α → Prop} (h : p.Gives Q) {feed : φ} {a : α}
    (ha : p.run feed = .ok a) : Q a := by
  unfold Parser.run at ha
  split at ha
  next first rest _ =>
    cases hp : p ⟨first, rest, .point 0, []⟩ with
    | error e => rw [hp] at ha; cases ha
    | ok r =>
        rw [hp] at ha
        cases ha
        exact h _ r.1 r.2 hp
  next => cases ha

/-- A reader at the start of a script that is given by its characters, which are easier to compute with. -/
def Reader.ofChars (cs : List Char) : Reader :=
  ⟨Lexeme.scanFrom cs.length 0 cs, none, ⟨.eof, .point (byteLength cs)⟩⟩

theorem Reader.ofSource_ofList (cs : List Char) : ofSource (String.ofList cs) = ofChars cs := by
  rw [ofSource, Lexeme.scan, Lexeme.last, String.toList_ofList, utf8ByteSize_ofList, ofChars]

/-- A script whose characters pass a test once they are parsed is parsed as a program that passes it. -/
theorem Block.exists_of_chars (source : String) (test : Block → Bool) {cs : List Char}
    (hsource : String.ofList cs = source)
    (h : (Parser.script.run (Reader.ofChars cs)).toOption.any test = true) :
    ∃ b, Block.parse source = .ok b ∧ test b = true := by
  rw [← hsource, Block.parse, Reader.ofSource_ofList]
  generalize Parser.script.run (Reader.ofChars cs) = r at h
  cases r with
  | error e => cases h
  | ok b => exact ⟨b, rfl, h⟩

/-- **The declarations of a parsed program are as the parser leaves them.** -/
theorem Block.written_of_parse {source : String} {b : Block} (h : Block.parse source = .ok b) :
    ∀ i ∈ b.declarations, i.Written := by
  exact (Parser.Gives.run Parser.tidy_script h).1

/-- **A parsed program is a script.** -/
theorem Block.isScript_of_parse {source : String} {b : Block} (h : Block.parse source = .ok b) :
    b.IsScript := by
  refine ⟨?_, (Parser.Gives.run Parser.tidy_script h).2⟩
  exact List.flatMap_eq_nil_iff.mpr fun i hi => (Block.written_of_parse h i hi).strays

end Jaf
