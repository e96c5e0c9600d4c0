import Jaf.Proofs.Lexer.Tiling
import Jaf.Proofs.Parser.ParsedTrees

/-!
# What the place of an expression covers

The lexemes of a script are in order, so a parser moves forward through the text. `Stream.InOrder` says that
of a stream: the token consumed last ends before the current one begins, and what is still to come lies
behind it. `Stream.Reads` says that one stream is reached from another by consuming tokens.

A parser is followed from stream to stream (`Parser.After`), with a rule for each primitive. What a parser of
the grammar builds is a row of nodes between the start of its first token and the end of its last one
(`Parser.Spans`). A node is put together from its parts by putting their rows one behind the other. This
module does so for expressions.
-/

namespace Jaf

/-! ## Lexemes in order -/

/-- Lexemes that follow one another from an offset on, in a script of length `m`. -/
inductive Lexeme.InOrder (m : Nat) : Nat → List Lexeme → Prop
  | nil {lo : Nat} : lo ≤ m → InOrder m lo []
  | cons {lo : Nat} {x : Lexeme} {xs : List Lexeme} : lo ≤ x.span.start → x.span.start < x.span.stop →
      InOrder m x.span.stop xs → InOrder m lo (x :: xs)

/-- A token with a place that may be empty at the end of file only. -/
structure Token.Proper (t : Token) : Prop where
  start_le_stop : t.span.start ≤ t.span.stop
  start_lt_stop : t.kind ≠ .eof → t.span.start < t.span.stop

/-- A reader whose lexemes follow one another from an offset on. -/
structure Reader.InOrder (m lo : Nat) (r : Reader) : Prop where
  last : r.last = ⟨.eof, .point m⟩
  pending : r.ahead = none → Lexeme.InOrder m lo r.pending
  ahead : ∀ t, r.ahead = some t → t.Proper ∧ lo ≤ t.span.start ∧ Lexeme.InOrder m t.span.stop r.pending

/-- A stream whose tokens follow one another. -/
structure Stream.InOrder (m : Nat) (s : Stream Reader) : Prop where
  previous : s.previous.start ≤ s.previous.stop
  gap : s.previous.stop ≤ s.current.span.start
  current : s.current.Proper
  feed : s.feed.InOrder m s.current.span.stop

/-- A stream in order that is reached from another one by consuming the current token and maybe more. -/
structure Stream.Reads (m : Nat) (s s' : Stream Reader) : Prop where
  inOrder : s'.InOrder m
  start : s.current.span.start ≤ s'.previous.start
  stop : s.current.span.stop ≤ s'.previous.stop

/-- The nodes have been read between the two streams, in this order. -/
structure Stream.Covers (m : Nat) (s : Stream Reader) (ns : List Node) (s' : Stream Reader) : Prop where
  reads : s.Reads m s'
  row : Node.Row s.current.span.start s'.previous.stop ns

variable {m lo hi : Nat}

theorem byteLength_pos {cs : List Char} (h : cs ≠ []) : 0 < byteLength cs := by
  obtain ⟨c, cs, rfl⟩ := List.exists_cons_of_ne_nil h
  have hpos := c.utf8Size_pos
  rw [byteLength]
  omega

/-- The lexemes that tile a text are in order. -/
theorem Tiles.inOrder {source : String} {before cs : List Char} {xs : List Lexeme} (h : Tiles before cs xs)
    (hsource : source.toList = before ++ cs) :
    Lexeme.InOrder source.utf8ByteSize (byteLength before) xs := by
  induction h with
  | @done before gap _ =>
      have hsize : source.utf8ByteSize = byteLength (before ++ gap) := by
        rw [← hsource, byteLength_toList]
      rw [byteLength_append] at hsize
      exact .nil (by omega)
  | @next before gap text rest x xs _ hne _ hspan _ ih =>
      have hpos := byteLength_pos hne
      have hstart : x.span.start = byteLength before + byteLength gap := by
        rw [hspan, ← byteLength_append]
      have hstop : x.span.stop = byteLength before + byteLength gap + byteLength text := by
        rw [hspan, ← byteLength_append, ← byteLength_append]
      have hrest := ih (by rw [hsource]; simp)
      rw [byteLength_append, byteLength_append, ← hstop] at hrest
      exact .cons (by omega) (by omega) hrest

theorem Lexeme.InOrder.le {xs : List Lexeme} (h : Lexeme.InOrder m lo xs) : lo ≤ m := by
  induction h with
  | nil h => exact h
  | cons hstart hstop _ ih => omega

namespace Reader.InOrder

variable {r r' : Reader} {t : Token}

/-- The next token lies behind the offset, and all that follows lies behind the token. -/
theorem next (h : r.InOrder m lo) (hnext : r.next = (.ok t, r')) :
    t.Proper ∧ lo ≤ t.span.start ∧ r'.InOrder m t.span.stop ∧ r'.ahead = none := by
  obtain ⟨pending, ahead, last⟩ := r
  cases ahead with
  | some u =>
      cases hnext
      obtain ⟨hproper, hstart, hpending⟩ := h.ahead _ rfl
      exact ⟨hproper, hstart, ⟨h.last, fun _ => hpending, fun _ ht => by cases ht⟩, rfl⟩
  | none =>
      have hpending := h.pending rfl
      have hlast : last = ⟨.eof, .point m⟩ := h.last
      cases hpending with
      | nil hle =>
          cases hnext
          rw [hlast]
          exact ⟨⟨Nat.le_refl m, fun hne => absurd rfl hne⟩, hle,
            ⟨rfl, fun _ => .nil (Nat.le_refl m), fun _ ht => by cases ht⟩, rfl⟩
      | cons hstart hstop hrest =>
          cases hnext
          exact ⟨⟨Nat.le_of_lt hstop, fun _ => hstop⟩, hstart,
            ⟨hlast, fun _ => hrest, fun _ ht => by cases ht⟩, rfl⟩

/-- Looking ahead does not disturb the order. -/
theorem peek (h : r.InOrder m lo) (hpeek : r.peek = (.ok t, r')) : r'.InOrder m lo := by
  unfold Reader.peek at hpeek
  cases hnext : r.next with
  | mk x r'' =>
      rw [hnext] at hpeek
      cases x with
      | error b => cases hpeek
      | ok u =>
          cases hpeek
          obtain ⟨hproper, hstart, hrest, hahead⟩ := h.next hnext
          refine ⟨hrest.last, fun hnone => ?_, fun u hu => ?_⟩
          · cases hnone
          · cases hu
            exact ⟨hproper, hstart, hrest.pending hahead⟩

theorem le (h : r.InOrder m lo) : lo ≤ m := by
  cases hahead : r.ahead with
  | none => exact (h.pending hahead).le
  | some t =>
      obtain ⟨hproper, hstart, hpending⟩ := h.ahead t hahead
      have hstop := hproper.start_le_stop
      have hle := hpending.le
      omega

end Reader.InOrder

theorem Reader.inOrder_ofSource (source : String) :
    (Reader.ofSource source).InOrder source.utf8ByteSize 0 where
  last := rfl
  pending _ := (Lexeme.scanFrom_tiles (Nat.le_refl _) : Tiles [] source.toList _).inOrder rfl
  ahead _ ht := by cases ht

namespace Stream

variable {s s' s'' : Stream Reader} {ns ns' : List Node}

/-- The offsets of a stream in order. -/
theorem InOrder.offsets (h : s.InOrder m) : s.previous.start ≤ s.previous.stop ∧
    s.previous.stop ≤ s.current.span.start ∧ s.current.span.start ≤ s.current.span.stop ∧
      s.current.span.stop ≤ m :=
  ⟨h.previous, h.gap, h.current.start_le_stop, h.feed.le⟩

theorem Reads.offsets (h : s.Reads m s') :
    s.current.span.start ≤ s'.previous.start ∧ s.current.span.stop ≤ s'.previous.stop ∧
      s'.previous.start ≤ s'.previous.stop ∧ s'.previous.stop ≤ s'.current.span.start ∧
      s'.current.span.start ≤ s'.current.span.stop ∧ s'.current.span.stop ≤ m :=
  ⟨h.start, h.stop, h.inOrder.offsets⟩

theorem Reads.trans (h : s.Reads m s') (h' : s'.Reads m s'') : s.Reads m s'' := by
  have hfirst := h.offsets
  have hsecond := h'.offsets
  exact ⟨h'.inOrder, by omega, by omega⟩

/-- The place from a token to the one consumed last. -/
theorem Reads.merge_eq (h : s.Reads m s') :
    s.current.span.merge s'.previous = ⟨s.current.span.start, s'.previous.stop⟩ :=
  Span.merge_eq h.start h.stop

/-! Rows of nodes that have been read. -/

theorem Reads.covers (h : s.Reads m s') : s.Covers m [] s' := ⟨h, .nil⟩

/-- Tokens that belong to no node may follow. -/
theorem Covers.read (h : s.Covers m ns s') (h' : s'.Reads m s'') : s.Covers m ns s'' := by
  have hfirst := h.reads.offsets
  have hsecond := h'.offsets
  exact ⟨h.reads.trans h', h.row.widen (Nat.le_refl _) (by omega)⟩

theorem Covers.append (h : s.Covers m ns s') (h' : s'.Covers m ns' s'') : s.Covers m (ns ++ ns') s'' := by
  have hfirst := h.reads.offsets
  have hsecond := h'.reads.offsets
  exact ⟨h.reads.trans h'.reads, h.row.append h'.row (by omega) (by omega) (by omega)⟩

/-- Tokens that belong to no node may stand before. -/
theorem Reads.then (h : s.Reads m s') (h' : s'.Covers m ns s'') : s.Covers m ns s'' :=
  h.covers.append h'

theorem Covers.of_current (h : s'.Covers m ns s'') (hcurrent : s'.current = s.current) :
    s.Covers m ns s'' := by
  obtain ⟨⟨hinOrder, hstart, hstop⟩, hrow⟩ := h
  rw [hcurrent] at hstart hstop hrow
  exact ⟨⟨hinOrder, hstart, hstop⟩, hrow⟩

/-- A node whose children are all that has been read since its start. -/
theorem Covers.node {n : Node} (h : s.Covers m n.children s')
    (hspan : n.span = ⟨s.current.span.start, s'.previous.stop⟩) : s.Covers m [n] s' := by
  have hoffsets := h.reads.offsets
  exact ⟨h.reads, .node_at hspan h.row (by omega) (Nat.le_refl _) (Nat.le_refl _)⟩

end Stream

/-! ## Following a parser -/

namespace Parser

variable {α β : Type} {s : Stream Reader} {Q : β → Stream Reader → Prop}

/-- If the parser succeeds from the given stream, then with this property of what it gives and leaves. -/
def After (p : Parser Reader α) (s : Stream Reader) (Q : α → Stream Reader → Prop) : Prop :=
  ∀ a s', p s = .ok (a, s') → Q a s'

/-- The parser builds a row of nodes between the start of its first token and the end of its last one. -/
def Spans (m : Nat) (p : Parser Reader α) (row : α → List Node) : Prop :=
  ∀ s, s.InOrder m → p.After s fun a s' => s.Covers m (row a) s'

theorem After.pure {b : β} (h : Q b s) : (Pure.pure b : Parser Reader β).After s Q := by
  intro a s' ha
  cases ha
  exact h

theorem After.ite {c : Prop} [Decidable c] {p q : Parser Reader β} (hp : c → p.After s Q)
    (hq : ¬c → q.After s Q) : After (if c then p else q) s Q := by
  split
  next hc => exact hp hc
  next hc => exact hq hc

theorem After.mono {P : β → Stream Reader → Prop} {p : Parser Reader β} (h : p.After s P)
    (hPQ : ∀ b s', P b s' → Q b s') : p.After s Q :=
  fun b s' hb => hPQ b s' (h b s' hb)

theorem After.bind {p : Parser Reader α} {f : α → Parser Reader β} {P : α → Stream Reader → Prop}
    (hp : p.After s P) (hf : ∀ a t, P a t → (f a).After t Q) : After (p >>= f) s Q := by
  intro b s' hb
  obtain ⟨a, t, ha, hb⟩ := bind_eq_ok hb
  exact hf a t (hp a t ha) b s' hb

/-! The primitives that leave the stream as it is. -/

theorem After.kind {f : Token.Kind → Parser Reader β} (hf : (f s.current.kind).After s Q) :
    After (Parser.kind >>= f) s Q := hf

theorem After.span {f : Span → Parser Reader β} (hf : (f s.current.span).After s Q) :
    After (Parser.span >>= f) s Q := hf

theorem After.previous {f : Span → Parser Reader β} (hf : (f s.previous).After s Q) :
    After (Parser.previous >>= f) s Q := hf

theorem After.at? {k : Token.Kind} {f : Bool → Parser Reader β} (hf : ∀ b, (f b).After s Q) :
    After (Parser.at? k >>= f) s Q := hf _

theorem After.isTypeName {text : String} {f : Bool → Parser Reader β} (hf : ∀ b, (f b).After s Q) :
    After (Parser.isTypeName text >>= f) s Q := hf _

theorem After.startsType {f : Bool → Parser Reader β} (hf : ∀ b, (f b).After s Q) :
    After (Parser.startsType >>= f) s Q := by
  refine After.bind (P := fun _ t => t = s) ?_ fun b t ht => ht ▸ hf b
  intro b t hb
  unfold Parser.startsType at hb
  obtain ⟨k, u, hk, hb⟩ := bind_eq_ok hb
  cases hk
  revert hb
  cases s.current.kind <;> intro hb <;> cases hb <;> rfl

theorem after_failAt {p : Span} {c : SyntaxCause} : (failAt p c : Parser Reader β).After s Q :=
  fun _ _ h => nomatch h

theorem after_unexpected {what : Expected} : (unexpected what : Parser Reader β).After s Q :=
  fun _ _ h => nomatch h

theorem after_giveUp : (giveUp : Parser Reader β).After s Q := fun _ _ h => nomatch h

/-! The primitives that look further or move on. -/

theorem after_advance (hs : s.InOrder m) :
    (advance : Parser Reader Unit).After s fun _ t => s.Reads m t ∧ t.previous = s.current.span := by
  intro a t h
  unfold Parser.advance at h
  split at h
  next u r hnext =>
    cases h
    obtain ⟨hproper, hstart, hrest, _⟩ := hs.feed.next hnext
    exact ⟨⟨⟨hs.current.start_le_stop, hstart, hproper, hrest⟩, Nat.le_refl _, Nat.le_refl _⟩, rfl⟩
  next => cases h

theorem After.advance {f : Unit → Parser Reader β} (hs : s.InOrder m)
    (hf : ∀ t, s.Reads m t → t.previous = s.current.span → (f ()).After t Q) :
    After (Parser.advance >>= f) s Q :=
  (after_advance hs).bind fun _ t ht => hf t ht.1 ht.2

theorem After.lookahead {f : Token.Kind → Parser Reader β} (hs : s.InOrder m)
    (hf : ∀ k t, t.InOrder m → t.current = s.current → t.previous = s.previous → (f k).After t Q) :
    After (Parser.lookahead >>= f) s Q := by
  refine After.bind (P := fun _ t => t.InOrder m ∧ t.current = s.current ∧ t.previous = s.previous) ?_
    fun k t ht => hf k t ht.1 ht.2.1 ht.2.2
  intro k t h
  unfold Parser.lookahead at h
  split at h
  next u r hpeek =>
    cases h
    exact ⟨⟨hs.previous, hs.gap, hs.current, hs.feed.peek hpeek⟩, rfl, rfl⟩
  next => cases h

theorem After.addTypeName {text : String} {f : Unit → Parser Reader β} (hs : s.InOrder m)
    (hf : ∀ t, t.InOrder m → t.current = s.current → t.previous = s.previous → (f ()).After t Q) :
    After (Parser.addTypeName text >>= f) s Q :=
  hf _ ⟨hs.previous, hs.gap, hs.current, hs.feed⟩ rfl rfl

theorem after_accept {k : Token.Kind} (hs : s.InOrder m) : (accept k : Parser Reader Bool).After s
    fun b t => b = true ∧ s.Reads m t ∨ b = false ∧ t = s := by
  refine .kind (.ite (fun _ => ?_) fun _ => .pure (.inr ⟨rfl, rfl⟩))
  exact .advance hs fun t ht _ => .pure (.inl ⟨rfl, ht⟩)

theorem After.accept {k : Token.Kind} {f : Bool → Parser Reader β} (hs : s.InOrder m)
    (htrue : ∀ t, s.Reads m t → (f true).After t Q) (hfalse : (f false).After s Q) :
    After (Parser.accept k >>= f) s Q := by
  refine (after_accept hs).bind fun b t h => ?_
  rcases h with ⟨rfl, ht⟩ | ⟨rfl, rfl⟩
  · exact htrue t ht
  · exact hfalse

theorem After.expect {k : Token.Kind} {f : Unit → Parser Reader β} (hs : s.InOrder m)
    (hf : ∀ t, s.Reads m t → (f ()).After t Q) : After (Parser.expect k >>= f) s Q := by
  refine After.bind (P := fun _ t => s.Reads m t) ?_ fun _ t ht => hf t ht
  exact .kind (.ite (fun _ => (after_advance hs).mono fun _ t ht => ht.1) fun _ => after_unexpected)

theorem after_name? (hs : s.InOrder m) : (name? : Parser Reader (Option String)).After s fun tag t =>
    (∃ text, tag = some text ∧ s.Reads m t ∧ s.current.span.start < s.current.span.stop) ∨
      tag = none ∧ t = s := by
  refine .kind ?_
  split
  next text hkind =>
    have hproper := hs.current.start_lt_stop (by rw [hkind]; exact Token.Kind.noConfusion)
    exact .advance hs fun t ht _ => .pure (.inl ⟨text, rfl, ht, hproper⟩)
  next => exact .pure (.inr ⟨rfl, rfl⟩)

theorem After.name {f : String → Parser Reader β} (hs : s.InOrder m)
    (hf : ∀ text t, s.Reads m t → s.current.span.start < s.current.span.stop → (f text).After t Q) :
    After (Parser.name >>= f) s Q := by
  refine After.bind (P := fun _ t => s.Reads m t ∧ s.current.span.start < s.current.span.stop) ?_
    fun text t h => hf text t h.1 h.2
  refine (after_name? hs).bind fun tag t h => ?_
  rcases h with ⟨text, rfl, h⟩ | ⟨rfl, rfl⟩
  · exact .pure h
  · exact after_unexpected

theorem after_loopN {turn : α → Parser Reader (Turn α β)} {I : α → Stream Reader → Prop}
    (hturn : ∀ a t, I a t → (turn a).After t fun r t => Turn.Keeps (I · t) (Q · t) r) :
    ∀ (n : Nat) {a : α} {s : Stream Reader}, I a s → (loopN turn n a).After s Q := by
  intro n
  induction n with
  | zero => intro a s _; exact after_giveUp
  | succ n ih =>
      intro a s ha
      refine (hturn a s ha).bind fun r t hr => ?_
      cases r with
      | again a' => exact ih hr
      | done b => exact .pure hr

/-- A loop: every turn keeps the invariant, and the last one gives the result. -/
theorem after_loop {turn : α → Parser Reader (Turn α β)} {I : α → Stream Reader → Prop}
    (hturn : ∀ a t, I a t → (turn a).After t fun r t => Turn.Keeps (I · t) (Q · t) r) {a : α}
    (ha : I a s) : (loop turn a).After s Q :=
  after_loopN hturn (depth s) ha

theorem Spans.atDepth {p : Nat → Parser Reader α} {row : α → List Node} (h : ∀ n, (p n).Spans m row) :
    Spans m (fun s => p (depth s) s) row :=
  fun s hs => h (depth s) s hs

end Parser

/-! ## Expressions -/

namespace Node.Row

variable {e : Expr}

/-- Where the only expression of a row lies. -/
theorem expr_bounds (h : Row lo hi [.expr e]) :
    lo ≤ e.span.start ∧ e.span.start ≤ e.span.stop ∧ e.span.stop ≤ hi := h.bounds

/-- Where the first and the last expression of a row lie. -/
theorem ends {l r : Expr} {ns : List Node} (h : Row lo hi (.expr l :: (ns ++ [.expr r]))) :
    lo ≤ l.span.start ∧ l.span.start ≤ l.span.stop ∧ l.span.stop ≤ r.span.start ∧
      r.span.start ≤ r.span.stop ∧ r.span.stop ≤ hi := by
  have hmem : Node.expr r ∈ ns ++ [.expr r] := List.mem_append_right ns (List.mem_singleton.mpr rfl)
  have hl := (h.nested (.expr l) List.mem_cons_self).start_le_stop
  have hr := (h.nested (.expr r) (List.mem_cons_of_mem _ hmem)).start_le_stop
  refine ⟨(h.within (.expr l) List.mem_cons_self).1, hl, ?_, hr,
    (h.within (.expr r) (List.mem_cons_of_mem _ hmem)).2⟩
  cases (List.pairwise_cons.mp h.order).1 (.expr r) hmem with
  | apart hle => exact hle

theorem expr_tight (h : Row lo hi [.expr e]) : Row e.span.start e.span.stop [.expr e] := h.tight

/-- An expression may be moved to a place around it. -/
theorem moveTo {a b : Nat} (h : Row a b [.expr e]) (hab : a ≤ b) (hlo : lo ≤ a) (hhi : b ≤ hi) :
    Row lo hi [.expr (e.moveTo ⟨a, b⟩)] := by
  obtain ⟨hstart, _, hstop⟩ := h.expr_bounds
  have hchildren : (e.moveTo ⟨a, b⟩).children = e.children := by cases e <;> rfl
  refine node_at (Expr.span_moveTo ⟨a, b⟩ e) ?_ hab hlo hhi
  show Row a b (e.moveTo ⟨a, b⟩).children
  rw [hchildren]
  exact h.head_nested.row.widen hstart hstop

end Node.Row

namespace ExprParsers

open Jaf.Parser

/-- The parsers that the layers of the grammar come back to build rows of one expression. -/
structure BuildRows (m : Nat) (inner : ExprParsers Reader) : Prop where
  expression : inner.expression.Spans m fun e => [.expr e]
  assignment : inner.assignment.Spans m fun e => [.expr e]
  conditional : inner.conditional.Spans m fun e => [.expr e]
  binary : ∀ least, (inner.binary least).Spans m fun e => [.expr e]
  unary : inner.unary.Spans m fun e => [.expr e]

variable {inner : ExprParsers Reader} {s : Stream Reader}

theorem after_literal {p : Span} {make : Note → Except SyntaxCause Expr} {Q : Expr → Stream Reader → Prop}
    (h : ∀ e, make (.ofSpan p) = .ok e → Q e s) : (literal p make : Parser Reader Expr).After s Q := by
  unfold literal
  split
  next e he => exact .pure (h e he)
  next => exact after_failAt

theorem after_numeric {α : Type} {p : Span} {cause : SyntaxCause} {make : Note → α → Expr}
    {value : Option α} {Q : Expr → Stream Reader → Prop} (h : ∀ v, Q (make (.ofSpan p) v) s) :
    (literal p (numeric cause make value) : Parser Reader Expr).After s Q := by
  refine after_literal fun e he => ?_
  cases value with
  | none => cases he
  | some v =>
      cases he
      exact h v

/-- An expression that is the current token alone. -/
theorem covers_token {t : Stream Reader} (hs : s.InOrder m) (ht : s.Reads m t) {e : Expr}
    (hspan : e.span = s.current.span) (hchildren : e.children = []) : s.Covers m [.expr e] t := by
  refine ⟨ht, .node_at hspan ?_ hs.current.start_le_stop (Nat.le_refl _) ht.stop⟩
  show Node.Row _ _ e.children
  rw [hchildren]
  exact .nil

/-- The arguments of a call that began at the stream `s₀`. -/
theorem after_arguments (h : inner.BuildRows m) {s₀ : Stream Reader} (hs : s₀.Reads m s) :
    inner.arguments.After s fun es t => s₀.Covers m (es.map .expr) t := by
  refine .accept hs.inOrder (fun t ht => .pure (hs.trans ht).covers) ?_
  refine After.bind (P := fun es t => s₀.Covers m (es.map .expr) t) ?_ fun es t hes =>
    .expect hes.reads.inOrder fun u hu => .pure (hes.read hu)
  refine after_loop (I := fun es t => s₀.Covers m (es.map .expr) t) (fun es t hes => ?_) hs.covers
  refine (h.assignment t hes.reads.inOrder).bind fun e u he => ?_
  have hadd : s₀.Covers m ((es ++ [e]).map .expr) u := by
    rw [List.map_append]
    exact hes.append he
  exact .accept he.reads.inOrder (fun v hv => .pure (hadd.read hv)) (.pure hadd)

theorem spans_primary (h : inner.BuildRows m) : inner.primary.Spans m fun e => [.expr e] := by
  intro s hs
  refine .span (.kind ?_)
  split
  -- numbers and strings
  · exact .advance hs fun t ht _ => after_numeric fun v => covers_token hs ht rfl rfl
  · exact .advance hs fun t ht _ => after_numeric fun v => covers_token hs ht rfl rfl
  · exact .advance hs fun t ht _ => after_numeric fun v => covers_token hs ht rfl rfl
  next text _ =>
    refine .advance hs fun t ht _ => after_literal fun e he => ?_
    cases hv : stringLiteral text with
    | error c => rw [hv] at he; cases he
    | ok v =>
        rw [hv] at he
        cases he
        exact covers_token hs ht rfl rfl
  -- names and calls
  · refine .advance hs fun t ht _ => .accept ht.inOrder (fun u hu => ?_) ?_
    · refine (after_arguments h (ht.trans hu)).bind fun es v hes => .previous (.pure ?_)
      exact hes.node hes.reads.merge_eq
    · exact .pure (covers_token hs ht rfl rfl)
  -- parentheses
  · refine .advance hs fun t ht _ => (h.expression t ht.inOrder).bind fun e u he =>
      .expect he.reads.inOrder fun v hv => .previous (.pure ?_)
    have hcovers := (ht.then he).read hv
    have hoffsets := hcovers.reads.offsets
    rw [hcovers.reads.merge_eq]
    exact ⟨hcovers.reads, hcovers.row.moveTo (by omega) (Nat.le_refl _) (Nat.le_refl _)⟩
  · exact after_unexpected

/-- An expression with something behind it. -/
theorem covers_suffix {t u : Stream Reader} {e n : Expr} (he : s.Covers m [.expr e] t) (hu : t.Reads m u)
    (hspan : n.span = e.span.merge u.previous) (hchildren : n.children = [.expr e]) :
    s.Covers m [.expr n] u := by
  have ht := he.reads.offsets
  have hu' := hu.offsets
  have he' := he.row.expr_bounds
  rw [Span.merge_eq (by omega) (by omega)] at hspan
  refine ⟨he.reads.trans hu, .node_at hspan ?_ (by omega) (by omega) (Nat.le_refl _)⟩
  show Node.Row _ _ n.children
  rw [hchildren]
  exact he.row.expr_tight.widen (Nat.le_refl _) (by omega)

theorem spans_suffixes {t : Stream Reader} {e : Expr} (he : s.Covers m [.expr e] t) :
    (suffixes e : Parser Reader Expr).After t fun e u => s.Covers m [.expr e] u := by
  refine after_loop (I := fun e u => s.Covers m [.expr e] u) (fun e t he => .kind ?_) he
  split
  · exact .advance he.reads.inOrder fun u hu _ => .name hu.inOrder fun field v hv _ =>
      .previous (.pure (covers_suffix he (hu.trans hv) rfl rfl))
  · exact .advance he.reads.inOrder fun u hu _ => .previous (.pure (covers_suffix he hu rfl rfl))
  · exact .advance he.reads.inOrder fun u hu _ => .previous (.pure (covers_suffix he hu rfl rfl))
  · exact .span after_failAt
  · exact .pure he

/-- An expression with something in front of it. -/
theorem covers_opener {t u : Stream Reader} {e n : Expr} (hs : s.InOrder m) (ht : s.Reads m t)
    (he : t.Covers m [.expr e] u) (hspan : n.span = s.current.span.merge e.span)
    (hchildren : n.children = [.expr e]) : s.Covers m [.expr n] u := by
  have hs' := hs.offsets
  have ht' := ht.offsets
  have hu' := he.reads.offsets
  have he' := he.row.expr_bounds
  rw [Span.merge_eq (by omega) (by omega)] at hspan
  refine ⟨ht.trans he.reads, .node_at hspan ?_ (by omega) (Nat.le_refl _) (by omega)⟩
  show Node.Row _ _ n.children
  rw [hchildren]
  exact he.row.expr_tight.widen (by omega) (Nat.le_refl _)

theorem after_operand (h : inner.BuildRows m) {t : Stream Reader} (hs : s.InOrder m) (ht : s.Reads m t)
    (op : UnaryOp) : (inner.operand s.current.span op).After t fun e u => s.Covers m [.expr e] u := by
  refine .span (.kind (.ite (fun _ => ?_) fun _ => ?_))
  · refine .advance ht.inOrder fun u hu _ => .pure ⟨ht.trans hu, ?_⟩
    have hs' := hs.offsets
    have ht' := ht.offsets
    have hu' := hu.offsets
    have hspan := Span.merge_eq (a := s.current.span) (b := t.current.span) (by omega) (by omega)
    exact .node_at hspan .nil (by omega) (Nat.le_refl _) (by omega)
  · exact (h.unary t ht.inOrder).bind fun e u he => .pure (covers_opener hs ht he rfl rfl)

theorem after_castTail (h : inner.BuildRows m) {t : Stream Reader} (hs : s.InOrder m) (ht : s.Reads m t)
    (target : TypeKind) :
    (inner.castTail s.current.span target).After t fun e u => s.Covers m [.expr e] u :=
  .advance ht.inOrder fun _ hu _ => .expect hu.inOrder fun v hv => (h.unary v hv.inOrder).bind
    fun _ _ he => .pure (covers_opener hs ((ht.trans hu).trans hv) he rfl rfl)

theorem spans_unaryLayer (h : inner.BuildRows m) : inner.unaryLayer.Spans m fun e => [.expr e] := by
  have hprimary : (inner.primary >>= suffixes).Spans m fun e => [.expr e] := fun s hs =>
    (spans_primary h s hs).bind fun e t he => spans_suffixes he
  intro s hs
  refine .span (.kind ?_)
  split
  · exact .advance hs fun t ht _ => (h.unary t ht.inOrder).mono fun e u he => ht.then he
  · refine .lookahead hs fun k t ht hcurrent _ => ?_
    split
    · refine .advance ht fun u hu _ => ?_
      rw [← hcurrent]
      exact (after_castTail h ht hu _).mono fun e v he => he.of_current hcurrent
    · exact (hprimary t ht).mono fun e u he => he.of_current hcurrent
  · split
    · exact .advance hs fun t ht _ => after_operand h hs ht _
    · exact hprimary s hs

/-- Expressions one behind the other, joined from the first to the last. -/
theorem covers_join {t : Stream Reader} {l r n : Expr} (ns : List Node)
    (h : s.Covers m (.expr l :: (ns ++ [.expr r])) t) (hspan : n.span = l.span.merge r.span)
    (hchildren : n.children = .expr l :: (ns ++ [.expr r])) : s.Covers m [.expr n] t := by
  have hfrom : Node.Row l.span.start t.previous.stop ((.expr l :: ns) ++ [.expr r]) := h.row.from_head
  have hrow : Node.Row l.span.start r.span.stop ((.expr l :: ns) ++ [.expr r]) := hfrom.to_last (n := .expr r)
  obtain ⟨hlo, hl, hlr, hr, hhi⟩ := h.row.ends
  rw [Span.merge_eq (by omega) (by omega)] at hspan
  refine ⟨h.reads, .node_at hspan ?_ (by omega) (by omega) (by omega)⟩
  show Node.Row _ _ n.children
  rw [hchildren]
  exact hrow

theorem spans_binaryLayer (h : inner.BuildRows m) (least : Nat) :
    (inner.binaryLayer least).Spans m fun e => [.expr e] := by
  intro s hs
  refine (spans_unaryLayer h s hs).bind fun first t hfirst => ?_
  refine after_loop (I := fun e u => s.Covers m [.expr e] u) (fun left t hleft => .kind ?_) hfirst
  split
  · refine .ite (fun _ => .pure hleft) fun _ => .advance hleft.reads.inOrder fun u hu _ => ?_
    refine (h.binary _ u hu.inOrder).bind fun right v hright => .pure ?_
    exact covers_join [] (hleft.append (hu.then hright)) rfl rfl
  · exact .pure hleft

theorem spans_conditionalLayer (h : inner.BuildRows m) :
    inner.conditionalLayer.Spans m fun e => [.expr e] := by
  intro s hs
  refine (spans_binaryLayer h 1 s hs).bind fun c t hc => ?_
  refine .accept hc.reads.inOrder (fun u hu => ?_) (.pure hc)
  refine (h.expression u hu.inOrder).bind fun yes v hyes => .expect hyes.reads.inOrder fun w hw => ?_
  refine (h.conditional w hw.inOrder).bind fun no x hno => .pure ?_
  exact covers_join [.expr yes] ((hc.append (hu.then hyes)).append (hw.then hno)) rfl rfl

theorem spans_assignmentLayer (h : inner.BuildRows m) :
    inner.assignmentLayer.Spans m fun e => [.expr e] := by
  intro s hs
  refine (spans_conditionalLayer h s hs).bind fun target t htarget => .kind ?_
  split
  · refine .advance htarget.reads.inOrder fun u hu _ => ?_
    refine (h.assignment u hu.inOrder).bind fun value v hvalue => .pure ?_
    exact covers_join [] (htarget.append (hu.then hvalue)) rfl rfl
  · exact .pure htarget

theorem spans_expressionLayer (h : inner.BuildRows m) :
    inner.expressionLayer.Spans m fun e => [.expr e] := by
  intro s hs
  refine (spans_assignmentLayer h s hs).bind fun first t hfirst => .at? fun _ =>
    .ite (fun _ => ?_) fun _ => .pure hfirst
  -- the list starts where its first item does
  refine After.bind (P := fun es u => ∃ rest, es = first :: rest ∧ s.Covers m (es.map .expr) u) ?_ ?_
  · refine after_loop (I := fun es u => ∃ rest, es = first :: rest ∧ s.Covers m (es.map .expr) u) ?_
      ⟨[], rfl, hfirst⟩
    rintro es u ⟨rest, rfl, hes⟩
    refine .accept hes.reads.inOrder (fun v hv => ?_) (.pure ⟨rest, rfl, hes⟩)
    refine (h.assignment v hv.inOrder).bind fun e w he => .pure ⟨rest ++ [e], rfl, ?_⟩
    rw [List.map_append]
    exact hes.append (hv.then he)
  · rintro es u ⟨rest, rfl, hes⟩
    refine .previous (.pure ⟨hes.reads, ?_⟩)
    have hoffsets := hes.reads.offsets
    have hrow : Node.Row first.span.start u.previous.stop ((first :: rest).map .expr) := hes.row.from_head
    have hbounds := hfirst.row.expr_bounds
    have hfirst : first.span.stop ≤ u.previous.stop := (hes.row.within (.expr first) List.mem_cons_self).2
    refine .node_at rfl (hrow.widen (Nat.min_le_left _ _) (Nat.le_max_right _ _)) ?_ ?_ ?_
    · omega
    · omega
    · omega

end ExprParsers

theorem buildRows_exprParsers : ∀ n : Nat, (exprParsers n : ExprParsers Reader).BuildRows m := by
  intro n
  induction n with
  | zero =>
      exact ⟨fun _ _ => Parser.after_giveUp, fun _ _ => Parser.after_giveUp, fun _ _ => Parser.after_giveUp,
        fun _ _ _ => Parser.after_giveUp, fun _ _ => Parser.after_giveUp⟩
  | succ n ih =>
      exact ⟨ExprParsers.spans_expressionLayer ih, ExprParsers.spans_assignmentLayer ih,
        ExprParsers.spans_conditionalLayer ih, ExprParsers.spans_binaryLayer ih,
        ExprParsers.spans_unaryLayer ih⟩

namespace Parser

theorem spans_expression : (expression : Parser Reader Expr).Spans m fun e => [.expr e] :=
  .atDepth fun n => (buildRows_exprParsers n).expression

theorem spans_assignment : (assignment : Parser Reader Expr).Spans m fun e => [.expr e] :=
  .atDepth fun n => (buildRows_exprParsers n).assignment

theorem spans_conditional : (conditional : Parser Reader Expr).Spans m fun e => [.expr e] :=
  .atDepth fun n => (buildRows_exprParsers n).conditional

theorem spans_condition : (condition : Parser Reader Expr).Spans m fun e => [.expr e] := fun _ hs =>
  .expect hs fun t ht => (spans_expression t ht.inOrder).bind fun _ _ he =>
    .expect he.reads.inOrder fun _ hv => .pure ((ht.then he).read hv)

end Parser

end Jaf
