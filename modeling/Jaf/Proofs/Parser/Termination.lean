import Jaf.Proofs.Parser.Progress
import Jaf.Proofs.Parser.TokenFeed

/-!
# Parsing stops

A parser that goes on without consuming tokens would go on for ever once it has come to the end of file, since
the end of file is handed out again and again. No parser of the grammar does. Every one of them consumes a
token when it succeeds and none goes past the end of file, so the depth of the recursion and the number of
turns of every loop are at most the number of tokens left, and one more.

To say that nothing past the end of file is consumed or looked at, parsers are also run from a tape. It holds
the lexemes of a reader up to the end of file, and what comes after that may be any token or any bad text.
On a tape loops are bounded by the tokens left exactly. A parser does the same on a tape as with the reader
(`Rule.parser_taped`), whatever comes after the end of file.
-/

namespace Jaf

/-! ## Readers that come to an end -/

namespace Reader

/-- Of the tokens of a reader, only the last is the end of file. -/
structure Ending (r : Reader) : Prop where
  last : r.last.kind = .eof
  pending : ∀ t, .ok t ∈ r.pending → t.kind ≠ .eof
  ahead : ∀ t, r.ahead = some t → t.kind = .eof → t = r.last

theorem ending_ofSource (source : String) : (ofSource source).Ending where
  last := rfl
  pending _ ht := Lexeme.scanFrom_ne_eof _ _ _ ht
  ahead _ ht := by cases ht

/-- The lexemes that a reader will hand out, the end of file once and at the end. -/
def shown (r : Reader) : List Lexeme :=
  match r.ahead with
  | some t => if t = r.last then [.ok t] else .ok t :: (r.pending ++ [.ok r.last])
  | none => r.pending ++ [.ok r.last]

theorem length_shown (r : Reader) : r.shown.length = r.left := by
  obtain ⟨pending, ahead, last⟩ := r
  cases ahead with
  | none => simp [shown, left]
  | some t =>
      by_cases ht : t = last
      · simp [shown, left, ht]
      · simp [shown, left, ht]

theorem left_pos (r : Reader) : 0 < r.left := by
  unfold left
  split
  · split <;> omega
  · omega

theorem left_lt_of_shown {r r' : Reader} {x : Lexeme} (h : r.shown = x :: r'.shown) : r'.left < r.left := by
  rw [← length_shown, ← length_shown, h]
  exact Nat.lt_succ_self _

namespace Ending

/-- Handing out a lexeme takes it off those that are shown. -/
theorem next {r : Reader} (h : r.Ending) :
    (∃ t r', r.next = (.ok t, r') ∧ r'.Ending ∧ r'.ahead = none ∧
      (t.kind ≠ .eof ∧ r.shown = .ok t :: r'.shown ∨ t = r'.last ∧ r.shown = [.ok t])) ∨
    ∃ bad r' rest, r.next = (.error bad, r') ∧ r.shown = .error bad :: rest := by
  obtain ⟨pending, ahead, last⟩ := r
  obtain ⟨hlast, hpending, hahead⟩ := h
  have hending : Ending ⟨pending, none, last⟩ := ⟨hlast, hpending, fun _ ht => by cases ht⟩
  cases ahead with
  | some t =>
      refine .inl ⟨t, ⟨pending, none, last⟩, rfl, hending, rfl, ?_⟩
      by_cases ht : t = last
      · exact .inr ⟨ht, by simp [shown, ht]⟩
      · exact .inl ⟨fun heof => ht (hahead t rfl heof), by simp [shown, ht]⟩
  | none =>
      cases pending with
      | nil => exact .inl ⟨last, ⟨[], none, last⟩, rfl, hending, rfl, .inr ⟨rfl, rfl⟩⟩
      | cons x xs =>
          cases x with
          | error bad => exact .inr ⟨bad, ⟨xs, none, last⟩, xs ++ [.ok last], rfl, rfl⟩
          | ok t =>
              have hending' : Ending ⟨xs, none, last⟩ :=
                ⟨hlast, fun u hu => hpending u (List.mem_cons_of_mem _ hu), fun _ ht => by cases ht⟩
              exact .inl ⟨t, ⟨xs, none, last⟩, rfl, hending', rfl, .inl ⟨hpending t List.mem_cons_self, rfl⟩⟩

/-- Looking ahead changes nothing about what is shown. -/
theorem peek {r : Reader} (h : r.Ending) :
    (∃ t r', r.peek = (.ok t, r') ∧ r'.Ending ∧ r'.shown = r.shown ∧ r'.next.1 = .ok t ∧
      ∃ rest, r.shown = .ok t :: rest) ∨
    ∃ bad r' rest, r.peek = (.error bad, r') ∧ r.shown = .error bad :: rest := by
  rcases h.next with ⟨t, r', hnext, hending, hahead, hshown⟩ | ⟨bad, r', rest, hnext, hshown⟩
  · obtain ⟨pending, ahead, last⟩ := r'
    obtain rfl : ahead = none := hahead
    refine .inl ⟨t, ⟨pending, some t, last⟩, by rw [Reader.peek, hnext], ?_, ?_, rfl, ?_⟩
    · refine ⟨hending.last, hending.pending, fun u hu heof => ?_⟩
      cases hu
      rcases hshown with ⟨hkind, _⟩ | ⟨hlast, _⟩
      · exact absurd heof hkind
      · exact hlast
    · rcases hshown with ⟨hkind, hshown⟩ | ⟨rfl, hshown⟩
      · have ht : t ≠ last := fun heq => hkind (heq ▸ hending.last)
        rw [hshown]
        exact if_neg ht
      · rw [hshown]
        exact if_pos rfl
    · rcases hshown with ⟨_, hshown⟩ | ⟨_, hshown⟩
      · exact ⟨_, hshown⟩
      · exact ⟨_, hshown⟩
  · exact .inr ⟨bad, r', rest, by rw [Reader.peek, hnext], hshown⟩

end Ending

/-- A reader paces itself. -/
def pacing : Pacing Reader Reader where
  InStep _ r r' := r = r' ∧ r.Ending
  left h := by
    obtain ⟨rfl, h⟩ := h
    exact ⟨left_pos _, Nat.le_succ _⟩
  next h := by
    obtain ⟨rfl, h⟩ := h
    rcases h.next with ⟨t, r', hnext, hending, _, hshown⟩ | ⟨bad, r', rest, hnext, _⟩
    · refine .inl ⟨t, r', r', hnext, hnext, ⟨rfl, hending⟩, fun ht => ?_⟩
      rcases hshown with ⟨_, hshown⟩ | ⟨rfl, _⟩
      · exact left_lt_of_shown hshown
      · exact absurd hending.last ht
    · exact .inr ⟨bad, r', r', hnext, hnext⟩
  peek h := by
    obtain ⟨rfl, h⟩ := h
    rcases h.peek with ⟨t, r', hpeek, hending, hshown, hnext, _⟩ | ⟨bad, r', rest, hpeek, _⟩
    · refine .inl ⟨t, r', r', hpeek, hpeek, ⟨rfl, hending⟩, ?_, hnext⟩
      show r'.left = _
      rw [← length_shown, hshown]
      exact length_shown _
    · exact .inr ⟨bad, r', r', hpeek, hpeek⟩

end Reader

/-! ## Tapes -/

/-- Lexemes in a row, and what comes after them. -/
structure Tape where
  lexemes : List Lexeme
  beyond : Lexeme

namespace Tape

/-- Takes a lexeme off the tape. -/
def next (x : Tape) : Lexeme × Tape :=
  match x.lexemes with
  | l :: ls => (l, ⟨ls, x.beyond⟩)
  | [] => (x.beyond, x)

/-- Parsers can read from a tape. Of its lexemes, the end of file does not count as left. -/
instance : Feed Tape where
  next := next
  peek x := (x.next.1, x)
  left x := x.lexemes.length - 1

end Tape

/-- The stream with its reader replaced by a tape, which has nothing left after the end of file but `beyond`. -/
def Stream.taped (s : Stream Reader) (beyond : Lexeme) : Stream Tape :=
  ⟨s.current, ⟨if s.current.kind = .eof then [] else s.feed.shown, beyond⟩, s.previous, s.typeNames⟩

/-- A reader and the tape of its lexemes. -/
def Reader.tapePacing (beyond : Lexeme) : Pacing Reader Tape where
  InStep ended r x := r.Ending ∧ x = ⟨if ended then [] else r.shown, beyond⟩
  left h := by
    obtain ⟨_, rfl⟩ := h
    refine ⟨Reader.left_pos _, ?_⟩
    show _ ≤ (Reader.shown _).length - 1 + 1
    rw [length_shown]
    exact Nat.le_of_eq (Nat.sub_add_cancel (Reader.left_pos _)).symm
  next h := by
    obtain ⟨h, rfl⟩ := h
    rcases h.next with ⟨t, r', hnext, hending, _, hshown⟩ | ⟨bad, r', rest, hnext, hshown⟩
    · rcases hshown with ⟨hkind, hshown⟩ | ⟨rfl, hshown⟩
      · refine .inl ⟨t, r', ⟨r'.shown, beyond⟩, hnext, ?_, ⟨hending, ?_⟩, fun _ => left_lt_of_shown hshown⟩
        · simp [Feed.next, Tape.next, hshown]
        · simp [hkind]
      · refine .inl ⟨_, r', ⟨[], beyond⟩, hnext, ?_, ⟨hending, ?_⟩, fun ht => absurd hending.last ht⟩
        · simp [Feed.next, Tape.next, hshown]
        · simp [hending.last]
    · refine .inr ⟨bad, r', ⟨rest, beyond⟩, hnext, ?_⟩
      simp [Feed.next, Tape.next, hshown]
  peek h := by
    obtain ⟨h, rfl⟩ := h
    rcases h.peek with ⟨t, r', hpeek, hending, hshown, hnext, rest, hrest⟩ | ⟨bad, r', rest, hpeek, hshown⟩
    · refine .inl ⟨t, r', ⟨r'.shown, beyond⟩, hpeek, ?_, ⟨hending, by simp⟩, ?_, hnext⟩
      · simp [Feed.peek, Tape.next, hshown, hrest]
      · show r'.left = Reader.left _
        rw [← length_shown, hshown, length_shown]
    · refine .inr ⟨bad, r', ⟨.error bad :: rest, beyond⟩, hpeek, ?_⟩
      simp [Feed.peek, Tape.next, hshown]

/-! ## The rules of the grammar -/

/-- The parsers that other parsers call, and that consume a token whenever they succeed. -/
inductive Rule where
  | declaration
  | members
  | type
  | item
  | stmt
  | block
  | expression
  | assignment
  | conditional
  | binary (least : Nat)
  | unary
  | suffixed
  | primary

namespace Rule

open Jaf.Parser ExprParsers

/-- What the parser for a rule gives. -/
def Result : Rule → Type
  | declaration | item => List Item
  | members => List VarDecl
  | type => TypeSpec
  | stmt => Stmt
  | block => Block
  | expression | assignment | conditional | binary _ | unary | suffixed | primary => Expr

/-- The parser for a rule, with a bound on the depth of its recursion. -/
def parser {φ : Type} [Feed φ] (n : Nat) : (r : Rule) → Parser φ r.Result
  | declaration => (blockParsers n).declaration
  | members => Parser.members (typeSpecN n)
  | type => typeSpecN n
  | item => (blockParsers n).item
  | stmt => (blockParsers n).stmt
  | block => (blockParsers n).block
  | expression => (exprParsers n).expression
  | assignment => (exprParsers n).assignment
  | conditional => (exprParsers n).conditional
  | binary least => (exprParsers n).binary least
  | unary => (exprParsers n).unary
  | suffixed => ExprParsers.primary (exprParsers n) >>= suffixes
  | primary => ExprParsers.primary (exprParsers n)

/-- With a bound that is greater than the number of tokens left, parsers for a rule do not reach it. -/
theorem takes {φ ψ : Type} [Feed φ] [Feed ψ] (P : Pacing φ ψ) (r : Rule) {b n n' : Nat} (hn : b ≤ n)
    (hn' : b ≤ n') : P.Takes b (r.parser n) (r.parser n') := by
  have hexpr : ExprParsers.Pace P b (exprParsers n) (exprParsers n') := pace_exprParsers hn hn'
  have hblock : BlockParsers.Pace P b (blockParsers n) (blockParsers n') := BlockParsers.pace_blockParsers hn hn'
  cases r with
  | declaration => exact (BlockParsers.takes_declaration hblock).mono (Nat.le_succ b)
  | members => exact Pacing.takes_members (Pacing.takes_typeSpecN hn hn')
  | type => exact Pacing.takes_typeSpecN hn hn'
  | item => exact hblock.item
  | stmt => exact hblock.stmt
  | block => exact (BlockParsers.takes_block hblock).mono (Nat.le_succ b)
  | expression => exact hexpr.expression
  | assignment => exact hexpr.assignment
  | conditional => exact hexpr.conditional
  | binary least => exact hexpr.binary least
  | unary => exact hexpr.unary
  | suffixed => exact (takes_suffixed hexpr).mono (Nat.le_succ b)
  | primary => exact (takes_primary hexpr).mono (Nat.le_succ b)

end Rule

/-! ## Results side by side -/

section
variable {α : Type} {n : Nat} {spent : α → Bool} {s : Stream Reader}

theorem Reader.Ending.alike (h : s.feed.Ending) : Reader.pacing.Alike s s := ⟨rfl, ⟨rfl, h⟩, rfl, rfl⟩

theorem Reader.Ending.remaining_lt_depth (h : s.feed.Ending) : s.remaining < Parser.depth s :=
  h.alike.remaining_lt_depth.1

theorem Reader.Ending.alike_taped (h : s.feed.Ending) (beyond : Lexeme) :
    (Reader.tapePacing beyond).Alike s (s.taped beyond) :=
  ⟨rfl, ⟨h, by simp [Stream.taped]⟩, rfl, rfl⟩

theorem Pacing.Agree.eq {x y : Except ParseError (α × Stream Reader)} (h : Reader.pacing.Agree n spent x y) :
    x = y := by
  cases h with
  | error => rfl
  | @value a s t hst _ =>
      obtain ⟨current, feed, previous, names⟩ := s
      obtain ⟨current', feed', previous', names'⟩ := t
      obtain ⟨hcurrent, ⟨hfeed, _⟩, hprevious, hnames⟩ := hst
      cases hcurrent
      cases hfeed
      cases hprevious
      cases hnames
      rfl

/-- What a parser leaves when it succeeds. -/
theorem Pacing.Agree.leaves {a : α} {y : Except ParseError (α × Stream Reader)}
    (h : Reader.pacing.Agree n spent (.ok (a, s)) y) : s.feed.Ending ∧ s.remaining + (spent a).toNat ≤ n := by
  cases h with
  | value hst hle => exact ⟨hst.feed.2, hle⟩

theorem Pacing.Agree.eq_taped {beyond : Lexeme} {x : Except ParseError (α × Stream Reader)}
    {y : Except ParseError (α × Stream Tape)} (h : (Reader.tapePacing beyond).Agree n spent x y) :
    y = x.map fun r => (r.1, r.2.taped beyond) := by
  cases h with
  | error => rfl
  | @value a s t hst _ =>
      obtain ⟨current, feed, previous, names⟩ := t
      obtain ⟨hcurrent, ⟨_, hfeed⟩, hprevious, hnames⟩ := hst
      cases hcurrent
      cases hfeed
      cases hprevious
      cases hnames
      simp [Except.map, Stream.taped]

end

namespace Rule

variable (r : Rule) {n n' : Nat} {s : Stream Reader}

theorem agree (hs : s.feed.Ending) (hn : s.remaining < n) (hn' : s.remaining < n') :
    Reader.pacing.Agree s.remaining (fun _ => true) (r.parser n s) (r.parser n' s) :=
  r.takes Reader.pacing hn hn' s s hs.alike trivial (Nat.lt_succ_self _)

/-- The bound does not matter, if it is greater than the number of tokens left. -/
theorem parser_eq (hs : s.feed.Ending) (hn : s.remaining < n) (hn' : s.remaining < n') :
    r.parser n s = r.parser n' s := (r.agree hs hn hn').eq

/-- A parser does the same on a tape as with a reader. -/
theorem parser_taped (hs : s.feed.Ending) (hn : s.remaining < n) (beyond : Lexeme) :
    r.parser n (s.taped beyond) = (r.parser n s).map fun x => (x.1, x.2.taped beyond) :=
  (r.takes (Reader.tapePacing beyond) hn hn s _ (hs.alike_taped beyond) trivial (Nat.lt_succ_self _)).eq_taped

/-- What is promised of a parser for a rule that is run with a bound on a stream. -/
structure Stops (r : Rule) (n : Nat) (s : Stream Reader) : Prop where
  /-- A parser that succeeds has consumed a token. -/
  consumes : ∀ v s', r.parser n s = .ok (v, s') → s'.feed.Ending ∧ s'.remaining < s.remaining
  /-- A parser that fails does not do so because it reached a bound. -/
  bounded : ∀ e, r.parser n s = .error e → e.gaveUp = false
  /-- With another bound the result would be the same. -/
  stable : ∀ n', s.remaining < n' → r.parser n' s = r.parser n s
  /-- What comes after the end of file makes no difference. -/
  fenced : ∀ beyond, r.parser n (s.taped beyond) = (r.parser n s).map fun x => (x.1, x.2.taped beyond)

theorem stops (hs : s.feed.Ending) (hn : s.remaining < n) : r.Stops n s := by
  have hagree := r.agree hs hn hn
  refine ⟨fun v s' hok => ?_, fun e herror => ?_, fun n' hn' => r.parser_eq hs hn' hn, r.parser_taped hs hn⟩
  · rw [hok] at hagree
    exact hagree.leaves
  · rw [herror] at hagree
    cases hagree with
    | error he => exact he

end Rule

/-! ## Whole scripts -/

/-- A parser run from the first lexeme on does the same on a tape, and does not reach a bound. -/
theorem Parser.run_taped {α : Type} {p : Parser Reader α} {q : Parser Tape α} {beyond : Lexeme}
    (h : ∀ b, (Reader.tapePacing beyond).Keeps b p q) {r : Reader} (hr : r.Ending) :
    p.run r = q.run ⟨r.shown, beyond⟩ ∧ ∀ e, p.run r = .error e → e.gaveUp = false := by
  have hstep : (Reader.tapePacing beyond).InStep false r ⟨r.shown, beyond⟩ := ⟨hr, rfl⟩
  rcases (Reader.tapePacing beyond).next hstep with ⟨t, r', x, hnext, hnext', hin, _⟩ | ⟨bad, r', x, hnext, hnext'⟩
  · have hpq := h _ ⟨t, r', .point 0, []⟩ ⟨t, x, .point 0, []⟩ ⟨rfl, hin, rfl, rfl⟩ trivial (Nat.lt_succ_self _)
    simp only [Parser.run, hnext, hnext']
    generalize p ⟨t, r', .point 0, []⟩ = a at hpq ⊢
    generalize q ⟨t, x, .point 0, []⟩ = c at hpq ⊢
    cases hpq with
    | value => exact ⟨rfl, fun e he => by cases he⟩
    | error hgave => exact ⟨rfl, fun e he => by cases he; exact hgave⟩
  · simp only [Parser.run, hnext, hnext', true_and]
    exact fun e he => by cases he; rfl

/--
**Parsing stops, whatever the script.** No loop and no recursion of it reaches a bound that is greater than the
number of tokens left, and nothing past the end of file is looked at: the same comes out if any token or bad
text follows there. Every parser that is called on the way consumes a token when it succeeds.
-/
theorem Block.parsing_stops :
    (∀ (source : String) (beyond : Lexeme),
      Block.parse source = Parser.script.run (Tape.mk (Lexeme.stream source) beyond) ∧
        ∀ e, Block.parse source = .error e → e.gaveUp = false) ∧
      ∀ (r : Rule) (n : Nat) (s : Stream Reader), s.feed.Ending → s.remaining < n → r.Stops n s :=
  ⟨fun source _ => Parser.run_taped (fun _ => Pacing.keeps_script) (Reader.ending_ofSource source),
    fun r _ _ hs hn => r.stops hs hn⟩

/-- A block that breaks off after an opening parenthesis. -/
def Stream.truncated : Stream Reader :=
  ⟨⟨.symbol .leftBrace, ⟨0, 1⟩⟩,
    ⟨[.ok ⟨.name "x", ⟨1, 2⟩⟩, .ok ⟨.symbol .eq, ⟨2, 3⟩⟩, .ok ⟨.symbol .leftParen, ⟨3, 4⟩⟩], none,
      ⟨.eof, .point 4⟩⟩, .point 0, []⟩

theorem Block.parsing_stops_truncated :
    Stream.truncated.feed.Ending ∧ Stream.truncated.remaining < 5 ∧ Rule.block.Stops 5 Stream.truncated := by
  have hending : Stream.truncated.feed.Ending := by
    refine ⟨rfl, fun t ht => ?_, fun t ht => by cases ht⟩
    simp only [Stream.truncated, List.mem_cons, Except.ok.injEq, List.not_mem_nil, or_false] at ht
    rcases ht with rfl | rfl | rfl <;> simp
  have hremaining : Stream.truncated.remaining < 5 := by decide
  exact ⟨hending, hremaining, Block.parsing_stops.2 .block 5 Stream.truncated hending hremaining⟩

end Jaf
