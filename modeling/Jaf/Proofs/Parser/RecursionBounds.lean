import Jaf.Parser.Stream

/-!
# Parsers keep pace with their tokens

Loops and recursion of the parsers are bounded by a number, and a parser that reaches its bound gives up.
This file is about why none does. A parser is run side by side with another one, which may have other bounds
and another feed; `Pacing` says what the two feeds have to agree on, which is what they hand out up to the
end of file and nothing that comes after it. The parsers `Paces` each other if they end alike: they fail with
the same error, which is never that of giving up, or they succeed with the same value, and then the tokens
left have not become more, or have become less.

There is one rule for each way in which parsers are put together. The bound `b` in the judgement is on the
tokens left, so a parser that has consumed one may go on with parsers that are good for one less. The current
token is consumed only where it is known not to be the end of file, which is why the judgement also has a
condition on the stream.
-/

namespace Jaf

variable {φ ψ α β : Type} [Feed φ] [Feed ψ]

/-- The number of tokens that are left to be consumed, the current one included. The end of file is not. -/
def Stream.remaining (s : Stream φ) : Nat := if s.current.kind = .eof then 0 else Feed.left s.feed

/-- The parser reached the bound on its recursion or on one of its loops. -/
def ParseError.gaveUp : ParseError → Bool
  | .grammar _ .tooDeep => true
  | _ => false

/-- Whether a turn of a loop goes round again, in which case it should have consumed a token. -/
def Parser.Turn.goesOn : Parser.Turn α β → Bool
  | .again _ => true
  | .done _ => false

/-- What two feeds agree on up to the end of file. -/
structure Pacing (φ ψ : Type) [Feed φ] [Feed ψ] where
  /-- The feeds are in step; the flag says whether the end of file has been handed out. -/
  InStep : Bool → φ → ψ → Prop
  left {a : φ} {b : ψ} : InStep false a b → 0 < Feed.left a ∧ Feed.left a ≤ Feed.left b + 1
  next {a : φ} {b : ψ} : InStep false a b →
    (∃ t a' b', Feed.next a = (.ok t, a') ∧ Feed.next b = (.ok t, b') ∧ InStep (t.kind = .eof) a' b' ∧
      (t.kind ≠ .eof → Feed.left a' < Feed.left a)) ∨
    ∃ bad a' b', Feed.next a = (.error bad, a') ∧ Feed.next b = (.error bad, b')
  peek {a : φ} {b : ψ} : InStep false a b →
    (∃ t a' b', Feed.peek a = (.ok t, a') ∧ Feed.peek b = (.ok t, b') ∧ InStep false a' b' ∧
      Feed.left a' = Feed.left a ∧ (Feed.next a').1 = .ok t) ∨
    ∃ bad a' b', Feed.peek a = (.error bad, a') ∧ Feed.peek b = (.error bad, b')

namespace Pacing

/-- Streams that differ in their feeds only, and those are in step. -/
structure Alike (P : Pacing φ ψ) (s : Stream φ) (t : Stream ψ) : Prop where
  current : s.current = t.current
  feed : P.InStep (s.current.kind = .eof) s.feed t.feed
  previous : s.previous = t.previous
  typeNames : s.typeNames = t.typeNames

/--
Results of two parsers that end alike. No more than `n` tokens are left, and less than that if a token has
certainly been consumed, which the value tells.
-/
inductive Agree (P : Pacing φ ψ) (n : Nat) (spent : α → Bool) :
    Except ParseError (α × Stream φ) → Except ParseError (α × Stream ψ) → Prop
  | value {a : α} {s : Stream φ} {t : Stream ψ} : P.Alike s t → s.remaining + (spent a).toNat ≤ n →
      Agree P n spent (.ok (a, s)) (.ok (a, t))
  | error {e : ParseError} : e.gaveUp = false → Agree P n spent (.error e) (.error e)

/-- The parsers end alike on streams that satisfy the condition and have less than `b` tokens left. -/
def PacesFrom (P : Pacing φ ψ) (pre : Stream φ → Prop) (b : Nat) (spent : α → Bool) (p : Parser φ α)
    (q : Parser ψ α) : Prop :=
  ∀ s t, P.Alike s t → pre s → s.remaining < b →
    P.Agree s.remaining spent (p s) (q t)

/-- The parsers end alike on all streams with less than `b` tokens left. -/
abbrev Paces (P : Pacing φ ψ) (b : Nat) (spent : α → Bool) (p : Parser φ α) (q : Parser ψ α) : Prop :=
  P.PacesFrom (fun _ => True) b spent p q

/-- The parsers end alike. -/
abbrev Keeps (P : Pacing φ ψ) (b : Nat) (p : Parser φ α) (q : Parser ψ α) : Prop :=
  P.Paces b (fun _ => false) p q

/-- The parsers end alike, and consume a token whenever they succeed. -/
abbrev Takes (P : Pacing φ ψ) (b : Nat) (p : Parser φ α) (q : Parser ψ α) : Prop :=
  P.Paces b (fun _ => true) p q

variable {P : Pacing φ ψ} {pre : Stream φ → Prop} {b : Nat} {spent : α → Bool} {spent' : β → Bool}
  {p p' : Parser φ α} {q q' : Parser ψ α} {f : α → Parser φ β} {g : α → Parser ψ β}

/-! ## Rules -/

theorem Agree.mono {n n' : Nat} {spent spent' : α → Bool} {r : Except ParseError (α × Stream φ)}
    {r' : Except ParseError (α × Stream ψ)} (h : P.Agree n spent r r')
    (hle : ∀ a m, m + (spent a).toNat ≤ n → m + (spent' a).toNat ≤ n') : P.Agree n' spent' r r' := by
  cases h with
  | value hst hn => exact .value hst (hle _ _ hn)
  | error he => exact .error he

theorem Paces.from (h : P.Paces b spent p q) : P.PacesFrom pre b spent p q :=
  fun s t hst _ hb => h s t hst trivial hb

theorem PacesFrom.mono {b' : Nat} (h : P.PacesFrom pre b spent p q) (hb : b' ≤ b) :
    P.PacesFrom pre b' spent p q :=
  fun s t hst hpre hlt => h s t hst hpre (Nat.lt_of_lt_of_le hlt hb)

/-- What holds if no token has to be consumed. -/
theorem PacesFrom.relax (h : P.PacesFrom pre b spent p q) : P.PacesFrom pre b (fun _ => false) p q :=
  fun s t hst hpre hb =>
    (h s t hst hpre hb).mono fun _ m hm => Nat.le_trans (Nat.le_add_right m _) hm

theorem paces_pure {a : α} (h : spent a = false) : P.PacesFrom pre b spent (pure a) (pure a) :=
  fun s _ hst _ _ => .value hst (by rw [h]; exact Nat.le_refl s.remaining)

/--
One parser after the other. What follows a value for which a token has been consumed may have a bound that is
one less, and need not consume another.
-/
theorem PacesFrom.bind (hp : P.PacesFrom pre b spent p q)
    (hspent : ∀ a, spent a = true → P.Keeps (b - 1) (f a) (g a))
    (hkept : ∀ a, spent a = false → P.Paces b spent' (f a) (g a)) :
    P.PacesFrom pre b spent' (p >>= f) (q >>= g) := by
  intro s t hst hpre hb
  have hpq := hp s t hst hpre hb
  simp only [Bind.bind, StateT.bind]
  generalize p s = r at hpq ⊢
  generalize q t = r' at hpq ⊢
  cases hpq with
  | error he => exact .error he
  | @value a s' t' hst' hn =>
      cases ha : spent a with
      | true =>
          rw [ha, Bool.toNat_true] at hn
          refine (hspent a ha s' t' hst' trivial (by omega)).mono fun a' m hm => ?_
          have := (spent' a').toNat_le
          rw [Bool.toNat_false] at hm
          omega
      | false =>
          rw [ha, Bool.toNat_false] at hn
          refine (hkept a ha s' t' hst' trivial (by omega)).mono fun a' m hm => ?_
          omega

/-- A parser that consumes a token, and then one that is good for one token less. -/
theorem Takes.descend (hp : P.Takes (b + 1) p q) (h : ∀ a, P.Keeps b (f a) (g a)) :
    P.PacesFrom pre (b + 1) spent' (p >>= f) (q >>= g) :=
  hp.from.bind (fun a _ => h a) fun _ ha => by cases ha

theorem Takes.bind (hp : P.Takes b p q) (h : ∀ a, P.Keeps b (f a) (g a)) :
    P.PacesFrom pre b spent' (p >>= f) (q >>= g) :=
  hp.from.bind (fun a _ => (h a).mono (Nat.sub_le b 1)) fun _ ha => by cases ha

theorem Keeps.bind (hp : P.Keeps b p q) (h : ∀ a, P.Paces b spent' (f a) (g a)) :
    P.PacesFrom pre b spent' (p >>= f) (q >>= g) :=
  hp.from.bind (fun _ ha => by cases ha) fun a _ => h a

theorem PacesFrom.ite {c : Prop} [Decidable c] (h : P.PacesFrom pre b spent p q)
    (h' : P.PacesFrom pre b spent p' q') :
    P.PacesFrom pre b spent (if c then p else p') (if c then q else q') := by
  split
  · exact h
  · exact h'

theorem PacesFrom.map {h : α → β} (hp : P.PacesFrom pre b spent p q) :
    P.PacesFrom pre b (fun _ => false) (h <$> p) (h <$> q) := by
  rw [map_eq_pure_bind, map_eq_pure_bind]
  exact hp.bind (fun _ _ => paces_pure rfl) fun _ _ => paces_pure rfl

open Jaf.Parser

theorem paces_failAt {place : Span} {cause : SyntaxCause} (h : cause ≠ .tooDeep) :
    P.PacesFrom pre b spent (failAt place cause) (failAt place cause) := by
  refine fun _ _ _ _ _ => .error ?_
  cases cause with
  | tooDeep => exact absurd rfl h
  | _ => rfl

theorem paces_unexpected {what : Expected} :
    P.PacesFrom pre b spent (unexpected what) (unexpected what) := by
  intro s t hst _ _
  simp only [unexpected, hst.current]
  exact .error rfl

/-! ## Looking at the stream -/

/-- The parsers look at the stream and leave it as it is. -/
def Looks (P : Pacing φ ψ) (p : Parser φ α) (q : Parser ψ α) : Prop :=
  ∀ s t, P.Alike s t → ∃ a, p s = .ok (a, s) ∧ q t = .ok (a, t)

/-- After a look all that was known of the stream is still known. -/
theorem Looks.then (hp : P.Looks p q) (h : ∀ a, P.PacesFrom pre b spent' (f a) (g a)) :
    P.PacesFrom pre b spent' (p >>= f) (q >>= g) := by
  intro s t hst hpre hb
  obtain ⟨a, hs, ht⟩ := hp s t hst
  simp only [Bind.bind, StateT.bind, hs, ht]
  exact h a s t hst hpre hb

/-- A look that ends in a value. -/
theorem Looks.ends {make : α → β} (hp : P.Looks p q) :
    P.PacesFrom pre b (fun _ => false) (p >>= fun a => pure (make a)) (q >>= fun a => pure (make a)) :=
  hp.then fun _ => paces_pure rfl

theorem looks_pure {a : α} : P.Looks (pure a) (pure a) := fun _ _ _ => ⟨a, rfl, rfl⟩

theorem Looks.bind (hp : P.Looks p q) (h : ∀ a, P.Looks (f a) (g a)) : P.Looks (p >>= f) (q >>= g) := by
  intro s t hst
  obtain ⟨a, hs, ht⟩ := hp s t hst
  simp only [Bind.bind, StateT.bind, hs, ht]
  exact h a s t hst

theorem looks_span : P.Looks span span :=
  fun s t hst => ⟨s.current.span, rfl, by rw [span, hst.current]⟩

theorem looks_previous : P.Looks previous previous :=
  fun s t hst => ⟨s.previous, rfl, by rw [previous, hst.previous]⟩

theorem looks_kind : P.Looks kind kind :=
  fun s t hst => ⟨s.current.kind, rfl, by rw [kind, hst.current]⟩

theorem looks_at (k : Token.Kind) : P.Looks (at? k) (at? k) := looks_kind.bind fun _ => looks_pure

theorem looks_isTypeName (text : String) : P.Looks (isTypeName text) (isTypeName text) :=
  fun s t hst => ⟨s.typeNames.contains text, rfl, by rw [isTypeName, hst.typeNames]⟩

theorem looks_startsType : P.Looks startsType startsType := by
  refine looks_kind.bind fun k => ?_
  split
  · exact looks_isTypeName _
  · exact looks_pure

/-- The current token is of the given kind. -/
def At (k : Token.Kind) (s : Stream φ) : Prop := s.current.kind = k

/-- The current token is of the given kind, and the one after it of the other. -/
def AtThen (k k' : Token.Kind) (s : Stream φ) : Prop :=
  s.current.kind = k ∧ ∃ t, (Feed.next s.feed).1 = .ok t ∧ t.kind = k'

/-- What a parser does that looks at the current token may depend on its kind. -/
theorem kind_bind {f : Token.Kind → Parser φ α} {g : Token.Kind → Parser ψ α}
    (h : ∀ k, P.PacesFrom (At k) b spent (f k) (g k)) :
    P.PacesFrom pre b spent (kind >>= f) (kind >>= g) := by
  intro s t hst _ hb
  show P.Agree _ _ (f s.current.kind s) (g t.current.kind t)
  rw [← hst.current]
  exact h s.current.kind s t hst rfl hb

theorem keeps_addTypeName (text : String) : P.Keeps b (addTypeName text) (addTypeName text) :=
  fun s _ hst _ _ =>
    .value ⟨hst.current, hst.feed, hst.previous, congrArg (text :: ·) hst.typeNames⟩ (Nat.le_refl s.remaining)

/-! ## Moving on -/

theorem Alike.running {s : Stream φ} {t : Stream ψ} (h : P.Alike s t) (hs : s.current.kind ≠ .eof) :
    P.InStep false s.feed t.feed := by
  have hfeed := h.feed
  rwa [decide_eq_false hs] at hfeed

/-- Consuming a token that is not the end of file. -/
theorem advance_bind {post : Stream φ → Prop} {f : Unit → Parser φ α} {g : Unit → Parser ψ α}
    (hpre : ∀ s, pre s → s.current.kind ≠ .eof)
    (hpost : ∀ s s', pre s → advance s = .ok ((), s') → post s')
    (h : P.PacesFrom post (b - 1) (fun _ => false) (f ()) (g ())) :
    P.PacesFrom pre b spent (advance >>= f) (advance >>= g) := by
  intro s t hst hs hb
  have hrunning := hst.running (hpre s hs)
  have hremaining : s.remaining = Feed.left s.feed := if_neg (hpre s hs)
  rcases P.next hrunning with ⟨u, a, c, ha, hc, hac, hleft⟩ | ⟨bad, a, c, ha, hc⟩
  · have hadvance : advance s = .ok ((), ⟨u, a, s.current.span, s.typeNames⟩) := by simp only [advance, ha]
    have hadvance' : advance t = .ok ((), ⟨u, c, t.current.span, t.typeNames⟩) := by simp only [advance, hc]
    have hless : Stream.remaining ⟨u, a, s.current.span, s.typeNames⟩ < s.remaining := by
      rw [hremaining]
      by_cases hu : u.kind = .eof
      · simpa [Stream.remaining, hu] using (P.left hrunning).1
      · simpa [Stream.remaining, hu] using hleft hu
    simp only [Bind.bind, StateT.bind, hadvance, hadvance']
    have hst' : P.Alike ⟨u, a, s.current.span, s.typeNames⟩ ⟨u, c, t.current.span, t.typeNames⟩ :=
      ⟨rfl, hac, congrArg Token.span hst.current, hst.typeNames⟩
    refine (h _ _ hst' (hpost s _ hs hadvance) (by omega)).mono fun a' m hm => ?_
    have := (spent a').toNat_le
    rw [Bool.toNat_false] at hm
    omega
  · simp only [Bind.bind, StateT.bind, advance, ha, hc]
    exact .error rfl

theorem advance_descend {k : Token.Kind} {f : Unit → Parser φ α} {g : Unit → Parser ψ α} (hk : k ≠ .eof)
    (h : P.Keeps b (f ()) (g ())) : P.PacesFrom (At k) (b + 1) spent (advance >>= f) (advance >>= g) :=
  advance_bind (fun _ hs => hs ▸ hk) (fun _ _ _ _ => trivial) h

theorem advance_at {k : Token.Kind} {f : Unit → Parser φ α} {g : Unit → Parser ψ α} (hk : k ≠ .eof)
    (h : P.Keeps b (f ()) (g ())) : P.PacesFrom (At k) b spent (advance >>= f) (advance >>= g) :=
  (advance_descend hk h).mono (Nat.le_succ b)

/-- Consuming a token when the one after it has been looked at. -/
theorem advance_then {k k' : Token.Kind} {f : Unit → Parser φ α} {g : Unit → Parser ψ α} (hk : k ≠ .eof)
    (h : P.PacesFrom (At k') (b - 1) (fun _ => false) (f ()) (g ())) :
    P.PacesFrom (AtThen k k') b spent (advance >>= f) (advance >>= g) := by
  refine advance_bind (fun _ hs => hs.1 ▸ hk) (fun s s' hs hadvance => ?_) h
  obtain ⟨_, t, ht, hkind⟩ := hs
  rw [advance] at hadvance
  split at hadvance
  next u a hu =>
    rw [hu] at ht
    cases ht
    cases hadvance
    exact hkind
  next => cases hadvance

theorem lookahead_bind {k : Token.Kind} {f : Token.Kind → Parser φ α} {g : Token.Kind → Parser ψ α}
    (hk : k ≠ .eof) (h : ∀ k', P.PacesFrom (AtThen k k') b spent (f k') (g k')) :
    P.PacesFrom (At k) b spent (lookahead >>= f) (lookahead >>= g) := by
  intro s t hst hs hb
  have hcurrent : s.current.kind ≠ .eof := hs ▸ hk
  rcases P.peek (hst.running hcurrent) with ⟨u, a, c, ha, hc, hac, hleft, hnext⟩ | ⟨bad, a, c, ha, hc⟩
  · have hsame : ({ s with feed := a } : Stream φ).remaining = s.remaining := by
      simp only [Stream.remaining, hleft]
    have halike : P.Alike { s with feed := a } { t with feed := c } := by
      refine ⟨hst.current, ?_, hst.previous, hst.typeNames⟩
      rwa [decide_eq_false hcurrent]
    simp only [Bind.bind, StateT.bind, lookahead, ha, hc]
    have hgoes := h u.kind _ _ halike ⟨hs, u, hnext, rfl⟩ (hsame ▸ hb)
    rwa [hsame] at hgoes
  · simp only [Bind.bind, StateT.bind, lookahead, ha, hc]
    exact .error rfl

theorem paces_accept {k : Token.Kind} (hk : k ≠ .eof) : P.Paces b id (accept k) (accept k) := by
  refine kind_bind fun k' => ?_
  split
  next h => exact advance_at (h ▸ hk) (paces_pure rfl)
  next => exact paces_pure rfl

theorem keeps_accept {k : Token.Kind} (hk : k ≠ .eof) : P.Keeps b (accept k) (accept k) := (paces_accept hk).relax

/-- A token that is consumed if it stands here. -/
theorem accept_bind {k : Token.Kind} (hk : k ≠ .eof) (h : P.Keeps b p q)
    (h' : P.Paces b spent p' q') :
    P.PacesFrom pre b spent (do if ← accept k then p else p') (do if ← accept k then q else q') := by
  refine (paces_accept hk).from.bind (fun a ha => ?_) fun a ha => ?_
  · obtain rfl : a = true := ha
    exact h.mono (Nat.sub_le b 1)
  · obtain rfl : a = false := ha
    exact h'

theorem takes_expect {k : Token.Kind} (hk : k ≠ .eof) : P.Takes b (expect k) (expect k) := by
  refine kind_bind fun k' => ?_
  split
  next h =>
    rw [← bind_pure (advance : Parser φ Unit), ← bind_pure (advance : Parser ψ Unit)]
    exact advance_at (h ▸ hk) (paces_pure rfl)
  next => exact paces_unexpected

theorem paces_name? : P.Paces b Option.isSome name? name? := by
  refine kind_bind fun k => ?_
  split
  next text => exact advance_at (by simp) (paces_pure rfl)
  next => exact paces_pure rfl

theorem keeps_name? : P.Keeps b name? name? := paces_name?.relax

theorem takes_name : P.Takes b name name := by
  refine paces_name?.bind (fun text htext => ?_) fun text htext => ?_
  · cases text with
    | some text => exact paces_pure rfl
    | none => cases htext
  · cases text with
    | some text => cases htext
    | none => exact paces_unexpected

/-! ## Recursion and repetition -/

theorem keeps_loopN {turn : α → Parser φ (Turn α β)} {turn' : α → Parser ψ (Turn α β)}
    (h : ∀ a, P.Paces b Turn.goesOn (turn a) (turn' a)) {n n' : Nat} (hn : b ≤ n) (hn' : b ≤ n') (a : α) :
    P.Keeps b (loopN turn n a) (loopN turn' n' a) := by
  induction b generalizing n n' a with
  | zero => exact fun _ _ _ _ hb => absurd hb (Nat.not_lt_zero _)
  | succ b ih =>
      obtain ⟨n, rfl⟩ := Nat.exists_eq_add_one_of_ne_zero (Nat.ne_zero_of_lt hn)
      obtain ⟨n', rfl⟩ := Nat.exists_eq_add_one_of_ne_zero (Nat.ne_zero_of_lt hn')
      refine (h a).bind (fun r hr => ?_) fun r hr => ?_
      · cases r with
        | again a' =>
            have hless : ∀ a, P.Paces b Turn.goesOn (turn a) (turn' a) := fun a => (h a).mono (Nat.le_succ b)
            exact ih hless (Nat.le_of_succ_le_succ hn) (Nat.le_of_succ_le_succ hn') a'
        | done r => cases hr
      · cases r with
        | again a' => cases hr
        | done r => exact paces_pure rfl

/-- The number that bounds loops and recursion is greater than that of the tokens left. -/
theorem Alike.remaining_lt_depth {s : Stream φ} {t : Stream ψ} (h : P.Alike s t) :
    s.remaining < depth s ∧ s.remaining < depth t := by
  by_cases hs : s.current.kind = .eof
  · simp [Stream.remaining, hs, depth]
  · have hleft := (P.left (h.running hs)).2
    simp only [Stream.remaining, if_neg hs, depth]
    omega

/-- A parser whose bound is taken from the tokens left. -/
theorem paces_depth {p : Nat → Parser φ α} {q : Nat → Parser ψ α}
    (h : ∀ b n n', b ≤ n → b ≤ n' → P.Paces b spent (p n) (q n')) :
    P.Paces b spent (fun s => p (depth s) s) (fun t => q (depth t) t) := by
  intro s t hst _ _
  obtain ⟨hs, ht⟩ := hst.remaining_lt_depth
  exact h (s.remaining + 1) (depth s) (depth t) hs ht s t hst trivial (Nat.lt_succ_self _)

/-- A loop in which every turn that goes round again consumes a token. -/
theorem keeps_loop {turn : α → Parser φ (Turn α β)} {turn' : α → Parser ψ (Turn α β)}
    (h : ∀ a, P.Paces b Turn.goesOn (turn a) (turn' a)) (a : α) :
    P.Keeps b (loop turn a) (loop turn' a) := by
  intro s t hst _ hb
  obtain ⟨hs, ht⟩ := hst.remaining_lt_depth
  have hless : ∀ a, P.Paces (s.remaining + 1) Turn.goesOn (turn a) (turn' a) := fun a => (h a).mono hb
  exact keeps_loopN hless hs ht a s t hst trivial (Nat.lt_succ_self _)

end Pacing

end Jaf
