import Jaf.Proofs.Lexer.LongestMatch
import Jaf.Proofs.Parser.TokenFeed

/-!
# Lexemes tile a script

Every cut is right, so what scanning leaves behind tiles the script: lexemes and gaps follow one another
with nothing lost and nothing read twice. `Tiles` says so along the text, and one cut is one step of it.
The main theorem reads the same off the spans: calling for lexemes ends, their places are in order, each
of them holds the longest token there or text that is none, and only blanks and comments lie between.
-/

namespace Jaf

open Spelling

/-! ## Gaps in a row -/

theorem Gap.append {a b after : List Char} (ha : Gap a (b ++ after)) (hb : Gap b after) :
    Gap (a ++ b) after := by
  generalize hrest : b ++ after = rest at ha
  induction ha with
  | none => exact hb
  | blank hc _ ih => exact .blank hc (ih hrest)
  | line hbody hstop _ ih =>
      subst hrest
      rw [List.cons_append, List.cons_append, List.append_assoc]
      refine .line hbody ?_ (ih rfl)
      rwa [List.append_assoc]
  | block hbody _ ih =>
      rw [List.cons_append, List.cons_append, List.append_assoc, List.cons_append, List.cons_append]
      exact .block hbody (ih hrest)

/-! ## Tiles -/

/-- A lexeme is what its text and the text after it ask for. -/
structure Lexeme.Fits (x : Lexeme) (text after : List Char) : Prop where
  token : ∀ t, x = .ok t → t.kind.Spelled text ∧ Longest text (text ++ after)
  bad : ∀ b, x = .error b → b.text = String.ofList text ∧ Unreadable text after

/-- The lexemes, with gaps around them, make up a text that stands behind another. -/
inductive Tiles : List Char → List Char → List Lexeme → Prop
  | done {before gap : List Char} : Gap gap [] → Tiles before gap []
  | next {before gap text rest : List Char} {x : Lexeme} {xs : List Lexeme} :
      Gap gap (text ++ rest) → text ≠ [] → x.Fits text rest →
      x.span = ⟨byteLength (before ++ gap), byteLength (before ++ gap ++ text)⟩ →
      Tiles (before ++ gap ++ text) rest xs → Tiles before (gap ++ (text ++ rest)) (x :: xs)

theorem Tiles.gap {before text after : List Char} {xs : List Lexeme} (h : Gap text after)
    (hxs : Tiles (before ++ text) after xs) : Tiles before (text ++ after) xs := by
  cases hxs with
  | done hgap => exact .done (Gap.append (by rwa [List.append_nil]) hgap)
  | @next _ gap text' rest x xs hgap hne hfits hspan hxs =>
      rw [← List.append_assoc]
      rw [List.append_assoc before] at hspan hxs
      exact .next (h.append hgap) hne hfits hspan hxs

/-- A cut takes at least one character. -/
theorem Unreadable.ne_nil {text after : List Char} (h : Unreadable text after) : text ≠ [] := by
  cases h <;> exact List.cons_ne_nil _ _

theorem Tiles.lexeme {before text rest : List Char} {x : Lexeme} {xs : List Lexeme} (hne : text ≠ [])
    (hfits : x.Fits text rest) (hspan : x.span = ⟨byteLength before, byteLength (before ++ text)⟩)
    (hxs : Tiles (before ++ text) rest xs) : Tiles before (text ++ rest) (x :: xs) := by
  have hspan' : x.span = ⟨byteLength (before ++ []), byteLength (before ++ [] ++ text)⟩ := by
    rwa [List.append_nil]
  have hxs' : Tiles (before ++ [] ++ text) rest xs := by rwa [List.append_nil]
  show Tiles before ([] ++ (text ++ rest)) (x :: xs)
  exact .next .none hne hfits hspan' hxs'

/-- Scanning a text leaves tiles of it behind, if the bound on the number of cuts allows one for every
character. -/
theorem Lexeme.scanFrom_tiles {fuel : Nat} {before cs : List Char} (h : cs.length ≤ fuel) :
    Tiles before cs (scanFrom fuel (byteLength before) cs) := by
  induction fuel generalizing before cs with
  | zero =>
      rw [List.eq_nil_of_length_eq_zero (Nat.le_zero.mp h)]
      exact .done .none
  | succ fuel ih =>
      cases cs with
      | nil => exact .done .none
      | cons c cs =>
          -- a cut takes a character, so the bound lasts for the rest
          have hrest : ∀ text after : List Char, text ≠ [] → c :: cs = text ++ after →
              Tiles (before ++ text) after (scanFrom fuel (byteLength before + byteLength text) after) := by
            intro text after hne hcs
            have hpos : 0 < text.length := List.length_pos_of_ne_nil hne
            have hlength : after.length ≤ fuel := by
              rw [hcs, List.length_append] at h
              omega
            rw [← byteLength_append]
            exact ih hlength
          have hright := Cut.right_ofChars (List.cons_ne_nil c cs)
          rw [scanFrom]
          generalize hcs : c :: cs = cs' at hright hrest
          generalize Cut.ofChars cs' = cut at hright
          cases hright with
          | @gap text after hne hgap =>
              simp only [Cut.length, List.take_left, List.drop_left]
              exact .gap hgap (hrest text after hne rfl)
          | @token kind text after hspelled hlongest =>
              have hne : text ≠ [] := token_ne_nil ⟨kind, hspelled.pattern⟩
              simp only [Cut.length, List.take_left, List.drop_left]
              refine .lexeme hne ⟨?_, ?_⟩ (by rw [byteLength_append]; rfl) (hrest text after hne rfl)
              · intro t ht
                cases ht
                exact ⟨hspelled, hlongest⟩
              · intro b hb
                cases hb
          | @bad text after hbad =>
              have hne : text ≠ [] := hbad.ne_nil
              simp only [Cut.length, List.take_left, List.drop_left]
              refine .lexeme hne ⟨?_, ?_⟩ (by rw [byteLength_append]; rfl) (hrest text after hne rfl)
              · intro t ht
                cases ht
              · intro b hb
                cases hb
                exact ⟨rfl, hbad⟩

/-! ## Places in the source -/

/-- What stands before a place of a script, in it, and after it. -/
structure Span.Holds (place : Span) (source before text after : String) : Prop where
  source_eq : source = before ++ text ++ after
  start_eq : place.start = before.utf8ByteSize
  stop_eq : place.stop = (before ++ text).utf8ByteSize

namespace Span

theorem holds_ofList {source : String} {before text after : List Char}
    (h : source.toList = before ++ (text ++ after)) :
    Span.Holds ⟨byteLength before, byteLength (before ++ text)⟩ source (String.ofList before)
      (String.ofList text) (String.ofList after) where
  source_eq := by
    rw [← String.ofList_append, ← String.ofList_append, List.append_assoc, ← h, String.ofList_toList]
  start_eq := (utf8ByteSize_ofList before).symm
  stop_eq := by rw [← String.ofList_append, utf8ByteSize_ofList]

/-- Both ends of a place that holds text are ends of characters. -/
theorem Holds.valid {place : Span} {source before text after : String}
    (h : place.Holds source before text after) :
    String.Pos.Raw.IsValid source ⟨place.start⟩ ∧ String.Pos.Raw.IsValid source ⟨place.stop⟩ := by
  rw [h.start_eq, h.stop_eq]
  constructor
  · exact String.Pos.Raw.isValid_iff_exists_append.mpr
      ⟨before, text ++ after, by rw [h.source_eq, String.append_assoc], rfl⟩
  · exact String.Pos.Raw.isValid_iff_exists_append.mpr ⟨before ++ text, after, h.source_eq, rfl⟩

theorem Holds.start_lt_stop {place : Span} {source before text after : String}
    (h : place.Holds source before text after) (hne : text ≠ "") : place.start < place.stop := by
  rw [h.start_eq, h.stop_eq, String.utf8ByteSize_append]
  have hpos : text.utf8ByteSize ≠ 0 := fun h => hne (String.utf8ByteSize_eq_zero_iff.mp h)
  omega

/-- The places between others that follow one another, from `start` up to `stop`. -/
def between (start : Nat) (places : List Span) (stop : Nat) : List Span :=
  match places with
  | [] => [⟨start, stop⟩]
  | p :: ps => ⟨start, p.start⟩ :: between p.stop ps stop

end Span

namespace Tiles

variable {source : String} {before cs : List Char} {xs : List Lexeme}

/-- Where the lexemes are, and what they are. -/
theorem lexemes (h : Tiles before cs xs) (hsource : source.toList = before ++ cs) :
    ∀ x ∈ xs, ∃ pre text after, text ≠ "" ∧ x.span.Holds source pre text after ∧
      x.Fits text.toList after.toList := by
  induction h with
  | done => exact fun x hx => absurd hx List.not_mem_nil
  | @next before gap text rest x xs hgap hne hfits hspan hxs ih =>
      rw [← List.append_assoc] at hsource
      intro y hy
      rcases List.mem_cons.mp hy with rfl | hy
      · refine ⟨_, String.ofList text, _, ?_, hspan ▸ Span.holds_ofList hsource, ?_⟩
        · exact fun h => hne (String.ofList_eq_empty_iff.mp h)
        · rwa [String.toList_ofList, String.toList_ofList]
      · exact ih (by rw [hsource, ← List.append_assoc]) y hy

/-- What stands between the lexemes. -/
theorem gaps (h : Tiles before cs xs) (hsource : source.toList = before ++ cs) :
    ∀ place ∈ Span.between (byteLength before) (xs.map Lexeme.span) source.utf8ByteSize,
      ∃ pre text after, place.Holds source pre text after ∧ Gap text.toList after.toList := by
  induction h with
  | @done before gap hgap =>
      intro place hplace
      rw [← List.append_nil gap] at hsource
      have hsize : source.utf8ByteSize = byteLength (before ++ gap) := by
        rw [← byteLength_toList, hsource, List.append_nil]
      rw [hsize] at hplace
      obtain rfl := List.mem_singleton.mp hplace
      exact ⟨_, _, _, Span.holds_ofList hsource, by rwa [String.toList_ofList, String.toList_ofList]⟩
  | @next before gap text rest x xs hgap hne hfits hspan hxs ih =>
      intro place hplace
      rw [List.map_cons, Span.between, hspan] at hplace
      rcases List.mem_cons.mp hplace with rfl | hplace
      · exact ⟨_, _, _, Span.holds_ofList hsource, by rwa [String.toList_ofList, String.toList_ofList]⟩
      · exact ih (by rw [hsource]; simp) place hplace

end Tiles

/-! ## The main theorem -/

/-- The lexemes that a number of calls hand out one after the other. -/
def Reader.calls : Nat → Reader → List Lexeme
  | 0, _ => []
  | n + 1, r => r.next.1 :: calls n r.next.2

theorem Reader.calls_pending (xs : List Lexeme) (last : Token) :
    Reader.calls (xs.length + 1) ⟨xs, none, last⟩ = xs ++ [.ok last] := by
  induction xs with
  | nil => rfl
  | cons x xs ih => exact congrArg (x :: ·) ih

/--
**Lexemes tile a script.** Calling for lexemes reaches the end of file after finitely many calls. The places
of the lexemes before it are not empty, follow one another and end at ends of characters. Each holds the
text of a token that is the longest one there, or text that is none. Blanks and comments are all that lies
before, between and behind them.
-/
theorem Reader.lexemes_tile (source : String) :
    ∃ xs : List Lexeme,
      (∃ n, (Reader.ofSource source).calls n = xs ++ [.ok (Lexeme.last source)]) ∧
      (∀ t, .ok t ∈ xs → t.kind ≠ .eof) ∧
      xs.Pairwise (fun x y => x.span.stop ≤ y.span.start) ∧
      (∀ x ∈ xs, x.span.start < x.span.stop ∧ String.Pos.Raw.IsValid source ⟨x.span.start⟩ ∧
        String.Pos.Raw.IsValid source ⟨x.span.stop⟩ ∧
        ∃ before text after, x.span.Holds source before text after ∧
          x.Fits text.toList after.toList) ∧
      ∀ place ∈ Span.between 0 (xs.map Lexeme.span) source.utf8ByteSize,
        ∃ before text after, place.Holds source before text after ∧ Gap text.toList after.toList := by
  have htiles : Tiles [] source.toList (Lexeme.scan source) := Lexeme.scanFrom_tiles (Nat.le_refl _)
  refine ⟨Lexeme.scan source, ⟨_, Reader.calls_pending _ _⟩, ?_, ?_, ?_, htiles.gaps rfl⟩
  · exact fun t ht => Lexeme.scanFrom_ne_eof _ _ _ ht
  · exact (Lexeme.scanFrom_ordered _ _ _).2
  · intro x hx
    obtain ⟨before, text, after, hne, hholds, hfits⟩ := htiles.lexemes rfl x hx
    obtain ⟨hstart, hstop⟩ := hholds.valid
    exact ⟨hholds.start_lt_stop hne, hstart, hstop, before, text, after, hholds, hfits⟩

end Jaf
