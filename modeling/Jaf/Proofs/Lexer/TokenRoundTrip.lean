import Jaf.Proofs.Lexer.Tiling

/-!
# Scanning undoes writing

Tokens that are written with a blank between each two come back when the text is scanned. The scanner is
not opened for that: a right cut of a token with a blank behind it can only be that token. No comment
begins there, the text is a token, so it is not bad, and a longer token would have the blank inside of it,
which only string literals do; but a string literal is no beginning of another one.
-/

namespace Jaf

open Spelling

/-! ## Blanks in tokens -/

theorem blank_not_mem_tail {t : List Char} (ht : t ∈ tail) : ' ' ∉ t := by
  obtain ⟨x, hx, w, hw, rfl⟩ := Language.mem_mul.mp ht
  have hsuffix : ' ' ∉ w := by
    rcases mem_suffix.mp hw with rfl | rfl | rfl
    · decide
    · decide
    · decide
  have hexponent : ' ' ∉ x := by
    rcases hx with rfl | hx
    · decide
    · obtain ⟨e, sign, ds, he, hsign, ⟨_, hds⟩, rfl⟩ := mem_exponent.mp hx
      have hdigits : ' ' ∉ ds := fun h => absurd (hds ' ' h) (by decide)
      rcases he with rfl | rfl <;> rcases hsign with rfl | rfl | rfl <;> simpa using hdigits
  simp [hexponent, hsuffix]

theorem blank_not_mem_number {w : List Char} (hw : w ∈ number) : ' ' ∉ w := by
  have hdigits : ∀ ds : List Char, (∀ c ∈ ds, c.isDigit = true) → ' ' ∉ ds :=
    fun ds hds h => absurd (hds ' ' h) (by decide)
  rcases hw with (hw | hw) | hw
  · exact hdigits w (mem_int.mp hw).2
  · obtain ⟨x, ds, hx, ⟨_, hds⟩, rfl⟩ := mem_hex.mp hw
    have hhex : ' ' ∉ ds := fun h => absurd (hds ' ' h) (by decide)
    rcases hx with rfl | rfl
    · simpa using hhex
    · simpa using hhex
  · obtain ⟨ds, hds, ⟨fs, t, hfs, _, ht, rfl⟩ | ⟨t, ht, _, rfl⟩⟩ := mem_float.mp hw
    · simp [hdigits ds hds, hdigits fs hfs, blank_not_mem_tail ht]
    · obtain ⟨x, hx, u, hu, rfl⟩ := Language.mem_mul.mp ht
      have htail := blank_not_mem_tail (Language.append_mem_mul (.inr hx) hu)
      simp only [List.mem_append, not_or] at htail ⊢
      exact ⟨hdigits ds hds, htail⟩

/-- Only string literals have blanks inside of them. -/
theorem mem_string_of_blank {w : List Char} (hw : w ∈ token) (hblank : ' ' ∈ w) : w ∈ string := by
  cases hlead : lead w with
  | quote => exact mem_string_of_lead hw hlead
  | word =>
      obtain ⟨c, cs, hc, hcs, rfl⟩ := mem_name.mp (mem_name_of_lead hw hlead)
      rcases List.mem_cons.mp hblank with rfl | h
      · exact absurd hc (by decide)
      · exact absurd (hcs ' ' h) (by decide)
  | number => exact absurd hblank (blank_not_mem_number (mem_number_of_lead hw hlead))
  | sign =>
      obtain ⟨s, rfl⟩ := symbol_of_lead hw hlead
      exact absurd hblank (by cases s <;> decide)

/-! ## One token -/

theorem blank_not_head {c : Char} {w : List Char} (h : c :: w ∈ token) :
    c ∉ [' ', '\t', '\n', '\r', '\x0c'] := by
  intro hc
  have hlead : lead (c :: w) = .sign := by
    simp only [List.mem_cons, List.not_mem_nil, or_false] at hc
    rcases hc with rfl | rfl | rfl | rfl | rfl <;> rfl
  obtain ⟨s, hs⟩ := symbol_of_lead h hlead
  have hsymbol : s.text.toList.head?.all (!isBlank ·) = true := by cases s <;> rfl
  rw [← hs] at hsymbol
  have hblank : isBlank c = true := by
    simp only [List.mem_cons, List.not_mem_nil, or_false] at hc
    rcases hc with rfl | rfl | rfl | rfl | rfl <;> rfl
  simp [hblank] at hsymbol

/-- The tokens that begin with a slash. -/
theorem slash_head {w : List Char} (h : '/' :: w ∈ token) : w = [] ∨ w = ['='] := by
  obtain ⟨s, hs⟩ := symbol_of_lead h rfl
  cases s <;> cases hs
  · exact .inl rfl
  · exact .inr rfl

/-- What may come after a token: nothing, or a blank. -/
def Parted (rest : List Char) : Prop := ∀ c, rest.head? = some c → c = ' '

theorem parted_nil : Parted [] := by
  intro c hc
  cases hc

theorem parted_blank (cs : List Char) : Parted (' ' :: cs) := by
  intro c hc
  cases hc
  rfl

/-- Neither a line comment nor a block comment begins with a token. -/
theorem not_comment {w rest cs : List Char} {c : Char} (hw : w ∈ token) (hrest : Parted rest)
    (h : w ++ rest = '/' :: c :: cs) : c ≠ '/' ∧ c ≠ '*' := by
  obtain ⟨d, w, rfl⟩ := List.exists_cons_of_ne_nil (token_ne_nil hw)
  obtain ⟨rfl, htail⟩ := List.cons.inj h
  rcases slash_head hw with rfl | rfl
  · have hcs : rest = c :: cs := htail
    obtain rfl : c = ' ' := hrest c (by rw [hcs]; rfl)
    decide
  · obtain ⟨rfl, _⟩ := List.cons.inj htail
    decide

/-- A token is no beginning of a longer one that goes on with a blank. -/
theorem eq_of_isPrefix {v w rest : List Char} (hw : w ∈ token) (hrest : Parted rest) (hv : v ∈ token)
    (hwv : w <+: v) (h : v <+: w ++ rest) : v = w := by
  obtain ⟨u, rfl⟩ := hwv
  cases u with
  | nil => exact List.append_nil w
  | cons c u =>
      -- the longer token has the blank inside, so it is a string, and then both are
      obtain ⟨u', hu'⟩ := (List.prefix_append_right_inj w).mp h
      obtain rfl : c = ' ' := hrest c (by rw [← hu']; rfl)
      have hstring : w ++ ' ' :: u ∈ string := mem_string_of_blank hv (by simp)
      obtain ⟨body, _, hbody⟩ := mem_string.mp hstring
      obtain ⟨d, w, rfl⟩ := List.exists_cons_of_ne_nil (token_ne_nil hw)
      obtain ⟨rfl, _⟩ := List.cons.inj hbody
      have hw' : '"' :: w ∈ string := mem_string_of_lead hw (lead_quote w)
      have hend := stringEnd_of_isPrefix hw' (List.prefix_append ('"' :: w) (' ' :: u))
      have hend' := stringEnd_of_isPrefix hstring (List.prefix_refl _)
      have hlength := congrArg Prod.snd (hend.symm.trans hend')
      simp at hlength

/-- A token is cut off a text that goes on with a blank. -/
theorem Cut.ofChars_spelled {k : Token.Kind} {w rest : List Char} (hk : k.Spelled w)
    (hrest : Parted rest) : Cut.ofChars (w ++ rest) = .token k w.length := by
  have hw : w ∈ Spelling.token := ⟨k, hk.pattern⟩
  have hright := Cut.right_ofChars (List.append_ne_nil_of_left_ne_nil (token_ne_nil hw) rest)
  generalize Cut.ofChars (w ++ rest) = cut at hright
  generalize hcs : w ++ rest = cs at hright
  cases hright with
  | gap hne hgap =>
      exfalso
      cases hgap with
      | none => exact hne rfl
      | blank hc =>
          obtain ⟨d, w, rfl⟩ := List.exists_cons_of_ne_nil (token_ne_nil hw)
          obtain ⟨rfl, _⟩ := List.cons.inj hcs
          exact blank_not_head hw hc
      | line => exact (not_comment hw hrest hcs).1 rfl
      | block => exact (not_comment hw hrest hcs).2 rfl
  | bad hbad =>
      exfalso
      cases hbad with
      | comment => exact (not_comment hw hrest hcs).2 rfl
      | string hnone => exact hnone w hw ⟨rest, hcs⟩
      | char hnone => exact hnone w hw ⟨rest, hcs⟩
  | @token kind text after hspelled hlongest =>
      have htext : text ∈ Spelling.token := ⟨kind, hspelled.pattern⟩
      have hprefix : text <+: w ++ rest := ⟨after, hcs.symm⟩
      have hle : w.length ≤ text.length := hlongest w hw ⟨rest, hcs⟩
      have hwtext : w <+: text := List.prefix_of_prefix_length_le ⟨rest, rfl⟩ hprefix hle
      obtain rfl := eq_of_isPrefix hw hrest htext hwtext hprefix
      rw [hspelled.unique hk]

/-- Spellings can be checked by scanning: they are the texts that are one token. -/
theorem Token.Kind.spelled_iff {k : Token.Kind} {w : List Char} :
    k.Spelled w ↔ Cut.ofChars w = .token k w.length := by
  constructor
  · intro hk
    have hcut := Cut.ofChars_spelled hk parted_nil
    rwa [List.append_nil] at hcut
  · intro hcut
    have hne : w ≠ [] := by
      rintro rfl
      cases hcut
    have hright := Cut.right_ofChars hne
    rw [hcut] at hright
    generalize hlength : w.length = n at hright
    generalize hcs : w = cs at hright
    cases hright with
    | @token _ text after hspelled _ =>
        have hafter : after = [] := by
          rw [hcs, List.length_append] at hlength
          exact List.eq_nil_of_length_eq_zero (by omega)
        rwa [hafter, List.append_nil]

instance (k : Token.Kind) (w : List Char) : Decidable (k.Spelled w) :=
  decidable_of_iff _ Token.Kind.spelled_iff.symm

/-! ## Many tokens -/

/-- The text a token is written as. -/
def Token.Kind.spelling : Token.Kind → String
  | keyword k => k.text
  | symbol s => s.text
  | name text | int text | hex text | float text | string text => text
  | eof => ""

/-- Tokens written one after the other, with a blank between each two. -/
def Token.Kind.written (ks : List Token.Kind) : String := String.intercalate " " (ks.map spelling)

theorem Token.Kind.toList_written_singleton (k : Token.Kind) :
    (written [k]).toList = k.spelling.toList := by
  simp [written]

theorem Token.Kind.toList_written_cons (k k' : Token.Kind) (ks : List Token.Kind) :
    (written (k :: k' :: ks)).toList = k.spelling.toList ++ ' ' :: (written (k' :: ks)).toList := by
  simp [written, String.toList_intercalate, List.intercalate]

namespace Lexeme

theorem scanFrom_nil (fuel start : Nat) : scanFrom fuel start [] = [] := by cases fuel <;> rfl

/-- A token at the head of a text is handed out first. -/
theorem scanFrom_cut {k : Token.Kind} {w rest : List Char} (hne : w ≠ [])
    (hcut : Cut.ofChars (w ++ rest) = .token k w.length) (fuel start : Nat) :
    scanFrom (fuel + 1) start (w ++ rest) =
      .ok ⟨k, ⟨start, start + byteLength w⟩⟩ :: scanFrom fuel (start + byteLength w) rest := by
  cases hcs : w ++ rest with
  | nil => exact absurd hcs (List.append_ne_nil_of_left_ne_nil hne rest)
  | cons c cs =>
      rw [scanFrom, ← hcs, hcut]
      simp only [Cut.length, List.take_left, List.drop_left]

theorem scanFrom_spelled {k : Token.Kind} {w rest : List Char} (hk : k.Spelled w) (hrest : Parted rest)
    (fuel start : Nat) :
    scanFrom (fuel + 1) start (w ++ rest) =
      .ok ⟨k, ⟨start, start + byteLength w⟩⟩ :: scanFrom fuel (start + byteLength w) rest :=
  scanFrom_cut (token_ne_nil ⟨k, hk.pattern⟩) (Cut.ofChars_spelled hk hrest) fuel start

theorem scanFrom_blank (fuel start : Nat) (cs : List Char) :
    scanFrom (fuel + 1) start (' ' :: cs) = scanFrom fuel (start + 1) cs := rfl

/-- Written tokens come back. -/
theorem scanFrom_written {ks : List Token.Kind} (hks : ∀ k ∈ ks, k.Spelled k.spelling.toList)
    {fuel : Nat} (start : Nat) (hfuel : (Token.Kind.written ks).toList.length ≤ fuel) :
    ∃ us : List Token, scanFrom fuel start (Token.Kind.written ks).toList = us.map .ok ∧
      us.map Token.kind = ks := by
  induction ks generalizing fuel start with
  | nil => exact ⟨[], scanFrom_nil _ _, rfl⟩
  | cons k ks ih =>
      obtain ⟨hk, hks⟩ := List.forall_mem_cons.mp hks
      have hpos : 0 < k.spelling.toList.length :=
        List.length_pos_of_ne_nil (token_ne_nil ⟨k, hk.pattern⟩)
      cases ks with
      | nil =>
          rw [Token.Kind.toList_written_singleton] at hfuel ⊢
          obtain ⟨fuel, rfl⟩ := Nat.exists_eq_add_one_of_ne_zero (n := fuel) (by omega)
          rw [← List.append_nil k.spelling.toList, scanFrom_spelled hk parted_nil, scanFrom_nil]
          exact ⟨[_], rfl, rfl⟩
      | cons k' ks =>
          rw [Token.Kind.toList_written_cons, List.length_append, List.length_cons] at hfuel
          obtain ⟨fuel, rfl⟩ := Nat.exists_eq_add_of_le' (m := 2) (n := fuel) (by omega)
          have hrest : (Token.Kind.written (k' :: ks)).toList.length ≤ fuel := by omega
          obtain ⟨us, hus, hkinds⟩ := ih hks _ hrest
          rw [Token.Kind.toList_written_cons, scanFrom_spelled hk (parted_blank _), scanFrom_blank, hus]
          exact ⟨_ :: us, rfl, by rw [List.map_cons, hkinds]⟩

theorem mapM_id_map_ok (ts : List Token) : (ts.map .ok : List Lexeme).mapM id = .ok ts := by
  induction ts with
  | nil => rfl
  | cons t ts ih =>
      rw [List.map_cons, List.mapM_cons, ih]
      rfl

/--
**Scanning undoes writing.** Tokens that are written with a blank between each two come back, all of them
and in order, and the end of file stands at the end of the text.
-/
theorem tokens_written (ks : List Token.Kind) (hks : ∀ k ∈ ks, k.Spelled k.spelling.toList) :
    ∃ us : List Token, us.map Token.kind = ks ∧
      tokens (Token.Kind.written ks) =
        .ok (us ++ [⟨.eof, .point (Token.Kind.written ks).utf8ByteSize⟩]) := by
  obtain ⟨us, hscan, hkinds⟩ := scanFrom_written hks 0 (Nat.le_refl _)
  refine ⟨us, hkinds, ?_⟩
  rw [tokens, stream, scan, hscan, ← mapM_id_map_ok, List.map_append]
  rfl

/-- Symbols that could run into each other or into a comment, a string with both sorts of comment and a
quote in it, and numbers of several forms. -/
def crowd : List Token.Kind :=
  [.symbol .slash, .symbol .star, .string "\"/* \\\" //\"", .int "0", .name "x1", .hex "0Xe5",
    .float "1.e5f", .symbol .dot, .float ".5", .keyword .kwIf]

theorem tokens_written_crowd :
    (∀ k ∈ crowd, k.Spelled k.spelling.toList) ∧ ∃ us : List Token, us.map Token.kind = crowd ∧
      tokens "/ * \"/* \\\" //\" 0 x1 0Xe5 1.e5f . .5 if" = .ok (us ++ [⟨.eof, .point 38⟩]) := by
  have hks : ∀ k ∈ crowd, k.Spelled k.spelling.toList := by decide +kernel
  have hwritten : Token.Kind.written crowd = "/ * \"/* \\\" //\" 0 x1 0Xe5 1.e5f . .5 if" := by decide +kernel
  have hcrowd := tokens_written crowd hks
  rw [hwritten] at hcrowd
  exact ⟨hks, hcrowd⟩

end Lexeme

end Jaf
