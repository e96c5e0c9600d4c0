import Jaf.Proofs.Parser.Progress
import Jaf.Proofs.Parser.SourceForms

/-!
# Literals and their values

The scanner decides where a literal ends by its pattern, and the parser reads the text that it is handed by
rules of its own. Here the two are shown to fit. A text that is written between quotes, escapes or not, is
scanned as one token whatever stands behind it, and read back as that text. The other way round, whatever
the scanner hands out as a string, a float or a hexadecimal integer has a form that the parser can read: a
string can only fail at an escape that is not known, a float never, and a hexadecimal integer only by its
size.
-/

namespace Jaf

open Spelling Computability

/-! ## Texts between quotes -/

/-- The ways to write a text between quotes: each character by its escape, if it has one, but a line end, a
tab or a return may also stand for itself. -/
inductive Quotes : List Char → List Char → Prop
  | nil : Quotes [] []
  | escape {c : Char} {cs body : List Char} : Quotes cs body → Quotes (c :: cs) (escape c ++ body)
  | raw {c : Char} {cs body : List Char} : c ∈ ['\n', '\t', '\r'] → Quotes cs body →
      Quotes (c :: cs) (c :: body)

/-- A string literal with the given body. -/
def inQuotes (body : List Char) : String := String.ofList ('"' :: (body ++ ['"']))

theorem toList_inQuotes (body : List Char) : (inQuotes body).toList = '"' :: (body ++ ['"']) :=
  String.toList_ofList

theorem Quotes.flatMap_escape (cs : List Char) : Quotes cs (cs.flatMap Jaf.escape) := by
  induction cs with
  | nil => exact .nil
  | cons c cs ih => exact .escape ih

/-- A character that may stand for itself is neither a quote nor a backslash. -/
theorem ne_of_mem_raw {c : Char} (h : c ∈ ['\n', '\t', '\r']) : c ≠ '"' ∧ c ≠ '\\' := by
  simp only [List.mem_cons, List.not_mem_nil, or_false] at h
  rcases h with rfl | rfl | rfl
  · decide
  · decide
  · decide

theorem Quotes.body_mem {cs body : List Char} (h : Quotes cs body) : body ∈ stringPart∗ := by
  induction h with
  | nil => exact Language.nil_mem_kstar _
  | @escape c cs body _ ih => exact append_mem_kstar (escape_mem c) ih
  | @raw c cs body hc _ ih =>
      obtain ⟨hquote, hslash⟩ := ne_of_mem_raw hc
      exact append_mem_kstar (plain_mem_stringPart hquote hslash) ih

/-- What was written is read back. -/
theorem Quotes.unescape {cs body : List Char} (h : Quotes cs body) : Jaf.unescape body = .ok cs := by
  induction h with
  | nil => rfl
  | escape _ ih =>
      rw [unescape_escape, ih]
      rfl
  | raw hc _ ih =>
      rw [unescape_plain (ne_of_mem_raw hc).2, ih]
      rfl

theorem stringLiteral_inQuotes (body : List Char) :
    stringLiteral (inQuotes body) = (unescape body).map String.ofList := by
  rw [stringLiteral, toList_inQuotes, List.drop_succ_cons, List.drop_zero, List.dropLast_concat]

/-! ## Scanning literals -/

/-- A body between quotes is one token, whatever stands behind it. -/
theorem Cut.ofChars_inQuotes {body : List Char} (h : body ∈ stringPart∗) (rest : List Char) :
    Cut.ofChars ((inQuotes body).toList ++ rest) =
      .token (.string (inQuotes body)) (inQuotes body).toList.length := by
  have htext : (inQuotes body).toList ++ rest = '"' :: (body ++ '"' :: rest) := by
    rw [toList_inQuotes, List.cons_append, List.append_assoc]
    rfl
  have hlength : body.length + 1 + 1 = (inQuotes body).toList.length := by
    rw [toList_inQuotes]
    simp
  rw [htext, Cut.ofChars, stringEnd_of_mem h rest]
  dsimp only
  rw [← htext, Cut.keep, hlength, List.take_left, String.ofList_toList]

namespace Lexeme

/-- A text that begins with a token is scanned to that token and to what stands behind it. -/
theorem scan_of_cut {k : Token.Kind} {text rest : String} (hne : text.toList ≠ [])
    (hcut : Cut.ofChars (text.toList ++ rest.toList) = .token k text.toList.length) :
    ∃ xs, scan (text ++ rest) = .ok ⟨k, ⟨0, text.utf8ByteSize⟩⟩ :: xs := by
  obtain ⟨n, hn⟩ : ∃ n, (text.toList ++ rest.toList).length = n + 1 :=
    Nat.exists_eq_succ_of_ne_zero fun h =>
      List.append_ne_nil_of_left_ne_nil hne _ (List.eq_nil_of_length_eq_zero h)
  refine ⟨scanFrom n (0 + text.utf8ByteSize) rest.toList, ?_⟩
  rw [scan, String.toList_append, hn, scanFrom_cut hne hcut n 0, byteLength_toList, Nat.zero_add]

/-- A text that is one token is scanned to that token alone. -/
theorem scan_of_spelled {k : Token.Kind} {text : String} (hk : k.Spelled text.toList) :
    scan text = [.ok ⟨k, ⟨0, text.utf8ByteSize⟩⟩] := by
  have hne : text.toList ≠ [] := token_ne_nil ⟨k, hk.pattern⟩
  obtain ⟨n, hn⟩ : ∃ n, text.toList.length = n + 1 :=
    Nat.exists_eq_succ_of_ne_zero fun h => hne (List.eq_nil_of_length_eq_zero h)
  have hscan := scanFrom_spelled hk parted_nil n 0
  rw [List.append_nil, scanFrom_nil, Nat.zero_add, byteLength_toList] at hscan
  rw [scan, hn]
  exact hscan

/-- Every token of a script is spelled as its kind asks. -/
theorem spelled_of_mem_scan {source : String} {t : Token} (h : .ok t ∈ scan source) :
    ∃ text, t.kind.Spelled text := by
  have htiles : Tiles [] source.toList (scan source) := scanFrom_tiles (Nat.le_refl _)
  obtain ⟨_, text, _, _, _, hfits⟩ := htiles.lexemes rfl (.ok t) h
  exact ⟨text.toList, (hfits.token t rfl).1⟩

end Lexeme

/-! ## Reading literals -/

/-- A string body can only fail at an escape that is not known. -/
theorem unescape_unknown {body : List Char} (h : body ∈ stringPart∗) {e : SyntaxCause}
    (he : unescape body = .error e) : ∃ c, e = .unknownEscape c := by
  obtain ⟨L, rfl, hL⟩ := Language.mem_kstar.mp h
  clear h
  induction L with
  | nil => cases he
  | cons w L ih =>
      obtain ⟨hw, hrest⟩ := List.forall_mem_cons.mp hL
      rw [List.flatten_cons] at he
      rcases hw with ⟨c, hc, rfl⟩ | hw
      · have hslash : c ≠ '\\' := fun h => hc (List.mem_cons_of_mem _ (List.mem_singleton.mpr h))
        rw [List.singleton_append, unescape_plain hslash] at he
        exact ih hrest (error_of_map he)
      · -- a backslash always has the character that it takes along
        obtain ⟨_, rfl, _, ⟨c, _, rfl⟩, rfl⟩ := Language.mem_mul.mp hw
        rw [List.append_assoc, List.singleton_append, List.singleton_append, unescape] at he
        split at he
        · exact ih hrest (error_of_map he)
        · cases he
          exact ⟨c, rfl⟩

/-- Digits behind a sign or none are a whole number. -/
theorem signedValue?_isSome {sign ds : List Char} (hsign : sign = [] ∨ sign = ['+'] ∨ sign = ['-'])
    (hne : ds ≠ []) (hds : ∀ c ∈ ds, c.isDigit = true) : (signedValue? (sign ++ ds)).isSome = true := by
  have hall : ds.all Char.isDigit = true := List.all_eq_true.mpr hds
  rcases hsign with rfl | rfl | rfl
  · obtain ⟨d, ds, rfl⟩ := List.exists_cons_of_ne_nil hne
    have hd := hds d List.mem_cons_self
    have hplus : d ≠ '+' := by rintro rfl; cases hd
    have hminus : d ≠ '-' := by rintro rfl; cases hd
    simp [signedValue?, hplus, hminus, hall]
  · simp [signedValue?, hne, hall]
  · simp [signedValue?, hne, hall]

/-- What follows the digits of a float stops them. -/
theorem stops_exponent {x : List Char} (hx : x ∈ Spelling.optional exponent) : Stops Char.isDigit x := by
  have htail : x ++ [] ∈ tail := Language.append_mem_mul hx (.inl rfl)
  rw [List.append_nil] at htail
  exact stops_tail htail

/-- A decimal with a point can be read if there is a digit on either side of it. -/
theorem Decimal.ofChars?_point_isSome {ds fs x : List Char} (hds : ∀ c ∈ ds, c.isDigit = true)
    (hfs : ∀ c ∈ fs, c.isDigit = true) (hne : ds ≠ [] ∨ fs ≠ [])
    (hx : x ∈ Spelling.optional Spelling.exponent) :
    (Decimal.ofChars? (ds ++ '.' :: (fs ++ x))).isSome = true := by
  have hpoint : Stops Char.isDigit ('.' :: (fs ++ x)) := .cons (by decide) _
  have hstop := stops_exponent hx
  have hempty : ¬ds ++ fs = [] := by
    rw [List.append_eq_nil_iff, not_and_or]
    exact hne
  simp only [ofChars?, takeWhile_run hds hpoint, dropWhile_run hds hpoint, takeWhile_run hfs hstop,
    dropWhile_run hfs hstop]
  rcases hx with rfl | hx
  · rw [if_neg hempty]
    rfl
  · obtain ⟨e, sign, es, he, hsign, ⟨hes, hdigits⟩, rfl⟩ := mem_exponent.mp hx
    obtain ⟨v, hv⟩ := Option.isSome_iff_exists.mp (signedValue?_isSome hsign hes hdigits)
    rcases he with rfl | rfl
    · simp only [hv, Option.bind_eq_bind, Option.bind_some, if_neg hempty, Option.isSome_some]
    · simp only [hv, Option.bind_eq_bind, Option.bind_some, if_neg hempty, Option.isSome_some]

/-- A decimal without a point can be read if there is an exponent. -/
theorem Decimal.ofChars?_exponent_isSome {ds x : List Char} (hds : ∀ c ∈ ds, c.isDigit = true)
    (hne : ds ≠ []) (hx : x ∈ Spelling.exponent) : (Decimal.ofChars? (ds ++ x)).isSome = true := by
  have hstop := stops_exponent (.inr hx)
  obtain ⟨e, sign, es, he, hsign, ⟨hes, hdigits⟩, rfl⟩ := mem_exponent.mp hx
  obtain ⟨v, hv⟩ := Option.isSome_iff_exists.mp (signedValue?_isSome hsign hes hdigits)
  simp only [ofChars?, takeWhile_run hds hstop, dropWhile_run hds hstop]
  rcases he with rfl | rfl
  · simp [hv, hne]
  · simp [hv, hne]

/-- The letter that closes a float is stripped, and nothing else. -/
theorem strip_suffix {core w : List Char} (hw : w ∈ suffix)
    (hcore : ∀ c, core.getLast? = some c → c ≠ 'f' ∧ c ≠ 'F') :
    ((core ++ w).reverse.dropWhile fun c => c == 'f' || c == 'F').reverse = core := by
  have hletter : ∀ c ∈ w.reverse, (c == 'f' || c == 'F') = true := by
    rcases mem_suffix.mp hw with rfl | rfl | rfl
    · exact fun _ hc => absurd hc List.not_mem_nil
    · exact List.forall_mem_singleton.mpr rfl
    · exact List.forall_mem_singleton.mpr rfl
  have hstop : Stops (fun c => c == 'f' || c == 'F') core.reverse := by
    intro c hc
    rw [List.head?_reverse] at hc
    simpa using hcore c hc
  rw [List.reverse_append, dropWhile_run hletter hstop, List.reverse_reverse]

/-- A text that ends in digits does not end in a letter. -/
theorem getLast?_digits (start : List Char) {ds : List Char} (hds : ∀ c ∈ ds, c.isDigit = true)
    (hne : ds ≠ []) :
    ∀ c, (start ++ ds).getLast? = some c → c ≠ 'f' ∧ c ≠ 'F' := by
  intro c hc
  rw [List.getLast?_append_of_ne_nil _ hne] at hc
  have hdigit := hds c (List.mem_of_getLast? hc)
  constructor
  · rintro rfl
    cases hdigit
  · rintro rfl
    cases hdigit

theorem getLast?_exponent (start : List Char) {x : List Char} (hx : x ∈ exponent) :
    ∀ c, (start ++ x).getLast? = some c → c ≠ 'f' ∧ c ≠ 'F' := by
  obtain ⟨e, sign, es, _, _, ⟨hne, hes⟩, rfl⟩ := mem_exponent.mp hx
  have htext : start ++ e :: (sign ++ es) = (start ++ e :: sign) ++ es := by simp
  rw [htext]
  exact getLast?_digits _ hes hne

theorem getLast?_point (ds : List Char) {fs x : List Char} (hfs : ∀ c ∈ fs, c.isDigit = true)
    (hx : x ∈ Spelling.optional exponent) :
    ∀ c, (ds ++ '.' :: (fs ++ x)).getLast? = some c → c ≠ 'f' ∧ c ≠ 'F' := by
  have htext : ds ++ '.' :: (fs ++ x) = (ds ++ '.' :: fs) ++ x := by simp
  rcases hx with rfl | hx
  · have hpoint : ds ++ '.' :: fs = (ds ++ ['.']) ++ fs := by simp
    rw [htext, List.append_nil, hpoint]
    cases fs with
    | nil =>
        intro c hc
        rw [List.append_nil, List.getLast?_concat] at hc
        cases hc
        decide
    | cons d fs => exact getLast?_digits _ hfs (List.cons_ne_nil d fs)
  · rw [htext]
    exact getLast?_exponent _ hx

/-- A float can be read. -/
theorem floatLiteral?_isSome {text : String} (h : text.toList ∈ float) :
    (floatLiteral? text).isSome = true := by
  rw [floatLiteral?, Option.isSome_map]
  obtain ⟨ds, hds, ⟨fs, t, hfs, hne, ht, htext⟩ | ⟨t, ht, hne, htext⟩⟩ := mem_float.mp h
  · obtain ⟨x, hx, w, hw, rfl⟩ := Language.mem_mul.mp ht
    have hsplit : text.toList = ds ++ '.' :: (fs ++ x) ++ w := by simp [htext]
    rw [hsplit, strip_suffix hw (getLast?_point ds hfs hx)]
    exact Decimal.ofChars?_point_isSome hds hfs hne hx
  · obtain ⟨x, hx, w, hw, rfl⟩ := Language.mem_mul.mp ht
    have hsplit : text.toList = ds ++ x ++ w := by simp [htext]
    rw [hsplit, strip_suffix hw (getLast?_exponent ds hx)]
    exact Decimal.ofChars?_exponent_isSome hds hne hx

/-- A hexadecimal integer is rejected by its size alone. -/
theorem hexLiteral?_eq_none {x : Char} {ds : List Char} :
    hexLiteral? (String.ofList ('0' :: x :: ds)) = none ↔ 0x100000000 ≤ digitsValue 16 ds := by
  have hdrop : (String.ofList ('0' :: x :: ds)).toList.drop 2 = ds := by
    rw [String.toList_ofList]
    rfl
  rw [hexLiteral?, hdrop]
  split
  next h => exact ⟨fun h' => (by cases h'), fun h' => by omega⟩
  next h => exact ⟨fun _ => by omega, fun _ => rfl⟩

/-! ## Parsing literals -/

/-- How the parser makes an expression of a literal token, with the note of its place. -/
def Token.Kind.literal? : Token.Kind → Option (Note → Except SyntaxCause Expr)
  | int text => some (ExprParsers.numeric (.integerOutOfRange text) .int (intLiteral? text))
  | hex text => some (ExprParsers.numeric (.integerOutOfRange text) .int (hexLiteral? text))
  | float text => some (ExprParsers.numeric (.malformedFloat text) .float (floatLiteral? text))
  | string text => some fun n => (stringLiteral text).map (.string n)
  | _ => none

section Parsing

open ExprParsers

variable {inner : ExprParsers Reader} {s s' : Stream Reader} {r : Except ParseError Expr}

theorem bind_of_eq {α β : Type} {p : Parser Reader α} {f : α → Parser Reader β} {x : Except ParseError α}
    (h : p s = x.map (·, s')) : (p >>= f) s = x.bind fun a => f a s' := by
  show (p s).bind (fun a => f a.1 a.2) = _
  rw [h]
  cases x <;> rfl

/-- What is parsed up to the end of file is left as it is by a parser that does nothing there. -/
theorem bind_eof {p : Parser Reader Expr} {f : Expr → Parser Reader Expr} (h : p s = r.map (·, s'))
    (hs' : s'.current.kind = .eof)
    (hf : ∀ e place feed previous names, f e ⟨⟨.eof, place⟩, feed, previous, names⟩ =
      .ok (e, ⟨⟨.eof, place⟩, feed, previous, names⟩)) : (p >>= f) s = r.map (·, s') := by
  obtain ⟨⟨kind', place'⟩, feed', previous', names'⟩ := s'
  obtain rfl : kind' = .eof := hs'
  rw [bind_of_eq h]
  cases r with
  | error e => rfl
  | ok e => exact hf e place' feed' previous' names'

/-! Where a layer meets the end of file, it passes on what the layer below it gives. -/

theorem ExprParsers.suffixes_eof (h : inner.primary s = r.map (·, s')) (hs' : s'.current.kind = .eof) :
    (inner.primary >>= suffixes) s = r.map (·, s') := bind_eof h hs' fun _ _ _ _ _ => rfl

theorem ExprParsers.expressionLayer_eof (h : inner.unaryLayer s = r.map (·, s'))
    (hs' : s'.current.kind = .eof) : inner.expressionLayer s = r.map (·, s') := by
  have hbinary : inner.binaryLayer 1 s = r.map (·, s') := bind_eof h hs' fun _ _ _ _ _ => rfl
  have hconditional : inner.conditionalLayer s = r.map (·, s') := bind_eof hbinary hs' fun _ _ _ _ _ => rfl
  have hassignment : inner.assignmentLayer s = r.map (·, s') :=
    bind_eof hconditional hs' fun _ _ _ _ _ => rfl
  exact bind_eof hassignment hs' fun _ _ _ _ _ => rfl

theorem ExprParsers.literal_eq (p : Span) (make : Note → Except SyntaxCause Expr) (s : Stream Reader) :
    literal p make s = ((make (.ofSpan p)).mapError (.grammar p)).map (·, s) := by
  unfold literal
  cases make (.ofSpan p) <;> rfl

/-- A literal in front of the end of file. -/
theorem ExprParsers.unaryLayer_literal {k : Token.Kind} {p : Span} {make : Note → Except SyntaxCause Expr}
    (hk : k.literal? = some make) (last : Token) (hlast : last.kind = .eof) (q : Span) (names : List String) :
    inner.unaryLayer ⟨⟨k, p⟩, ⟨[], none, last⟩, q, names⟩ =
      ((make (.ofSpan p)).mapError (.grammar p)).map (·, ⟨last, ⟨[], none, last⟩, p, names⟩) := by
  have hprimary : inner.primary ⟨⟨k, p⟩, ⟨[], none, last⟩, q, names⟩ =
      ((make (.ofSpan p)).mapError (.grammar p)).map (·, ⟨last, ⟨[], none, last⟩, p, names⟩) := by
    cases k with
    | int text | hex text | float text => cases hk; exact literal_eq p _ _
    | string text =>
        cases hk
        exact literal_eq p (fun n => (stringLiteral text).map (.string n)) _
    | _ => cases hk
  have hsuffixes := suffixes_eof hprimary hlast
  cases k with
  | int | hex | float | string => exact hsuffixes
  | _ => cases hk

/-- An operand in front of the end of file is all that there is to parse. -/
theorem Parser.run_of_unaryLayer {feed rest : Reader} {first : Token} (hnext : feed.next = (.ok first, rest))
    (hs' : s'.current.kind = .eof)
    (h : (exprParsers (rest.left + 1)).unaryLayer ⟨first, rest, .point 0, []⟩ = r.map (·, s')) :
    Parser.expression.run feed = r := by
  have hfeed : Feed.next feed = (.ok first, rest) := hnext
  have hexpression : Parser.expression ⟨first, rest, .point 0, []⟩ = r.map (·, s') :=
    expressionLayer_eof h hs'
  unfold Parser.run
  rw [hfeed]
  dsimp only
  rw [hexpression]
  cases r <;> rfl

/-- A script that is one literal is parsed to its value, or rejected at its place. -/
theorem Parser.run_literal {source : String} {k : Token.Kind} {p : Span}
    {make : Note → Except SyntaxCause Expr} (hscan : Lexeme.scan source = [.ok ⟨k, p⟩])
    (hk : k.literal? = some make) :
    Parser.expression.run (Reader.ofSource source) = (make (.ofSpan p)).mapError (.grammar p) := by
  rw [Reader.ofSource, hscan]
  exact run_of_unaryLayer rfl rfl (unaryLayer_literal hk (Lexeme.last source) rfl (.point 0) [])

end Parsing

/-! ## Strings, floats and hexadecimal integers -/

namespace Token.Kind

theorem spelled_inQuotes {body : List Char} (h : body ∈ stringPart∗) :
    (string (inQuotes body)).Spelled (inQuotes body).toList where
  pattern := Spelling.mem_string.mpr ⟨body, h, toList_inQuotes body⟩
  payload text htext := by
    cases htext
    exact String.ofList_toList.symm
  free text htext := by cases htext

variable {text : String} {w : List Char}

theorem Spelled.inQuotes (h : (string text).Spelled w) : ∃ body ∈ stringPart∗, text = inQuotes body := by
  obtain ⟨body, hbody, rfl⟩ := Spelling.mem_string.mp h.pattern
  exact ⟨body, hbody, h.payload text rfl⟩

theorem Spelled.float (h : (float text).Spelled w) : text.toList ∈ Spelling.float := by
  rw [h.payload text rfl, String.toList_ofList]
  exact h.pattern

theorem Spelled.hex (h : (hex text).Spelled w) : ∃ x ds, text = String.ofList ('0' :: x :: ds) ∧ ds ≠ [] ∧
    ∀ c ∈ ds, isHexDigit c = true := by
  obtain ⟨x, ds, _, ⟨hne, hds⟩, rfl⟩ := Spelling.mem_hex.mp h.pattern
  exact ⟨x, ds, h.payload text rfl, hne, hds⟩

end Token.Kind

/--
**Literals can be read.** A text that is written between quotes, with escapes or with bare line ends, tabs
and returns, is scanned as one token whatever stands behind it, and is parsed to a string literal of that
text. Of all tokens that any script can have, a string is between quotes and fails only at an escape that is
not known, a float always has a value, and a hexadecimal integer has digits and fails only if they take more
than 32 bits.
-/
theorem literals_read :
    (∀ s : String, Quotes s.toList (s.toList.flatMap escape)) ∧
    (∀ (s : String) (body : List Char), Quotes s.toList body →
      (∀ rest : String, ∃ xs, Lexeme.scan (inQuotes body ++ rest) =
        .ok ⟨.string (inQuotes body), ⟨0, (inQuotes body).utf8ByteSize⟩⟩ :: xs) ∧
      Parser.expression.run (Reader.ofSource (inQuotes body)) =
        .ok (.string (.ofSpan ⟨0, (inQuotes body).utf8ByteSize⟩) s)) ∧
    ∀ (source : String) (t : Token), .ok t ∈ Lexeme.scan source →
      (∀ text, t.kind = .string text → (∃ body, text = inQuotes body) ∧
        ∀ e, stringLiteral text = .error e → ∃ c, e = .unknownEscape c) ∧
      (∀ text, t.kind = .float text → (floatLiteral? text).isSome = true) ∧
      ∀ text, t.kind = .hex text → ∃ x ds, text = String.ofList ('0' :: x :: ds) ∧ ds ≠ [] ∧
        (∀ c ∈ ds, isHexDigit c = true) ∧ (hexLiteral? text = none ↔ 0x100000000 ≤ digitsValue 16 ds) := by
  refine ⟨fun s => .flatMap_escape _, fun s body hbody => ⟨fun rest => ?_, ?_⟩, fun source t ht => ?_⟩
  · refine Lexeme.scan_of_cut ?_ (Cut.ofChars_inQuotes hbody.body_mem rest.toList)
    rw [toList_inQuotes]
    exact List.cons_ne_nil _ _
  · have hvalue : stringLiteral (inQuotes body) = .ok s := by
      rw [stringLiteral_inQuotes, hbody.unescape]
      exact congrArg Except.ok String.ofList_toList
    rw [Parser.run_literal (Lexeme.scan_of_spelled (Token.Kind.spelled_inQuotes hbody.body_mem)) rfl, hvalue]
    rfl
  · obtain ⟨w, hw⟩ := Lexeme.spelled_of_mem_scan ht
    refine ⟨fun text hkind => ?_, fun text hkind => ?_, fun text hkind => ?_⟩
    · rw [hkind] at hw
      obtain ⟨body, hbody, rfl⟩ := hw.inQuotes
      refine ⟨⟨body, rfl⟩, fun e he => ?_⟩
      rw [stringLiteral_inQuotes] at he
      exact unescape_unknown hbody (error_of_map he)
    · rw [hkind] at hw
      exact floatLiteral?_isSome hw.float
    · rw [hkind] at hw
      obtain ⟨x, ds, rfl, hne, hds⟩ := hw.hex
      exact ⟨x, ds, rfl, hne, hds, hexLiteral?_eq_none⟩

/-- A text with a line end, a quote and backslashes, and a way to write it. -/
theorem literals_read_mixed :
    Quotes ['a', '\n', '"', '\\', '\n'] ['a', '\n', '\\', '"', '\\', '\\', '\\', 'n'] ∧
      (∃ xs, Lexeme.scan ("\"a\n\\\"\\\\\\n\"" ++ "\"+") =
        .ok ⟨.string "\"a\n\\\"\\\\\\n\"", ⟨0, 10⟩⟩ :: xs) ∧
      Parser.expression.run (Reader.ofSource "\"a\n\\\"\\\\\\n\"") =
        .ok (.string (.ofSpan ⟨0, 10⟩) "a\n\"\\\n") := by
  have hbody : Quotes "a\n\"\\\n".toList ['a', '\n', '\\', '"', '\\', '\\', '\\', 'n'] :=
    .escape (.raw List.mem_cons_self (.escape (.escape (.escape .nil))))
  obtain ⟨hscan, hparse⟩ := literals_read.2.1 "a\n\"\\\n" _ hbody
  exact ⟨hbody, hscan "\"+", hparse⟩

end Jaf
