import Jaf.Lexeme
import Mathlib.Computability.Language

/-!
# How tokens are spelled

Every kind of token has a pattern, the set of texts it can be written as. The patterns are put together
from single characters by sequence, choice and repetition, and say nothing of how a text is scanned:
neither that the longest token is taken nor which of two patterns wins.

After the patterns stand their first consequences, each pattern spelled out as a condition on the
characters of a text. Last come the two facts that make spellings unambiguous: no text is the spelling of
two kinds of token, and a string literal is no beginning of another one.
-/

namespace Jaf

open Computability

namespace Spelling

/-! ## Patterns -/

/-- One given character. -/
def char (c : Char) : Language Char := {[c]}

/-- One character out of a range. -/
def range (first last : Char) : Language Char := {w | ∃ c, (first ≤ c ∧ c ≤ last) ∧ w = [c]}

/-- One character that is none of the given ones. -/
def except (cs : List Char) : Language Char := {w | ∃ c, c ∉ cs ∧ w = [c]}

/-- A pattern that may be left out. -/
def optional (l : Language Char) : Language Char := 1 + l

/-- A pattern one or more times. -/
def repeated (l : Language Char) : Language Char := l * l∗

def wordStart : Language Char := range 'a' 'z' + range 'A' 'Z' + char '_'

def wordPart : Language Char := range 'a' 'z' + range 'A' 'Z' + range '0' '9' + char '_'

def digit : Language Char := range '0' '9'

def hexDigit : Language Char := range '0' '9' + range 'a' 'f' + range 'A' 'F'

/-- The exponent of a float: its letter, a sign or none, digits. -/
def exponent : Language Char :=
  (char 'e' + char 'E') * optional (char '+' + char '-') * repeated digit

/-- The letter that may close a float. -/
def suffix : Language Char := optional (char 'f' + char 'F')

/-- A character between the quotes of a string, or a backslash with the character it takes along. -/
def stringPart : Language Char := except ['"', '\\'] + char '\\' * except ['\n']

/-- Names, and the reserved words among them. -/
def name : Language Char := wordStart * wordPart∗

/-- Integers to base ten. -/
def int : Language Char := repeated digit

/-- Integers to base sixteen, with their mark. -/
def hex : Language Char := char '0' * (char 'x' + char 'X') * repeated hexDigit

/-- Floats: with a point after digits, with a point in front of digits, and with an exponent only. -/
def float : Language Char :=
  repeated digit * char '.' * digit∗ * optional exponent * suffix
    + char '.' * repeated digit * optional exponent * suffix
    + repeated digit * exponent * suffix

/-- String literals, quotes included. -/
def string : Language Char := char '"' * stringPart∗ * char '"'

end Spelling

/-- The texts that a kind of token can be written as. The end of file has none. -/
def Token.Kind.pattern : Token.Kind → Language Char
  | keyword k => {k.text.toList}
  | symbol s => {s.text.toList}
  | name _ => Spelling.name
  | int _ => Spelling.int
  | hex _ => Spelling.hex
  | float _ => Spelling.float
  | string _ => Spelling.string
  | eof => 0

/-- The texts that are tokens of some kind. -/
def Spelling.token : Language Char := {w | ∃ k : Token.Kind, w ∈ k.pattern}

/-- A text is the spelling of a token: it fits the pattern and is what the token carries, and a name is
no reserved word. -/
structure Token.Kind.Spelled (k : Token.Kind) (w : List Char) : Prop where
  pattern : w ∈ k.pattern
  payload : ∀ text, k.payload? = some text → text = String.ofList w
  free : ∀ text, k = .name text → ∀ word : Keyword, text ≠ word.text

namespace Spelling

/-! ## Patterns of one character -/

/-- A pattern holds the texts of one character in a class, and no others. -/
def Singles (l : Language Char) (p : Char → Bool) : Prop := ∀ w, w ∈ l ↔ ∃ c, p c = true ∧ w = [c]

theorem mem_char {c : Char} {w : List Char} : w ∈ char c ↔ w = [c] := Iff.rfl

theorem mem_optional {l : Language Char} {w : List Char} : w ∈ optional l ↔ w = [] ∨ w ∈ l := Iff.rfl

theorem singles_char (c : Char) : Singles (char c) (· == c) := by
  intro w
  simp [mem_char]

theorem singles_range (a b : Char) : Singles (range a b) fun c => a ≤ c && c ≤ b := by
  intro w
  show (∃ c, (a ≤ c ∧ c ≤ b) ∧ w = [c]) ↔ _
  simp

theorem Singles.add {l m : Language Char} {p q : Char → Bool} (hl : Singles l p) (hm : Singles m q) :
    Singles (l + m) fun c => p c || q c := by
  intro w
  rw [Language.mem_add, hl w, hm w]
  simp [or_and_right, exists_or]

theorem Singles.of_eq {l : Language Char} {p q : Char → Bool} (h : Singles l p) (hpq : ∀ c, p c = q c) :
    Singles l q := by
  rwa [← funext hpq]

theorem Singles.mem_kstar {l : Language Char} {p : Char → Bool} (h : Singles l p) {w : List Char} :
    w ∈ l∗ ↔ ∀ c ∈ w, p c = true := by
  rw [Language.mem_kstar]
  constructor
  · rintro ⟨L, rfl, hL⟩ c hc
    obtain ⟨y, hy, hcy⟩ := List.mem_flatten.mp hc
    obtain ⟨d, hd, rfl⟩ := (h y).mp (hL y hy)
    rwa [List.mem_singleton.mp hcy]
  · intro hw
    refine ⟨w.map ([·]), (List.flatMap_singleton' w).symm, fun y hy => ?_⟩
    obtain ⟨c, hc, rfl⟩ := List.mem_map.mp hy
    exact (h _).mpr ⟨c, hw c hc, rfl⟩

theorem Singles.mem_mul {l m : Language Char} {p : Char → Bool} (h : Singles l p) {w : List Char} :
    w ∈ l * m ↔ ∃ c v, p c = true ∧ v ∈ m ∧ w = c :: v := by
  rw [Language.mem_mul]
  constructor
  · rintro ⟨a, ha, v, hv, rfl⟩
    obtain ⟨c, hc, rfl⟩ := (h a).mp ha
    exact ⟨c, v, hc, hv, rfl⟩
  · rintro ⟨c, v, hc, hv, rfl⟩
    exact ⟨[c], (h _).mpr ⟨c, hc, rfl⟩, v, hv, rfl⟩

theorem Singles.mem_repeated {l : Language Char} {p : Char → Bool} (h : Singles l p) {w : List Char} :
    w ∈ repeated l ↔ w ≠ [] ∧ ∀ c ∈ w, p c = true := by
  rw [repeated, h.mem_mul]
  cases w with
  | nil => simp
  | cons c cs => simp [h.mem_kstar]

theorem singles_wordStart : Singles wordStart isWordStart := by
  refine (((singles_range _ _).add (singles_range _ _)).add (singles_char _)).of_eq fun c => ?_
  unfold isWordStart Char.isAlpha Char.isUpper Char.isLower
  simp only [Char.le_def]
  grind

theorem singles_digit : Singles digit Char.isDigit := singles_range _ _

theorem singles_wordPart : Singles wordPart isWordPart := by
  refine ((((singles_range _ _).add (singles_range _ _)).add singles_digit).add (singles_char _)).of_eq
    fun c => ?_
  unfold isWordPart Char.isAlphanum Char.isAlpha Char.isUpper Char.isLower
  simp only [Char.le_def]
  grind

theorem singles_hexDigit : Singles hexDigit isHexDigit :=
  (singles_digit.add (singles_range _ _)).add (singles_range _ _)

/-! ## What the patterns ask of the characters -/

theorem mem_name {w : List Char} :
    w ∈ name ↔ ∃ c cs, isWordStart c = true ∧ (∀ d ∈ cs, isWordPart d = true) ∧ w = c :: cs := by
  simp [name, singles_wordStart.mem_mul, singles_wordPart.mem_kstar]

theorem mem_int {w : List Char} : w ∈ int ↔ w ≠ [] ∧ ∀ c ∈ w, c.isDigit = true :=
  singles_digit.mem_repeated

theorem mem_hex {w : List Char} :
    w ∈ hex ↔ ∃ x ds, (x = 'x' ∨ x = 'X') ∧ (ds ≠ [] ∧ ∀ c ∈ ds, isHexDigit c = true) ∧
      w = '0' :: x :: ds := by
  have hmark : Singles (char 'x' + char 'X') fun c => c == 'x' || c == 'X' :=
    (singles_char _).add (singles_char _)
  simp only [hex, mul_assoc, (singles_char _).mem_mul, hmark.mem_mul, singles_hexDigit.mem_repeated]
  constructor
  · rintro ⟨c, v, hc, ⟨x, ds, hx, hds, rfl⟩, rfl⟩
    rw [beq_iff_eq] at hc
    subst hc
    exact ⟨x, ds, by simpa using hx, hds, rfl⟩
  · rintro ⟨x, ds, hx, hds, rfl⟩
    exact ⟨'0', x :: ds, rfl, ⟨x, ds, by simpa using hx, hds, rfl⟩, rfl⟩

theorem mem_exponent {w : List Char} :
    w ∈ exponent ↔ ∃ e sign ds, (e = 'e' ∨ e = 'E') ∧ (sign = [] ∨ sign = ['+'] ∨ sign = ['-']) ∧
      (ds ≠ [] ∧ ∀ c ∈ ds, c.isDigit = true) ∧ w = e :: (sign ++ ds) := by
  have hletter : Singles (char 'e' + char 'E') fun c => c == 'e' || c == 'E' :=
    (singles_char _).add (singles_char _)
  simp only [exponent, mul_assoc, hletter.mem_mul, Language.mem_mul, mem_optional, Language.mem_add,
    mem_char, singles_digit.mem_repeated]
  constructor
  · rintro ⟨e, v, he, ⟨sign, hsign, ds, hds, rfl⟩, rfl⟩
    exact ⟨e, sign, ds, by simpa using he, hsign, hds, rfl⟩
  · rintro ⟨e, sign, ds, he, hsign, hds, rfl⟩
    exact ⟨e, _, by simpa using he, ⟨sign, hsign, ds, hds, rfl⟩, rfl⟩

theorem mem_suffix {w : List Char} : w ∈ suffix ↔ w = [] ∨ w = ['f'] ∨ w = ['F'] := Iff.rfl

/-- What may follow the digits of a float, as far as it need not. -/
def tail : Language Char := optional exponent * suffix

/-- A float is digits with a point somewhere among them and a tail, or digits with an exponent. -/
theorem mem_float {w : List Char} :
    w ∈ float ↔ ∃ ds, (∀ c ∈ ds, c.isDigit = true) ∧
      ((∃ fs t, (∀ c ∈ fs, c.isDigit = true) ∧ (ds ≠ [] ∨ fs ≠ []) ∧ t ∈ tail ∧
          w = ds ++ '.' :: (fs ++ t)) ∨
        ∃ t ∈ exponent * suffix, ds ≠ [] ∧ w = ds ++ t) := by
  have hpoint : Singles (char '.') (· == '.') := singles_char _
  simp only [float, mul_assoc, Language.mem_add]
  rw [← tail, Language.mem_mul, hpoint.mem_mul, Language.mem_mul]
  simp only [hpoint.mem_mul, Language.mem_mul (l := digit∗), Language.mem_mul (l := repeated digit),
    singles_digit.mem_repeated, singles_digit.mem_kstar]
  constructor
  · rintro ((⟨ds, hds, _, ⟨_, _, hc, ⟨fs, hfs, t, ht, rfl⟩, rfl⟩, rfl⟩ |
      ⟨_, _, hc, ⟨fs, hfs, t, ht, rfl⟩, rfl⟩) | ⟨ds, hds, t, ht, rfl⟩)
    · rw [beq_iff_eq] at hc
      subst hc
      exact ⟨ds, hds.2, .inl ⟨fs, t, hfs, .inl hds.1, ht, rfl⟩⟩
    · rw [beq_iff_eq] at hc
      subst hc
      exact ⟨[], by simp, .inl ⟨fs, t, hfs.2, .inr hfs.1, ht, rfl⟩⟩
    · exact ⟨ds, hds.2, .inr ⟨t, ht, hds.1, rfl⟩⟩
  · rintro ⟨ds, hds, ⟨fs, t, hfs, hne, ht, rfl⟩ | ⟨t, ht, hne, rfl⟩⟩
    · cases ds with
      | nil =>
          have hfs' : fs ≠ [] := hne.resolve_left fun h => h rfl
          exact .inl (.inr ⟨'.', _, rfl, ⟨fs, ⟨hfs', hfs⟩, t, ht, rfl⟩, rfl⟩)
      | cons d ds =>
          have hds' : d :: ds ≠ [] := List.cons_ne_nil d ds
          exact .inl (.inl ⟨d :: ds, ⟨hds', hds⟩, _, ⟨'.', _, rfl, ⟨fs, hfs, t, ht, rfl⟩, rfl⟩, rfl⟩)
    · exact .inr ⟨ds, ⟨hne, hds⟩, t, ht, rfl⟩

theorem mem_string {w : List Char} :
    w ∈ string ↔ ∃ body ∈ stringPart∗, w = '"' :: (body ++ ['"']) := by
  simp only [string, mul_assoc, (singles_char _).mem_mul, Language.mem_mul, mem_char]
  constructor
  · rintro ⟨c, _, hc, ⟨body, hbody, _, rfl, rfl⟩, rfl⟩
    rw [beq_iff_eq] at hc
    exact ⟨body, hbody, by rw [hc]⟩
  · rintro ⟨body, hbody, rfl⟩
    exact ⟨'"', _, rfl, ⟨body, hbody, _, rfl, rfl⟩, rfl⟩

/-- Numbers of any kind. -/
def number : Language Char := int + hex + float

/-! ## What a text begins with -/

/-- The families of tokens, which differ in how their texts begin. -/
inductive Lead where
  | word
  | number
  | quote
  | sign
deriving DecidableEq

/-- The family that the beginning of a text points to. -/
def lead : List Char → Lead
  | [] => .sign
  | c :: cs =>
    if isWordStart c then .word
    else if c.isDigit || c == '.' && cs.head?.any Char.isDigit then .number
    else if c == '"' then .quote
    else .sign

end Spelling

/-- The family a kind of token belongs to. -/
def Token.Kind.lead : Token.Kind → Spelling.Lead
  | keyword _ | name _ => .word
  | int _ | hex _ | float _ => .number
  | string _ => .quote
  | symbol _ | eof => .sign

namespace Spelling

theorem isWordStart_of_isDigit {c : Char} (h : c.isDigit = true) : isWordStart c = false := by
  rw [Bool.eq_false_iff]
  intro hc
  unfold isWordStart Char.isAlpha Char.isUpper Char.isLower at hc
  have hne : c ≠ '_' := by rintro rfl; exact absurd h (by decide)
  unfold Char.isDigit at h
  grind

theorem lead_of_isWordStart {c : Char} {cs : List Char} (h : isWordStart c = true) :
    lead (c :: cs) = .word := by
  simp [lead, h]

theorem lead_of_isDigit {c : Char} {cs : List Char} (h : c.isDigit = true) :
    lead (c :: cs) = .number := by
  simp [lead, isWordStart_of_isDigit h, h]

theorem lead_point {c : Char} {cs : List Char} (h : c.isDigit = true) :
    lead ('.' :: c :: cs) = .number := by
  have hpoint : isWordStart '.' = false := by decide
  simp [lead, hpoint, h]

/-- A number begins with a digit, or with a point and a digit. -/
theorem lead_eq_number {c : Char} {cs : List Char} (h : lead (c :: cs) = .number) :
    c.isDigit = true ∨ c = '.' ∧ ∃ d ds, cs = d :: ds ∧ d.isDigit = true := by
  rw [lead] at h
  split at h
  · cases h
  · split at h
    · rename_i hc
      rw [Bool.or_eq_true, Bool.and_eq_true, beq_iff_eq] at hc
      refine hc.imp_right fun hpoint => ⟨hpoint.1, ?_⟩
      cases cs with
      | nil => exact absurd hpoint.2 (by simp)
      | cons d ds => exact ⟨d, ds, rfl, hpoint.2⟩
    · split at h
      · cases h
      · cases h

theorem lead_quote (cs : List Char) : lead ('"' :: cs) = .quote := by
  have hword : isWordStart '"' = false := by decide
  have hdigit : '"'.isDigit = false := by decide
  simp [lead, hword, hdigit]

theorem lead_sign {c : Char} {cs : List Char} (hword : ¬ isWordStart c = true)
    (hdigit : ¬ c.isDigit = true) (hquote : c ≠ '"')
    (hpoint : c = '.' → ∀ d, cs.head? = some d → ¬ d.isDigit = true) : lead (c :: cs) = .sign := by
  have hnumber : ¬ (c.isDigit || c == '.' && cs.head?.any Char.isDigit) = true := by
    rw [Bool.or_eq_true, Bool.and_eq_true, beq_iff_eq, Option.any_eq_true]
    rintro (h | ⟨hc, d, hd, hdigit'⟩)
    · exact hdigit h
    · exact hpoint hc d hd hdigit'
  rw [lead, if_neg hword, if_neg hnumber, if_neg (by simpa using hquote)]

theorem lead_name {w : List Char} (h : w ∈ name) : lead w = .word := by
  obtain ⟨c, cs, hc, _, rfl⟩ := mem_name.mp h
  exact lead_of_isWordStart hc

theorem lead_int {w : List Char} (h : w ∈ int) : lead w = .number := by
  obtain ⟨hne, hw⟩ := mem_int.mp h
  obtain ⟨c, cs, rfl⟩ := List.exists_cons_of_ne_nil hne
  exact lead_of_isDigit (hw c List.mem_cons_self)

theorem lead_hex {w : List Char} (h : w ∈ hex) : lead w = .number := by
  obtain ⟨x, ds, _, _, rfl⟩ := mem_hex.mp h
  exact lead_of_isDigit (by decide)

theorem lead_float {w : List Char} (h : w ∈ float) : lead w = .number := by
  obtain ⟨ds, hds, hw⟩ := mem_float.mp h
  cases ds with
  | cons d ds =>
      have hd : d.isDigit = true := hds d List.mem_cons_self
      obtain ⟨fs, t, _, _, _, rfl⟩ | ⟨t, _, _, rfl⟩ := hw
      · exact lead_of_isDigit hd
      · exact lead_of_isDigit hd
  | nil =>
      obtain ⟨fs, t, hfs, hne, _, rfl⟩ | ⟨_, _, hne, _⟩ := hw
      · obtain ⟨f, fs, rfl⟩ := List.exists_cons_of_ne_nil (hne.resolve_left fun h => h rfl)
        exact lead_point (hfs f List.mem_cons_self)
      · exact absurd rfl hne

theorem lead_string {w : List Char} (h : w ∈ string) : lead w = .quote := by
  obtain ⟨body, _, rfl⟩ := mem_string.mp h
  exact lead_quote _

theorem lead_symbol (s : Symbol) : lead s.text.toList = .sign := by cases s <;> rfl

/-- Reserved words are spelled like names. -/
theorem keyword_mem_name (k : Keyword) : k.text.toList ∈ name := by
  have hparts : k.text.toList.all isWordPart = true := by cases k <;> rfl
  have hstart : k.text.toList.head?.any isWordStart = true := by cases k <;> rfl
  cases hk : k.text.toList with
  | nil => rw [hk] at hstart; cases hstart
  | cons c cs =>
      rw [hk] at hstart hparts
      rw [List.all_cons, Bool.and_eq_true, List.all_eq_true] at hparts
      exact mem_name.mpr ⟨c, cs, hstart, hparts.2, rfl⟩

/-- The beginning of a text tells the family of the token it is. -/
theorem lead_of_mem_pattern {k : Token.Kind} {w : List Char} (h : w ∈ k.pattern) : lead w = k.lead := by
  cases k with
  | keyword word => cases h; exact lead_name (keyword_mem_name word)
  | symbol s => cases h; exact lead_symbol s
  | name => exact lead_name h
  | int => exact lead_int h
  | hex => exact lead_hex h
  | float => exact lead_float h
  | string => exact lead_string h
  | eof => exact h.elim

/-- A text and a beginning of it point to the same family, unless the beginning is a lone point. -/
theorem lead_of_isPrefix {w cs : List Char} (h : w <+: cs) (hw : w ≠ []) :
    lead w = lead cs ∨ w = ['.'] := by
  obtain ⟨c, w, rfl⟩ := List.exists_cons_of_ne_nil hw
  obtain ⟨rest, rfl⟩ := h
  cases w with
  | cons d w => exact .inl rfl
  | nil =>
      by_cases hc : c = '.'
      · exact .inr (by rw [hc])
      · exact .inl (by simp [lead, hc])

theorem token_ne_nil {w : List Char} (h : w ∈ token) : w ≠ [] := by
  rintro rfl
  obtain ⟨k, hk⟩ := h
  have hlead : Lead.sign = k.lead := lead_of_mem_pattern hk
  cases k with
  | symbol s => cases s <;> cases hk
  | eof => exact hk.elim
  | _ => cases hlead

theorem mem_name_of_lead {w : List Char} (h : w ∈ token) (hw : lead w = .word) : w ∈ name := by
  obtain ⟨k, hk⟩ := h
  rw [lead_of_mem_pattern hk] at hw
  cases k with
  | keyword word => cases hk; exact keyword_mem_name word
  | name => exact hk
  | _ => cases hw

theorem mem_number_of_lead {w : List Char} (h : w ∈ token) (hw : lead w = .number) : w ∈ number := by
  obtain ⟨k, hk⟩ := h
  rw [lead_of_mem_pattern hk] at hw
  cases k with
  | int => exact .inl (.inl hk)
  | hex => exact .inl (.inr hk)
  | float => exact .inr hk
  | _ => cases hw

theorem mem_string_of_lead {w : List Char} (h : w ∈ token) (hw : lead w = .quote) : w ∈ string := by
  obtain ⟨k, hk⟩ := h
  rw [lead_of_mem_pattern hk] at hw
  cases k with
  | string => exact hk
  | _ => cases hw

theorem symbol_of_lead {w : List Char} (h : w ∈ token) (hw : lead w = .sign) :
    ∃ s : Symbol, w = s.text.toList := by
  obtain ⟨k, hk⟩ := h
  rw [lead_of_mem_pattern hk] at hw
  cases k with
  | symbol s => exact ⟨s, hk⟩
  | eof => exact hk.elim
  | _ => cases hw

/-! ## One text, one token -/

/-- Where the digits at the head of a float end, a point or the letter of the exponent stands. -/
theorem float_split {w : List Char} (h : w ∈ float) :
    ∃ ds c m, (∀ d ∈ ds, d.isDigit = true) ∧ (c = '.' ∨ c = 'e' ∨ c = 'E') ∧ w = ds ++ c :: m := by
  obtain ⟨ds, hds, ⟨fs, t, _, _, _, rfl⟩ | ⟨t, ht, _, rfl⟩⟩ := mem_float.mp h
  · exact ⟨ds, '.', fs ++ t, hds, .inl rfl, rfl⟩
  · obtain ⟨x, hx, u, _, rfl⟩ := Language.mem_mul.mp ht
    obtain ⟨e, sign, es, he, _, _, rfl⟩ := mem_exponent.mp hx
    exact ⟨ds, e, sign ++ es ++ u, hds, .inr he, rfl⟩

theorem int_not_hex {w : List Char} (h : w ∈ int) : w ∉ hex := by
  intro h'
  obtain ⟨x, ds, hx, _, rfl⟩ := mem_hex.mp h'
  have hdigit : x.isDigit = true := (mem_int.mp h).2 x (by simp)
  rcases hx with rfl | rfl
  · exact absurd hdigit (by decide)
  · exact absurd hdigit (by decide)

theorem int_not_float {w : List Char} (h : w ∈ int) : w ∉ float := by
  intro h'
  obtain ⟨ds, c, m, _, hc, rfl⟩ := float_split h'
  have hdigit : c.isDigit = true := (mem_int.mp h).2 c (by simp)
  rcases hc with rfl | rfl | rfl
  · exact absurd hdigit (by decide)
  · exact absurd hdigit (by decide)
  · exact absurd hdigit (by decide)

theorem hex_not_float {w : List Char} (h : w ∈ hex) : w ∉ float := by
  intro h'
  obtain ⟨x, xs, hx, _, rfl⟩ := mem_hex.mp h
  obtain ⟨ds, c, m, hds, hc, heq⟩ := float_split h'
  -- the mark is the second character, and neither a digit nor what can follow the digits of a float
  have hmark : x.isDigit = false ∧ x ≠ '.' ∧ x ≠ 'e' ∧ x ≠ 'E' := by
    rcases hx with rfl | rfl
    · decide
    · decide
  cases ds with
  | nil => cases heq; exact absurd hc (by decide)
  | cons d ds =>
      cases ds with
      | nil =>
          cases heq
          rcases hc with rfl | rfl | rfl
          · exact hmark.2.1 rfl
          · exact hmark.2.2.1 rfl
          · exact hmark.2.2.2 rfl
      | cons d' ds =>
          cases heq
          exact Bool.eq_false_iff.mp hmark.1 (hds x (by simp))

end Spelling

theorem Keyword.ofText?_text (k : Keyword) : Keyword.ofText? k.text = some k := by cases k <;> rfl

theorem Symbol.ofChars?_text (s : Symbol) : Symbol.ofChars? s.text.toList = some s := by
  cases s <;> rfl

open Spelling in
/-- A text is the spelling of at most one token. -/
theorem Token.Kind.Spelled.unique {k k' : Token.Kind} {w : List Char} (h : k.Spelled w)
    (h' : k'.Spelled w) : k = k' := by
  have hlead : k.lead = k'.lead := (lead_of_mem_pattern h.pattern).symm.trans (lead_of_mem_pattern h'.pattern)
  cases k with
  | keyword a =>
      cases k' with
      | keyword b =>
          have htext : a.text = b.text := String.toList_inj.mp (h.pattern.symm.trans h'.pattern)
          have hab : some a = some b := by
            rw [← Keyword.ofText?_text a, htext, Keyword.ofText?_text]
          cases hab
          rfl
      | name text =>
          have htext : text = a.text := by rw [h'.payload text rfl, h.pattern, String.ofList_toList]
          exact absurd htext (h'.free text rfl a)
      | _ => cases hlead
  | name text =>
      cases k' with
      | keyword b =>
          have htext : text = b.text := by rw [h.payload text rfl, h'.pattern, String.ofList_toList]
          exact absurd htext (h.free text rfl b)
      | name text' => rw [h.payload text rfl, h'.payload text' rfl]
      | _ => cases hlead
  | symbol s =>
      cases k' with
      | symbol s' =>
          have hss : some s = some s' := by
            rw [← Symbol.ofChars?_text s, ← Symbol.ofChars?_text s', ← h.pattern, ← h'.pattern]
          cases hss
          rfl
      | eof => exact h'.pattern.elim
      | _ => cases hlead
  | int text =>
      cases k' with
      | int text' => rw [h.payload text rfl, h'.payload text' rfl]
      | hex => exact absurd h'.pattern (int_not_hex h.pattern)
      | float => exact absurd h'.pattern (int_not_float h.pattern)
      | _ => cases hlead
  | hex text =>
      cases k' with
      | int => exact absurd h.pattern (int_not_hex h'.pattern)
      | hex text' => rw [h.payload text rfl, h'.payload text' rfl]
      | float => exact absurd h'.pattern (hex_not_float h.pattern)
      | _ => cases hlead
  | float text =>
      cases k' with
      | int => exact absurd h.pattern (int_not_float h'.pattern)
      | hex => exact absurd h.pattern (hex_not_float h'.pattern)
      | float text' => rw [h.payload text rfl, h'.payload text' rfl]
      | _ => cases hlead
  | string text =>
      cases k' with
      | string text' => rw [h.payload text rfl, h'.payload text' rfl]
      | _ => cases hlead
  | eof => exact h.pattern.elim

end Jaf
