import Jaf.Proofs.Lexer.TokenRoundTrip

/-!
# A source form for every expression

An expression is written with each expression inside of it in parentheses, so nothing hangs on how tightly
operators bind. An integer below zero has no literal of its own, a sign being an operator; it is written as
the hexadecimal literal of its bit pattern. Here is what the tokens of that form are, that they can be
spelled, and that the literals among them have the values they were written for.

Float literals are left out: a number in single precision need not have a literal.
-/

namespace Jaf

/-! ## The tokens of an expression -/

/-- The symbol of a binary operator. -/
def BinaryOp.symbol : BinaryOp → Symbol
  | add => .plus
  | sub => .minus
  | mul => .star
  | div => .slash
  | mod => .percent
  | bitAnd => .amp
  | bitOr => .bar
  | bitXor => .caret
  | shl => .ltLt
  | shr => .gtGt
  | logAnd => .ampAmp
  | logOr => .barBar
  | eq => .eqEq
  | ne => .bangEq
  | lt => .lt
  | le => .ltEq
  | gt => .gt
  | ge => .gtEq

/-- The symbol of an assignment. -/
def AssignOp.symbol : AssignOp → Symbol
  | set => .eq
  | add => .plusEq
  | sub => .minusEq
  | mul => .starEq
  | div => .slashEq
  | mod => .percentEq
  | bitAnd => .ampEq
  | bitOr => .barEq
  | bitXor => .caretEq
  | shl => .ltLtEq
  | shr => .gtGtEq

/-- The operator on its side of an operand. -/
def UnaryOp.render : UnaryOp → List Token.Kind → List Token.Kind
  | neg, ks => .symbol .minus :: ks
  | not, ks => .symbol .bang :: ks
  | bitNot, ks => .symbol .tilde :: ks
  | preInc, ks => .symbol .plusPlus :: ks
  | preDec, ks => .symbol .minusMinus :: ks
  | postInc, ks => ks ++ [.symbol .plusPlus]
  | postDec, ks => ks ++ [.symbol .minusMinus]

/-- How a character is written between quotes. -/
def escape : Char → List Char
  | '\n' => ['\\', 'n']
  | '\t' => ['\\', 't']
  | '\r' => ['\\', 'r']
  | '\x00' => ['\\', '0']
  | '\\' => ['\\', '\\']
  | '"' => ['\\', '"']
  | c => [c]

namespace Token.Kind

/-- The literal of an integer: decimal, or the bit pattern in hexadecimal if it is below zero. -/
def ofInt (v : Int32) : Token.Kind :=
  if v < 0 then hex (String.ofList ('0' :: 'x' :: Nat.toDigits 16 v.toUInt32.toNat))
  else int (String.ofList (Nat.toDigits 10 v.toNatClampNeg))

/-- The literal of a text. -/
def ofText (text : String) : Token.Kind :=
  string (String.ofList ('"' :: (text.toList.flatMap escape ++ ['"'])))

/-- The word for a kind of type. -/
def ofType (t : TypeKind) : Token.Kind :=
  match Keyword.ofText? t.text with
  | some word => keyword word
  | none => name t.text

/-- Tokens in parentheses. -/
def enclose (ks : List Token.Kind) : List Token.Kind := symbol .leftParen :: (ks ++ [symbol .rightParen])

@[simp] theorem length_enclose (ks : List Token.Kind) : (enclose ks).length = ks.length + 2 := by
  simp [enclose]

end Token.Kind

theorem UnaryOp.length_render (op : UnaryOp) (ks : List Token.Kind) :
    (op.render ks).length = ks.length + 1 := by
  cases op <;> simp [render]

open Token.Kind in
mutual

/-- The tokens of an expression, with every expression inside of it in parentheses. -/
def Expr.render : Expr → List Token.Kind
  | .int _ v => [ofInt v]
  | .float _ _ => []
  | .string _ text => [ofText text]
  | .ident _ text _ => [name text]
  | .unary _ op e => op.render (enclose e.render)
  | .binary _ op l r => enclose l.render ++ symbol op.symbol :: enclose r.render
  | .assign _ op t v => enclose t.render ++ symbol op.symbol :: enclose v.render
  | .ternary _ c y o =>
    enclose c.render ++ symbol .question :: (enclose y.render ++ symbol .colon :: enclose o.render)
  | .call _ text args _ => name text :: enclose (Expr.renderAll args)
  | .cast _ t e => enclose [ofType t] ++ enclose e.render
  | .member _ o field _ => enclose o.render ++ [symbol .dot, name field]
  | .comma _ es => Expr.renderAll es

/-- Expressions in parentheses, with a comma between each two. -/
def Expr.renderAll : List Expr → List Token.Kind
  | [] => []
  | [e] => enclose e.render
  | e :: e' :: es => enclose e.render ++ symbol .comma :: Expr.renderAll (e' :: es)

end

/-- What an expression has to satisfy to have a source form, apart from the expressions inside of it. -/
def Expr.Writable : Expr → Prop
  | .float _ _ => False
  | .ident _ text _ | .call _ text _ _ | .member _ _ text _ => (Token.Kind.name text).Spelled text.toList
  | .cast _ t _ => t = .int ∨ t = .float
  | .comma _ es => 2 ≤ es.length
  | _ => True

instance : DecidablePred Expr.Writable
  | .float _ _ => inferInstanceAs (Decidable False)
  | .ident _ text _ | .call _ text _ _ | .member _ _ text _ =>
    inferInstanceAs (Decidable ((Token.Kind.name text).Spelled text.toList))
  | .cast _ t _ => inferInstanceAs (Decidable (t = .int ∨ t = .float))
  | .comma _ es => inferInstanceAs (Decidable (2 ≤ es.length))
  | .int _ _ | .string _ _ | .unary _ _ _ | .binary _ _ _ _ | .assign _ _ _ _ | .ternary _ _ _ _ =>
    inferInstanceAs (Decidable True)

/-- The note of an expression of which neither place nor type is known. -/
def Note.blank : Note := .ofSpan (.point 0)

mutual

/-- The expression without places and annotations. -/
def Expr.bare : Expr → Expr
  | .int _ v => .int .blank v
  | .float _ v => .float .blank v
  | .string _ v => .string .blank v
  | .ident _ name _ => .ident .blank name none
  | .unary _ op e => .unary .blank op e.bare
  | .binary _ op l r => .binary .blank op l.bare r.bare
  | .assign _ op t v => .assign .blank op t.bare v.bare
  | .ternary _ c y o => .ternary .blank c.bare y.bare o.bare
  | .call _ name args _ => .call .blank name (Expr.bareAll args) none
  | .cast _ t e => .cast .blank t e.bare
  | .member _ o field _ => .member .blank o.bare field none
  | .comma _ es => .comma .blank (Expr.bareAll es)

/-- The expressions of a list without places and annotations. -/
def Expr.bareAll : List Expr → List Expr
  | [] => []
  | e :: es => e.bare :: Expr.bareAll es

end

/-! ## Numbers -/

theorem digitChar_of_lt {d : Nat} (h : d < 16) :
    digitValue d.digitChar = d ∧ isHexDigit d.digitChar = true ∧ (d < 10 → d.digitChar.isDigit = true) := by
  have hall : ∀ d : Fin 16, digitValue d.val.digitChar = d.val ∧ isHexDigit d.val.digitChar = true ∧
      (d.val < 10 → d.val.digitChar.isDigit = true) := by decide
  exact hall ⟨d, h⟩

/-- The digits of a number begin with those of the number without its last digit. -/
theorem toDigits_induct {b : Nat} (hb : 1 < b) {P : Nat → List Char → Prop}
    (one : ∀ d, d < b → P d [d.digitChar])
    (more : ∀ n d cs, d < b → P n cs → P (b * n + d) (cs ++ [d.digitChar])) (n : Nat) :
    P n (Nat.toDigits b n) := by
  induction n using Nat.strongRecOn with
  | ind n ih =>
      rw [Nat.toDigits_eq_if hb]
      split
      · exact one n ‹_›
      · have hlt : n / b < n := Nat.div_lt_self (by omega) hb
        have hstep := more _ _ _ (Nat.mod_lt n (by omega)) (ih (n / b) hlt)
        rwa [Nat.div_add_mod] at hstep

theorem digitsValue_toDigits {b : Nat} (hb : 1 < b) (hb' : b ≤ 16) (n : Nat) :
    digitsValue b (Nat.toDigits b n) = n := by
  refine toDigits_induct (P := fun n cs => digitsValue b cs = n) hb ?_ ?_ n
  · intro d hd
    simp [digitsValue, (digitChar_of_lt (Nat.lt_of_lt_of_le hd hb')).1]
  · intro n d cs hd ih
    rw [digitsValue] at ih ⊢
    rw [List.foldl_append, ih]
    simp [(digitChar_of_lt (Nat.lt_of_lt_of_le hd hb')).1]

theorem toDigits_mem {b : Nat} (hb : 1 < b) {p : Char → Bool} (hp : ∀ d, d < b → p d.digitChar = true)
    (n : Nat) : Nat.toDigits b n ≠ [] ∧ ∀ c ∈ Nat.toDigits b n, p c = true := by
  refine toDigits_induct (P := fun _ cs => cs ≠ [] ∧ ∀ c ∈ cs, p c = true) hb ?_ ?_ n
  · intro d hd
    simp [hp d hd]
  · intro n d cs hd ih
    refine ⟨by simp, ?_⟩
    intro c hc
    rcases List.mem_append.mp hc with hc | hc
    · exact ih.2 c hc
    · rw [List.mem_singleton.mp hc]
      exact hp d hd

theorem intLiteral?_toDigits {v : Int32} (h : ¬ v < 0) :
    intLiteral? (String.ofList (Nat.toDigits 10 v.toNatClampNeg)) = some v := by
  have hvalue := digitsValue_toDigits (b := 10) (by decide) (by decide) v.toNatClampNeg
  have hlt : v.toNatClampNeg < 0x80000000 := v.toNatClampNeg_lt
  rw [intLiteral?, String.toList_ofList, hvalue]
  simp only [hlt, if_true]
  rw [Int32.ofNat_toNatClampNeg v (Int32.not_lt.mp h)]

theorem hexLiteral?_toDigits (v : Int32) :
    hexLiteral? (String.ofList ('0' :: 'x' :: Nat.toDigits 16 v.toUInt32.toNat)) = some v := by
  have hvalue := digitsValue_toDigits (b := 16) (by decide) (by decide) v.toUInt32.toNat
  have hlt : v.toUInt32.toNat < 0x100000000 := v.toUInt32.toNat_lt
  rw [hexLiteral?, String.toList_ofList, List.drop_succ_cons, List.drop_succ_cons, List.drop_zero, hvalue]
  simp only [hlt, if_true]
  rw [UInt32.ofNat_toNat, Int32.toInt32_toUInt32]

/-! ## Strings -/

theorem unescape_plain {c : Char} (hc : c ≠ '\\') (cs : List Char) :
    unescape (c :: cs) = (unescape cs).map (c :: ·) := by
  rw [unescape]
  · intro h; exact (hc h).elim
  · intro _ _ h; exact (hc h).elim

theorem unescape_escape (c : Char) (cs : List Char) :
    unescape (escape c ++ cs) = (unescape cs).map (c :: ·) := by
  fun_cases escape c with
  | case7 c _ _ _ _ hslash _ => exact unescape_plain hslash cs
  | _ => rfl

theorem unescape_flatMap (cs : List Char) : unescape (cs.flatMap escape) = .ok cs := by
  induction cs with
  | nil => rfl
  | cons c cs ih =>
      rw [List.flatMap_cons, unescape_escape, ih]
      rfl

theorem stringLiteral_escape (text : String) :
    stringLiteral (String.ofList ('"' :: (text.toList.flatMap escape ++ ['"']))) = .ok text := by
  rw [stringLiteral, String.toList_ofList, List.drop_succ_cons, List.drop_zero, List.dropLast_concat,
    unescape_flatMap]
  exact congrArg Except.ok String.ofList_toList

/-! ## Spelling -/

open Spelling in
theorem escape_mem (c : Char) : escape c ∈ stringPart := by
  fun_cases escape c with
  | case7 c _ _ _ _ hslash hquote => exact plain_mem_stringPart hquote hslash
  | _ => exact escape_mem_stringPart (by decide)

open Spelling Computability in
theorem flatMap_escape_mem (cs : List Char) : cs.flatMap escape ∈ stringPart∗ := by
  induction cs with
  | nil => exact Language.nil_mem_kstar _
  | cons c cs ih => exact append_mem_kstar (escape_mem c) ih

namespace Token.Kind

/-- A token other than a name is spelled by its text if that fits the pattern. -/
theorem spelled_of_pattern {k : Token.Kind} (h : k.spelling.toList ∈ k.pattern)
    (hname : ∀ text, k ≠ name text) : k.Spelled k.spelling.toList := by
  refine ⟨h, ?_, fun text hk => absurd hk (hname text)⟩
  intro text hpayload
  rw [String.ofList_toList]
  cases k <;> cases hpayload <;> rfl

theorem spelled_symbol (s : Symbol) : (symbol s).Spelled (symbol s).spelling.toList :=
  spelled_of_pattern rfl nofun

theorem spelled_keyword (word : Keyword) : (keyword word).Spelled (keyword word).spelling.toList :=
  spelled_of_pattern rfl nofun

theorem spelled_ofInt (v : Int32) : (ofInt v).Spelled (ofInt v).spelling.toList := by
  unfold ofInt
  split
  · have hdigits := toDigits_mem (b := 16) (by decide) (fun d hd => (digitChar_of_lt hd).2.1) v.toUInt32.toNat
    refine spelled_of_pattern ?_ nofun
    rw [spelling, String.toList_ofList]
    exact Spelling.mem_hex.mpr ⟨'x', _, .inl rfl, hdigits, rfl⟩
  · have hdigits := toDigits_mem (b := 10) (by decide)
      (fun d hd => (digitChar_of_lt (by omega)).2.2 hd) v.toNatClampNeg
    refine spelled_of_pattern ?_ nofun
    rw [spelling, String.toList_ofList]
    exact Spelling.mem_int.mpr hdigits

theorem spelled_ofText (text : String) : (ofText text).Spelled (ofText text).spelling.toList := by
  refine spelled_of_pattern ?_ nofun
  rw [ofText, spelling, String.toList_ofList]
  exact Spelling.mem_string.mpr ⟨_, flatMap_escape_mem _, rfl⟩

theorem spelled_ofType {t : TypeKind} (h : t = .int ∨ t = .float) :
    (ofType t).Spelled (ofType t).spelling.toList := by
  rcases h with rfl | rfl
  · exact spelled_keyword .kwInt
  · exact spelled_keyword .kwFloat

theorem spelled_enclose {ks : List Token.Kind} (h : ∀ k ∈ ks, k.Spelled k.spelling.toList) :
    ∀ k ∈ enclose ks, k.Spelled k.spelling.toList := by
  simp only [enclose, List.forall_mem_cons, List.forall_mem_append]
  exact ⟨spelled_symbol _, h, spelled_symbol _, List.forall_mem_nil _⟩

end Token.Kind

theorem UnaryOp.spelled_render {op : UnaryOp} {ks : List Token.Kind}
    (h : ∀ k ∈ ks, k.Spelled k.spelling.toList) : ∀ k ∈ op.render ks, k.Spelled k.spelling.toList := by
  cases op <;> simp only [render, List.forall_mem_cons, List.forall_mem_append] <;>
    first
      | exact ⟨Token.Kind.spelled_symbol _, h⟩
      | exact ⟨h, Token.Kind.spelled_symbol _, List.forall_mem_nil _⟩

namespace Expr

open Token.Kind in
theorem spelled_renderAll {es : List Expr}
    (h : ∀ e ∈ es, ∀ k ∈ e.render, k.Spelled k.spelling.toList) :
    ∀ k ∈ renderAll es, k.Spelled k.spelling.toList := by
  induction es with
  | nil => exact List.forall_mem_nil _
  | cons e es ih =>
      obtain ⟨he, hes⟩ := List.forall_mem_cons.mp h
      cases es with
      | nil => exact spelled_enclose he
      | cons e' es =>
          simp only [renderAll, List.forall_mem_append, List.forall_mem_cons]
          exact ⟨spelled_enclose he, spelled_symbol _, ih hes⟩

open Token.Kind in
/-- The tokens of an expression can be spelled. -/
theorem spelled_render {e : Expr} (h : e.Each Writable) :
    ∀ k ∈ e.render, k.Spelled k.spelling.toList := by
  induction e using induct with
  | int _ v => exact List.forall_mem_singleton.mpr (spelled_ofInt v)
  | float => exact (each_float.mp h).elim
  | string _ text => exact List.forall_mem_singleton.mpr (spelled_ofText text)
  | ident => exact List.forall_mem_singleton.mpr (each_ident.mp h)
  | unary _ op e ih => exact UnaryOp.spelled_render (spelled_enclose (ih (each_unary.mp h).2))
  | binary _ op l r ihl ihr =>
      obtain ⟨_, hl, hr⟩ := each_binary.mp h
      simp only [render, List.forall_mem_append, List.forall_mem_cons]
      exact ⟨spelled_enclose (ihl hl), spelled_symbol _, spelled_enclose (ihr hr)⟩
  | assign _ op t v iht ihv =>
      obtain ⟨_, ht, hv⟩ := each_assign.mp h
      simp only [render, List.forall_mem_append, List.forall_mem_cons]
      exact ⟨spelled_enclose (iht ht), spelled_symbol _, spelled_enclose (ihv hv)⟩
  | ternary _ c y o ihc ihy iho =>
      obtain ⟨_, hc, hy, ho⟩ := each_ternary.mp h
      simp only [render, List.forall_mem_append, List.forall_mem_cons]
      exact ⟨spelled_enclose (ihc hc), spelled_symbol _, spelled_enclose (ihy hy), spelled_symbol _,
        spelled_enclose (iho ho)⟩
  | call _ text args _ ih =>
      obtain ⟨htext, hargs⟩ := each_call.mp h
      have hall := spelled_renderAll fun a ha => ih a ha (hargs a ha)
      exact List.forall_mem_cons.mpr ⟨htext, spelled_enclose hall⟩
  | cast _ t e ih =>
      obtain ⟨ht, he⟩ := each_cast.mp h
      have htype : ∀ k ∈ [ofType t], k.Spelled k.spelling.toList :=
        List.forall_mem_singleton.mpr (spelled_ofType ht)
      exact List.forall_mem_append.mpr ⟨spelled_enclose htype, spelled_enclose (ih he)⟩
  | member _ o field _ ih =>
      obtain ⟨hfield, ho⟩ := each_member.mp h
      simp only [render, List.forall_mem_append, List.forall_mem_cons]
      exact ⟨spelled_enclose (ih ho), spelled_symbol _, hfield, List.forall_mem_nil _⟩
  | comma _ es ih => exact spelled_renderAll fun e he => ih e he ((each_comma.mp h).2 e he)

end Expr

end Jaf
