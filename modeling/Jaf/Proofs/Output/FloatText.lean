import Jaf.Proofs.Output.ShortestDecimals
import Jaf.Proofs.Parser.SourceForms

/-!
# The text of a number tells which number it is

A decimal is written in one of four ways: without a fraction, with the point among its digits, with the
point in front of them, or with an exponent of ten. Each of them is read back as a decimal that stands for
the same number (`Decimal.reads_text`). Since the shortest decimal determines the number it was made for,
the text of a single-precision number determines the number: its sign, its magnitude, and whether it is a
number at all (`floatText_injective`).
-/

namespace Jaf

/-! ## Digits -/

/-- A text that consists of digits. -/
def Digits (cs : List Char) : Prop := ∀ c ∈ cs, c.isDigit = true

theorem Digits.append {cs ds : List Char} (h : Digits cs) (h' : Digits ds) : Digits (cs ++ ds) :=
  List.forall_mem_append.mpr ⟨h, h'⟩

theorem digits_replicate (n : Nat) : Digits (List.replicate n '0') := by
  intro c hc
  rw [List.eq_of_mem_replicate hc]
  rfl

theorem toList_toString (n : Nat) : (toString n).toList = Nat.toDigits 10 n := Nat.toList_repr

theorem digits_toString (n : Nat) : (toString n).toList ≠ [] ∧ Digits (toString n).toList := by
  rw [toList_toString]
  exact toDigits_mem (by decide) (fun d hd => (digitChar_of_lt (by omega)).2.2 hd) n

theorem digitsValue_toString (n : Nat) : digitsValue 10 (toString n).toList = n := by
  rw [toList_toString]
  exact digitsValue_toDigits (by decide) (by decide) n

theorem digitsValue_append (cs ds : List Char) :
    digitsValue 10 (cs ++ ds) = digitsValue 10 cs * 10 ^ ds.length + digitsValue 10 ds := by
  induction ds using List.reverseRecOn with
  | nil => simp [digitsValue]
  | append_singleton ds d ih =>
      have hsnoc : ∀ us : List Char, digitsValue 10 (us ++ [d]) = 10 * digitsValue 10 us + digitValue d := by
        intro us
        simp [digitsValue]
      rw [← List.append_assoc, hsnoc, hsnoc, ih, List.length_append]
      simp only [List.length_singleton, pow_succ]
      ring

theorem digitsValue_zeros (n : Nat) : digitsValue 10 (List.replicate n '0') = 0 := by
  induction n with
  | zero => rfl
  | succ n ih => rw [List.replicate_succ', digitsValue_append, ih]; rfl

/-- A negative number is written with a sign in front of its digits. -/
theorem toList_toString_negSucc (n : Nat) :
    (toString (Int.negSucc n)).toList = '-' :: (toString (n + 1)).toList := by
  show (Int.repr (Int.negSucc n)).toList = _
  simp [Int.repr]

/-- A whole number is read back from its text. -/
theorem signedValue?_toString (e : ℤ) : signedValue? (toString e).toList = some e := by
  cases e with
  | ofNat n =>
      obtain ⟨hne, hdigits⟩ := digits_toString n
      have hvalue := digitsValue_toString n
      show signedValue? (toString n).toList = _
      generalize (toString n).toList = cs at hne hdigits hvalue
      have hall : cs.all Char.isDigit = true := List.all_eq_true.mpr hdigits
      unfold signedValue?
      split
      next cs' => exact absurd (hdigits '-' List.mem_cons_self) (by decide)
      next cs' => exact absurd (hdigits '+' List.mem_cons_self) (by decide)
      next => simp [hne, hall, hvalue]
  | negSucc n =>
      obtain ⟨hne, hdigits⟩ := digits_toString (n + 1)
      have hvalue := digitsValue_toString (n + 1)
      rw [toList_toString_negSucc]
      generalize (toString (n + 1)).toList = cs at hne hdigits hvalue
      have hall : cs.all Char.isDigit = true := List.all_eq_true.mpr hdigits
      simp [signedValue?, hne, hall, hvalue, Int.negSucc_eq]

namespace Decimal

/-! ## Reading decimals -/

theorem ofChars?_point {whole fraction : List Char} (hne : whole ≠ []) (hwhole : Digits whole)
    (hfraction : Digits fraction) :
    ofChars? (whole ++ '.' :: fraction) =
      some ⟨digitsValue 10 (whole ++ fraction), 0 - fraction.length⟩ := by
  have hpoint : Stops Char.isDigit ('.' :: fraction) := .cons (by decide) _
  have hend : Stops Char.isDigit [] := fun _ hc => nomatch hc
  have htake := takeWhile_run hfraction hend
  have hdrop := dropWhile_run hfraction hend
  rw [List.append_nil] at htake hdrop
  simp [ofChars?, takeWhile_run hwhole hpoint, dropWhile_run hwhole hpoint, htake, hdrop, hne]

theorem ofChars?_point_exponent {whole fraction cs : List Char} {e : ℤ} (hne : whole ≠ [])
    (hwhole : Digits whole) (hfraction : Digits fraction) (he : signedValue? cs = some e) :
    ofChars? (whole ++ '.' :: (fraction ++ 'e' :: cs)) =
      some ⟨digitsValue 10 (whole ++ fraction), e - fraction.length⟩ := by
  have hpoint : Stops Char.isDigit ('.' :: (fraction ++ 'e' :: cs)) := .cons (by decide) _
  have hmark : Stops Char.isDigit ('e' :: cs) := .cons (by decide) _
  simp [ofChars?, takeWhile_run hwhole hpoint, dropWhile_run hwhole hpoint, takeWhile_run hfraction hmark,
    dropWhile_run hfraction hmark, he, hne]

theorem ofChars?_exponent {whole cs : List Char} {e : ℤ} (hne : whole ≠ []) (hwhole : Digits whole)
    (he : signedValue? cs = some e) : ofChars? (whole ++ 'e' :: cs) = some ⟨digitsValue 10 whole, e⟩ := by
  have hmark : Stops Char.isDigit ('e' :: cs) := .cons (by decide) _
  simp [ofChars?, takeWhile_run hwhole hmark, dropWhile_run hwhole hmark, he, hne]

/-- A number does not change if its exponent goes down and its digits are shifted. -/
theorem toRat_shift (n k : Nat) (e : ℤ) : toRat ⟨n * 10 ^ k, e - k⟩ = toRat ⟨n, e⟩ := by
  simp only [toRat]
  push_cast
  rw [mul_assoc, ← zpow_natCast, ← zpow_add₀ (by norm_num)]
  congr 2
  ring

/-- Zeros in front of digits do not count. -/
theorem digitsValue_zeros_append (k : Nat) (ds : List Char) :
    digitsValue 10 (List.replicate k '0' ++ ds) = digitsValue 10 ds := by
  rw [digitsValue_append, digitsValue_zeros, Nat.zero_mul, Nat.zero_add]

/-- A text is read as a decimal that stands for the same number as a given one. -/
def Reads (cs : List Char) (d : Decimal) : Prop := ∃ e, ofChars? cs = some e ∧ e.toRat = d.toRat

/-- The four ways to write digits and an exponent of ten. -/
inductive Written (ds : List Char) (exponent : ℤ) : List Char → Prop where
  | integral : 0 ≤ exponent →
      Written ds exponent ((ds ++ List.replicate exponent.toNat '0') ++ '.' :: List.replicate 1 '0')
  | pointed {j : Nat} : 0 < j → j ≤ ds.length → exponent = j - ds.length →
      Written ds exponent (ds.take j ++ '.' :: ds.drop j)
  | fractional {k : Nat} : exponent = -(k + ds.length) →
      Written ds exponent (List.replicate 1 '0' ++ '.' :: (List.replicate k '0' ++ ds))
  | scientific {c : Char} {rest : List Char} {leading : ℤ} : ds = c :: rest →
      leading = exponent + rest.length →
      Written ds exponent
        ([c] ++ (if rest = [] then [] else '.' :: rest) ++ 'e' :: (toString leading).toList)

section Forms

variable {ds : List Char} {exponent : ℤ}

/-- No digits after the point: zeros stand in front of it, and one behind. -/
theorem reads_integral (hne : ds ≠ []) (hds : Digits ds) (hexponent : 0 ≤ exponent) :
    Reads ((ds ++ List.replicate exponent.toNat '0') ++ '.' :: List.replicate 1 '0')
      ⟨digitsValue 10 ds, exponent⟩ := by
  refine ⟨_, ofChars?_point (by simp [hne]) (hds.append (digits_replicate _)) (digits_replicate 1), ?_⟩
  rw [List.append_assoc, List.replicate_append_replicate, digitsValue_append, digitsValue_zeros,
    List.length_replicate, List.length_replicate, Nat.add_zero,
    ← toRat_shift (digitsValue 10 ds) (exponent.toNat + 1)]
  congr 2
  omega

/-- The point stands among the digits. -/
theorem reads_pointed (hds : Digits ds) {j : Nat} (hj : 0 < j) (hj' : j ≤ ds.length)
    (hexponent : exponent = j - ds.length) :
    Reads (ds.take j ++ '.' :: ds.drop j) ⟨digitsValue 10 ds, exponent⟩ := by
  have hne : ds.take j ≠ [] := by
    rw [← List.length_pos_iff, List.length_take]
    omega
  refine ⟨_, ofChars?_point hne (fun c hc => hds c (List.mem_of_mem_take hc))
    fun c hc => hds c (List.mem_of_mem_drop hc), ?_⟩
  rw [List.take_append_drop, List.length_drop]
  congr 2
  omega

/-- The point stands in front of the digits. -/
theorem reads_fractional (hds : Digits ds) {k : Nat} (hexponent : exponent = -(k + ds.length)) :
    Reads (List.replicate 1 '0' ++ '.' :: (List.replicate k '0' ++ ds)) ⟨digitsValue 10 ds, exponent⟩ := by
  refine ⟨_, ofChars?_point (by simp) (digits_replicate 1) ((digits_replicate _).append hds), ?_⟩
  rw [digitsValue_zeros_append, digitsValue_zeros_append, List.length_append, List.length_replicate]
  congr 2
  omega

/-- One digit, the others after a point if there are any, and an exponent of ten. -/
theorem reads_scientific (hds : Digits ds) {c : Char} {rest : List Char} (hsplit : ds = c :: rest)
    {leading : ℤ} (hleading : leading = exponent + rest.length) :
    Reads ([c] ++ (if rest = [] then [] else '.' :: rest) ++ 'e' :: (toString leading).toList)
      ⟨digitsValue 10 ds, exponent⟩ := by
  subst hsplit
  obtain ⟨hc, hrest⟩ := List.forall_mem_cons.mp hds
  have hone : Digits [c] := List.forall_mem_singleton.mpr hc
  have hvalue := signedValue?_toString leading
  split
  next hnil =>
    subst hnil
    refine ⟨_, ofChars?_exponent (List.cons_ne_nil c []) hone hvalue, ?_⟩
    rw [hleading, List.append_nil, List.length_nil, Nat.cast_zero, add_zero]
  next =>
    have hassoc : [c] ++ '.' :: rest ++ 'e' :: (toString leading).toList =
        [c] ++ '.' :: (rest ++ 'e' :: (toString leading).toList) := by
      simp
    rw [hassoc]
    refine ⟨_, ofChars?_point_exponent (List.cons_ne_nil c []) hone hrest hvalue, ?_⟩
    rw [hleading, add_sub_cancel_right]
    rfl

theorem Written.reads {cs : List Char} (h : Written ds exponent cs) (hne : ds ≠ []) (hds : Digits ds) :
    Reads cs ⟨digitsValue 10 ds, exponent⟩ := by
  cases h with
  | integral hexponent => exact reads_integral hne hds hexponent
  | pointed hj hj' hexponent => exact reads_pointed hds hj hj' hexponent
  | fractional hexponent => exact reads_fractional hds hexponent
  | scientific hsplit hleading => exact reads_scientific hds hsplit hleading

end Forms

/-- Which way a decimal is written depends on where its first digit stands. -/
theorem written_text (d : Decimal) : Written (toString d.digits).toList d.exponent d.text.toList := by
  obtain ⟨n, exponent⟩ := d
  obtain ⟨hne, _⟩ := digits_toString n
  unfold text
  generalize (toString n).toList = ds at hne
  have hlength : 0 < ds.length := List.length_pos_iff.mpr hne
  dsimp only
  split
  · split
    · have htext : (String.ofList ds ++ zeros exponent.toNat ++ ".0").toList =
          (ds ++ List.replicate exponent.toNat '0') ++ '.' :: List.replicate 1 '0' := by
        simp [zeros]
      rw [htext]
      exact .integral (by omega)
    · split
      · have htext : (String.ofList (ds.take (ds.length - (-exponent).toNat)) ++ "." ++
            String.ofList (ds.drop (ds.length - (-exponent).toNat))).toList =
              ds.take (ds.length - (-exponent).toNat) ++ '.' :: ds.drop (ds.length - (-exponent).toNat) := by
          simp
        rw [htext]
        exact .pointed (by omega) (by omega) (by omega)
      · have htext : ("0." ++ zeros ((-exponent).toNat - ds.length) ++ String.ofList ds).toList =
            List.replicate 1 '0' ++ '.' :: (List.replicate ((-exponent).toNat - ds.length) '0' ++ ds) := by
          simp [zeros]
        rw [htext]
        exact .fractional (by omega)
  · obtain ⟨c, rest, rfl⟩ := List.exists_cons_of_ne_nil hne
    have htext : (String.ofList ((c :: rest).take 1) ++ (if (c :: rest).drop 1 = [] then "" else
        "." ++ String.ofList ((c :: rest).drop 1)) ++ "e" ++
          toString (exponent + (c :: rest).length - 1)).toList =
        [c] ++ (if rest = [] then [] else '.' :: rest) ++
          'e' :: (toString (exponent + (c :: rest).length - 1)).toList := by
      cases rest <;> simp
    rw [htext]
    exact .scientific rfl (by rw [List.length_cons]; push_cast; ring)

/-- **A decimal is read back from its text**, as one that stands for the same number. -/
theorem reads_text (d : Decimal) : Reads d.text.toList d := by
  obtain ⟨hne, hdigits⟩ := digits_toString d.digits
  have h := (written_text d).reads hne hdigits
  rwa [digitsValue_toString] at h

theorem ofChars?_minus (cs : List Char) : ofChars? ('-' :: cs) = none := by simp [ofChars?]

end Decimal

/-! ## Bit patterns -/

section Bits

open Float.Model (Format UnpackedFloat)
open Float.Model.UnpackedFloat (unpackExponent unpackMantissa)

theorem unpackExponent_eq_iff (b : BitVec 32) (e : BitVec 8) :
    @unpackExponent Format.binary32 b = e ↔ b.toNat / 2 ^ 23 % 2 ^ 8 = e.toNat := by
  rw [← BitVec.toNat_inj]
  simp [unpackExponent, BitVec.extractLsb, Nat.shiftRight_eq_div_pow]

theorem unpackMantissa_eq_iff (b : BitVec 32) (f : BitVec 23) :
    @unpackMantissa Format.binary32 b = f ↔ b.toNat % 2 ^ 23 = f.toNat := by
  rw [← BitVec.toNat_inj]
  simp [unpackMantissa, BitVec.extractLsb]

/-- The bit pattern of a number without its sign. -/
def magnitude (x : Float32) : Nat := x.toBits.toNat % 2 ^ 31

/-- The magnitude of infinity. -/
def infiniteBits : Nat := 0x7f800000

/-- The magnitude of what is not a number. -/
def nanBits : Nat := 0x7fc00000

/-- What a pattern stands for can be seen from its size; there is one only that is not a number. -/
theorem unpack_bits (b : BitVec 32) (hvalid : Format.binary32.Valid b) :
    (UnpackedFloat.unpack Format.binary32 b = .notANumber ∧ b.toNat = nanBits) ∨
      ((∃ s, UnpackedFloat.unpack Format.binary32 b = .infinity s) ∧ b.toNat % 2 ^ 31 = infiniteBits) ∨
      ((∃ s, UnpackedFloat.unpack Format.binary32 b = .zero s) ∧ b.toNat % 2 ^ 31 = 0) ∨
      ((∃ s m e h, UnpackedFloat.unpack Format.binary32 b = .finite s m e h) ∧
        0 < b.toNat % 2 ^ 31 ∧ b.toNat % 2 ^ 31 < infiniteBits) := by
  unfold UnpackedFloat.unpack infiniteBits
  dsimp only
  by_cases hexponent : @unpackExponent Format.binary32 b = -1#8
  · have hexponent' := (unpackExponent_eq_iff _ _).mp hexponent
    rw [BitVec.neg_one_eq_allOnes, BitVec.toNat_allOnes] at hexponent'
    rw [if_pos hexponent]
    by_cases hmantissa : @unpackMantissa Format.binary32 b = 0#23
    · have hmantissa' := (unpackMantissa_eq_iff _ _).mp hmantissa
      rw [BitVec.toNat_ofNat] at hmantissa'
      rw [if_pos hmantissa]
      exact .inr (.inl ⟨⟨_, rfl⟩, by omega⟩)
    · -- the one pattern that is not a number is the canonical one
      rw [if_neg hmantissa]
      have hpacked := hvalid.eq_packedNaN hexponent hmantissa
      exact .inl ⟨rfl, congrArg BitVec.toNat hpacked⟩
  · have hexponent' := mt (unpackExponent_eq_iff _ _).mpr hexponent
    rw [BitVec.neg_one_eq_allOnes, BitVec.toNat_allOnes] at hexponent'
    rw [if_neg hexponent]
    by_cases hzero : @unpackExponent Format.binary32 b = 0#8
    · have hzero' := (unpackExponent_eq_iff _ _).mp hzero
      rw [BitVec.toNat_ofNat] at hzero'
      rw [if_pos hzero]
      by_cases hmantissa : @unpackMantissa Format.binary32 b = 0#23
      · have hmantissa' := (unpackMantissa_eq_iff _ _).mp hmantissa
        rw [BitVec.toNat_ofNat] at hmantissa'
        rw [dif_pos hmantissa]
        exact .inr (.inr (.inl ⟨⟨_, rfl⟩, by omega⟩))
      · have hmantissa' := mt (unpackMantissa_eq_iff _ _).mpr hmantissa
        rw [BitVec.toNat_ofNat] at hmantissa'
        rw [dif_neg hmantissa]
        have hpos : 0 < (@unpackMantissa Format.binary32 b).toNat := by
          rw [← (unpackMantissa_eq_iff _ _).mp rfl]
          omega
        exact .inr (.inr (.inr ⟨⟨_, _, _, hpos, rfl⟩, by omega, by omega⟩))
    · have hzero' := mt (unpackExponent_eq_iff _ _).mpr hzero
      rw [BitVec.toNat_ofNat] at hzero'
      rw [if_neg hzero]
      have hpos : ∀ f : BitVec 23, 0 < (1#1 ++ f).toNat := by
        intro f
        rw [BitVec.toNat_append]
        exact Nat.lt_of_lt_of_le (by decide) Nat.left_le_or
      exact .inr (.inr (.inr ⟨⟨_, _, _, hpos _, rfl⟩, by omega, by omega⟩))

/-- What a number is can be seen from its magnitude. -/
theorem unpack_cases (x : Float32) :
    (x.toModel.unpack = .notANumber ∧ x.toBits.toNat = nanBits) ∨
      ((∃ s, x.toModel.unpack = .infinity s) ∧ magnitude x = infiniteBits) ∨
      ((∃ s, x.toModel.unpack = .zero s) ∧ magnitude x = 0) ∨
      ((∃ s m e h, x.toModel.unpack = .finite s m e h) ∧ 0 < magnitude x ∧ magnitude x < infiniteBits) :=
  unpack_bits x.toBits.toBitVec x.toModel.valid

/-- The sign that is written. -/
def signText (x : Float32) : String := if x.toBits < 0x80000000 then "" else "-"

/-- A number as it is written behind its sign. -/
def magnitudeText (n : Nat) : String :=
  if n = nanBits then "NaN"
  else if n = infiniteBits then "inf"
  else if n = 0 then "0.0"
  else (Binary.ofBits (.ofNat n)).shortest.text

/-- The sign of a number plays no part in the digits. -/
theorem ofBits_magnitude (x : Float32) : Binary.ofBits x.toBits = Binary.ofBits (.ofNat (magnitude x)) := by
  have hlt : magnitude x < 2 ^ 31 := Nat.mod_lt _ (by decide)
  have hof : (UInt32.ofNat (magnitude x)).toNat = magnitude x :=
    UInt32.toNat_ofNat_of_lt' (Nat.lt_trans hlt (by decide))
  have hbiased : (x.toBits.toNat >>> 23) % 256 = (magnitude x >>> 23) % 256 := by
    rw [Nat.shiftRight_eq_div_pow, Nat.shiftRight_eq_div_pow, magnitude]
    omega
  have hfraction : x.toBits.toNat % 0x800000 = magnitude x % 0x800000 := by
    rw [magnitude]
    omega
  unfold Binary.ofBits
  rw [hof, hbiased, hfraction]

theorem signText_eq (x : Float32) :
    (signText x = "" ∧ x.toBits.toNat = magnitude x) ∨
      (signText x = "-" ∧ x.toBits.toNat = magnitude x + 2 ^ 31) := by
  have hlt := x.toBits.toNat_lt
  unfold signText magnitude
  split
  next h =>
    have h : x.toBits.toNat < 0x80000000 := h
    exact .inl ⟨rfl, by omega⟩
  next h =>
    have h : ¬ x.toBits.toNat < 0x80000000 := h
    exact .inr ⟨rfl, by omega⟩

/-- **The text of a number is its sign and its magnitude**, and a magnitude is one of those there are. -/
theorem floatText_eq (x : Float32) : floatText x = signText x ++ magnitudeText (magnitude x) ∧
    (magnitude x ≤ infiniteBits ∨ magnitude x = nanBits) := by
  have hzero : (0 : Float32).toModel.unpack = .zero .positive := rfl
  have hnan : x.isNaN = x.toModel.unpack.isNaN := rfl
  have hinf : x.isInf = x.toModel.unpack.isInf := rfl
  have heq : (x == 0) = x.toModel.unpack.beq (0 : Float32).toModel.unpack := rfl
  rw [hzero] at heq
  unfold floatText
  rw [hnan, hinf, heq]
  rcases unpack_cases x with ⟨hx, hbits⟩ | ⟨⟨s, hx⟩, hm⟩ | ⟨⟨s, hx⟩, hm⟩ | ⟨⟨s, m, e, h, hx⟩, hpos, hlt⟩
  · have hm : magnitude x = nanBits := by rw [magnitude, hbits]; rfl
    have hsign : signText x = "" := by
      rcases signText_eq x with ⟨h, _⟩ | ⟨_, h⟩
      · exact h
      · rw [hbits, hm] at h
        omega
    rw [hx, hm, hsign]
    exact ⟨rfl, .inr rfl⟩
  · rw [hx, hm]
    exact ⟨rfl, .inl (Nat.le_refl _)⟩
  · rw [hx, hm]
    exact ⟨rfl, .inl (Nat.zero_le _)⟩
  · have hbeq : (UnpackedFloat.finite s m e h).beq (.zero .positive) = false := by cases s <;> rfl
    have htext : magnitudeText (magnitude x) = (Binary.ofBits x.toBits).shortest.text := by
      rw [ofBits_magnitude]
      unfold magnitudeText
      rw [if_neg (Nat.ne_of_lt (Nat.lt_trans hlt (by decide))), if_neg (Nat.ne_of_lt hlt),
        if_neg (Nat.ne_of_gt hpos)]
    rw [hx, hbeq, htext]
    exact ⟨rfl, .inl (Nat.le_of_lt hlt)⟩

/-- A magnitude that is neither zero nor infinite is read back from its text. -/
theorem reads_magnitudeText {n : Nat} (hpos : 0 < n) (hlt : n < infiniteBits) :
    Decimal.Reads (magnitudeText n).toList (Binary.ofBits (.ofNat n)).shortest := by
  have htext : magnitudeText n = (Binary.ofBits (.ofNat n)).shortest.text := by
    unfold magnitudeText
    rw [if_neg (Nat.ne_of_lt (Nat.lt_trans hlt (by decide))), if_neg (Nat.ne_of_lt hlt),
      if_neg (Nat.ne_of_gt hpos)]
  rw [htext]
  exact Decimal.reads_text _

/-- The texts of zero, of infinity and of what is not a number belong to no other magnitude. -/
theorem not_finite_of_magnitudeText {n k : Nat} (hk : k = 0 ∨ k = infiniteBits ∨ k = nanBits)
    (h : magnitudeText n = magnitudeText k) : ¬ (0 < n ∧ n < infiniteBits) := by
  rintro ⟨hpos, hlt⟩
  obtain ⟨e, he, hvalue⟩ := reads_magnitudeText hpos hlt
  have hbound : n < 2 ^ 31 := Nat.lt_trans hlt (by decide)
  have hholds := Binary.holds_shortest (Binary.mantissa_pos hbound hpos) (Binary.exponent_ge hbound)
  have hpositive := Binary.low_pos (Binary.mantissa_pos hbound hpos)
  rw [h] at he
  rcases hk with rfl | rfl | rfl
  · have hzero : Decimal.ofChars? (magnitudeText 0).toList = some ⟨0, -1⟩ := by decide
    rw [hzero] at he
    cases he
    rw [Decimal.toRat, Nat.cast_zero, zero_mul] at hvalue
    linarith [hholds.le.1]
  · cases he
  · cases he

theorem magnitudeText_inj {n k : Nat} (hn : n ≤ infiniteBits ∨ n = nanBits)
    (hk : k ≤ infiniteBits ∨ k = nanBits) (h : magnitudeText n = magnitudeText k) : n = k := by
  have hbound : infiniteBits < 2 ^ 31 := by decide
  by_cases hn' : 0 < n ∧ n < infiniteBits
  · by_cases hk' : 0 < k ∧ k < infiniteBits
    · obtain ⟨e, he, hvalue⟩ := reads_magnitudeText hn'.1 hn'.2
      obtain ⟨e', he', hvalue'⟩ := reads_magnitudeText hk'.1 hk'.2
      rw [h, he'] at he
      cases he
      exact Binary.eq_of_toRat_shortest hn'.1 (hn'.2.trans hbound) hk'.1 (hk'.2.trans hbound)
        (hvalue.symm.trans hvalue')
    · exact absurd hn' (not_finite_of_magnitudeText (by omega) h)
  · by_cases hk' : 0 < k ∧ k < infiniteBits
    · exact absurd hk' (not_finite_of_magnitudeText (by omega) h.symm)
    · have hn'' : n = 0 ∨ n = infiniteBits ∨ n = nanBits := by omega
      have hk'' : k = 0 ∨ k = infiniteBits ∨ k = nanBits := by omega
      -- three texts, all different
      rcases hn'' with rfl | rfl | rfl <;> rcases hk'' with rfl | rfl | rfl <;>
        first | rfl | exact absurd h (by decide)

/-- No number begins with a sign behind its sign. -/
theorem head_magnitudeText {n : Nat} (hn : n ≤ infiniteBits ∨ n = nanBits) :
    (magnitudeText n).toList.head? ≠ some '-' := by
  by_cases hn' : 0 < n ∧ n < infiniteBits
  · obtain ⟨e, he, _⟩ := reads_magnitudeText hn'.1 hn'.2
    intro hhead
    obtain ⟨cs, hcs⟩ := List.head?_eq_some_iff.mp hhead
    rw [hcs, Decimal.ofChars?_minus] at he
    cases he
  · have hn'' : n = 0 ∨ n = infiniteBits ∨ n = nanBits := by omega
    rcases hn'' with rfl | rfl | rfl <;> decide

/-- **The text of a number tells which number it is.** -/
theorem floatText_injective : Function.Injective floatText := by
  intro x y h
  obtain ⟨hx, hmx⟩ := floatText_eq x
  obtain ⟨hy, hmy⟩ := floatText_eq y
  rw [hx, hy] at h
  have hlist := congrArg String.toList h
  rw [String.toList_append, String.toList_append] at hlist
  have hbits : x.toBits.toNat = y.toBits.toNat := by
    rcases signText_eq x with ⟨hsx, hbx⟩ | ⟨hsx, hbx⟩ <;>
      rcases signText_eq y with ⟨hsy, hby⟩ | ⟨hsy, hby⟩ <;> rw [hsx, hsy] at hlist
    · rw [hbx, hby, magnitudeText_inj hmx hmy (String.toList_inj.mp hlist)]
    · exact absurd (congrArg List.head? hlist) (head_magnitudeText hmx)
    · exact absurd (congrArg List.head? hlist).symm (head_magnitudeText hmy)
    · rw [hbx, hby, magnitudeText_inj hmx hmy (String.toList_inj.mp (List.cons.inj hlist).2)]
  obtain ⟨⟨bits, _⟩⟩ := x
  obtain ⟨⟨bits', _⟩⟩ := y
  have heq : bits = bits' := UInt32.toNat_inj.mp hbits
  subst heq
  rfl

end Bits

end Jaf
