import Jaf.Decimal.Shortest
import Mathlib.Algebra.Order.Field.Power
import Mathlib.Tactic.Linarith
import Mathlib.Tactic.Positivity
import Mathlib.Tactic.Ring

/-!
# Shortest decimals tell numbers apart

The reals that read back as a positive single-precision number form an interval. The shortest decimal is
found on a grid of decimals, and it lies in the interval of the number it was found for: a grid point is
taken only if it does, and the finest grid that is tried has such a point in every interval. The intervals
of two numbers have nothing in common. Along the bit patterns, each interval ends where the next one
starts, and since the end belongs to the number with the even mantissa, it belongs to one of the two only.
So different numbers have different shortest decimals (`Binary.eq_of_toRat_shortest`).
-/

namespace Jaf

/-- The number that a decimal stands for. -/
def Decimal.toRat (d : Decimal) : ℚ := d.digits * 10 ^ d.exponent

namespace Binary

/-! ## Intervals -/

/-- Where the interval of a number starts. -/
def low (b : Binary) : ℚ := (4 * b.mantissa - if b.close then 1 else 2) * 2 ^ (b.exponent - 2)

/-- Where the interval of a number ends. -/
def high (b : Binary) : ℚ := (4 * b.mantissa + 2) * 2 ^ (b.exponent - 2)

/-- A rational reads back as a number: it lies in the interval, whose ends count for an even mantissa. -/
def Holds (b : Binary) (x : ℚ) : Prop :=
  if b.mantissa % 2 = 0 then b.low ≤ x ∧ x ≤ b.high else b.low < x ∧ x < b.high

theorem Holds.le {b : Binary} {x : ℚ} (h : b.Holds x) : b.low ≤ x ∧ x ≤ b.high := by
  unfold Holds at h
  split at h
  · exact h
  · exact ⟨h.1.le, h.2.le⟩

theorem low_lt_high (b : Binary) : b.low < b.high := by
  have hpos : (0 : ℚ) < 2 ^ (b.exponent - 2) := by positivity
  have hclose : (0 : ℚ) < if b.close then 1 else 2 := by split <;> norm_num
  unfold low high
  gcongr
  linarith

theorem low_pos {b : Binary} (hb : 0 < b.mantissa) : 0 < b.low := by
  have hpos : (0 : ℚ) < 2 ^ (b.exponent - 2) := by positivity
  have hclose : (if b.close then 1 else 2 : ℚ) ≤ 2 := by split <;> norm_num
  have hmantissa : (1 : ℚ) ≤ b.mantissa := by exact_mod_cast hb
  unfold low
  apply mul_pos _ hpos
  linarith

/-! ## Grids -/

/-- A power to a whole exponent, by two powers to natural ones. -/
theorem zpow_mul_toNat {a : ℚ} (ha : a ≠ 0) (q : ℤ) : a ^ q * a ^ (-q).toNat = a ^ q.toNat := by
  rw [← zpow_natCast, ← zpow_natCast, ← zpow_add₀ ha]
  congr 1
  omega

/-- Quarters of a unit and multiples of a power of ten become whole numbers by one and the same factor. -/
theorem scale (p q : ℤ) : ∃ factor : ℚ, 0 < factor ∧ ∀ x d : Nat,
    x * 2 ^ q * factor = ((x * (Nat.pow 2 q.toNat * Nat.pow 10 (-p).toNat) : ℕ) : ℚ) ∧
      d * 10 ^ p * factor = ((d * (Nat.pow 10 p.toNat * Nat.pow 2 (-q).toNat) : ℕ) : ℚ) := by
  refine ⟨10 ^ (-p).toNat * 2 ^ (-q).toNat, by positivity, fun x d => ⟨?_, ?_⟩⟩
  · have htwo := zpow_mul_toNat (a := 2) (by norm_num) q
    simp only [Nat.pow_eq]
    push_cast
    rw [← htwo]
    ring
  · have hten := zpow_mul_toNat (a := 10) (by norm_num) p
    simp only [Nat.pow_eq]
    push_cast
    rw [← hten]
    ring

/-- A grid point is taken only if it reads back as the number. -/
theorem onGrid?_holds {b : Binary} (hb : 0 < b.mantissa) {p : ℤ} {d : Nat} (h : b.onGrid? p = some d) :
    b.Holds (d * 10 ^ p) := by
  unfold onGrid? at h
  extract_lets q number low high up down inside below at h
  have hinside : inside d = true := by
    split at h
    next h₁ h₂ =>
      split at h
      · exact Option.some.inj h ▸ h₁
      · exact Option.some.inj h ▸ h₂
    next h₁ _ => exact Option.some.inj h ▸ h₁
    next _ h₂ => exact Option.some.inj h ▸ h₂
    next => cases h
  -- the two ends of the interval are whole numbers of quarters
  have hlow : b.low = (low : ℚ) * 2 ^ q := by
    have hle : (if b.close then 1 else 2) ≤ number := by
      split <;> omega
    rw [Binary.low, Nat.cast_sub hle]
    simp only [number, q]
    push_cast
    rfl
  have hhigh : b.high = (high : ℚ) * 2 ^ q := by
    simp only [Binary.high, high, number, q]
    push_cast
    rfl
  obtain ⟨factor, hfactor, hscale⟩ := scale p q
  have hle : ∀ x y : Nat, (x * up ≤ y * down ↔ (x : ℚ) * 2 ^ q ≤ y * 10 ^ p) := by
    intro x y
    rw [← mul_le_mul_iff_left₀ hfactor, (hscale x y).1, (hscale x y).2, Nat.cast_le]
  have hge : ∀ x y : Nat, (y * down ≤ x * up ↔ (y : ℚ) * 10 ^ p ≤ x * 2 ^ q) := by
    intro x y
    rw [← mul_le_mul_iff_left₀ hfactor, (hscale x y).1, (hscale x y).2, Nat.cast_le]
  unfold Holds
  rw [hlow, hhigh, ← hle, ← hge, ← not_le, ← not_le, ← hle, ← hge]
  simp only [inside] at hinside
  split at hinside
  next heven =>
    rw [if_pos heven]
    simpa using hinside
  next hodd =>
    rw [if_neg hodd]
    simpa using hinside

/-- A grid that is fine enough has a point next above the number that reads back as it. -/
theorem isSome_onGrid? {b : Binary} {p : ℤ}
    (h : Nat.pow 10 p.toNat * Nat.pow 2 (-(b.exponent - 2)).toNat <
      2 * (Nat.pow 2 (b.exponent - 2).toNat * Nat.pow 10 (-p).toNat)) : (b.onGrid? p).isSome = true := by
  unfold onGrid?
  extract_lets q number low high up down inside below
  have hdown : 0 < down := Nat.mul_pos (Nat.pow_pos (by decide)) (Nat.pow_pos (by decide))
  have hbelow : below * down ≤ number * up := Nat.div_mul_le_self _ _
  have habove : number * up < (below + 1) * down := Nat.lt_mul_of_div_lt (Nat.lt_succ_self _) hdown
  have hfine : down < 2 * up := h
  have hlow : low * up ≤ number * up := Nat.mul_le_mul_right _ (Nat.sub_le _ _)
  have hhigh : high * up = number * up + 2 * up := Nat.add_mul _ _ _
  have hnext : (below + 1) * down = below * down + down := Nat.succ_mul _ _
  have hinside : inside (below + 1) = true := by
    simp only [inside]
    split
    · simp only [Bool.and_eq_true, decide_eq_true_eq]
      omega
    · simp only [Bool.and_eq_true, decide_eq_true_eq]
      omega
  rw [hinside]
  split
  · split <;> rfl
  · rfl
  · rfl
  next heq => cases heq

/-- **The shortest decimal of a single-precision number reads back as the number.** -/
theorem holds_shortest {b : Binary} (hb : 0 < b.mantissa) (hexponent : -149 ≤ b.exponent) :
    b.Holds b.shortest.toRat := by
  -- the last grid is fine enough for the least exponent there is
  have hlast : (b.onGrid? (40 - (99 : ℕ))).isSome = true := by
    apply isSome_onGrid?
    have htwo : Nat.pow 2 (-(b.exponent - 2)).toNat ≤ 2 ^ 151 := Nat.pow_le_pow_right (by decide) (by omega)
    have hone : 1 ≤ Nat.pow 2 (b.exponent - 2).toNat := Nat.one_le_two_pow
    have hten : Nat.pow 10 (-(40 - (99 : ℕ) : ℤ)).toNat = 10 ^ 59 := rfl
    have hten' : Nat.pow 10 (40 - (99 : ℕ) : ℤ).toNat = 1 := rfl
    rw [hten, hten']
    calc 1 * Nat.pow 2 (-(b.exponent - 2)).toNat ≤ 2 ^ 151 := by omega
      _ < 2 * (1 * 10 ^ 59) := by norm_num
      _ ≤ 2 * (Nat.pow 2 (b.exponent - 2).toNat * 10 ^ 59) := by gcongr
  have hfound : ((List.range 100).findSome? fun n : Nat =>
      (b.onGrid? (40 - n)).map fun d => (⟨d, 40 - n⟩ : Decimal)).isSome = true := by
    rw [List.findSome?_isSome_iff]
    exact ⟨99, by decide, by simpa using hlast⟩
  unfold shortest
  obtain ⟨d, hd⟩ := Option.isSome_iff_exists.mp hfound
  dsimp only
  rw [hd, Option.getD_some]
  obtain ⟨n, _, hn⟩ := List.exists_of_findSome?_eq_some hd
  obtain ⟨digits, hdigits, rfl⟩ := Option.map_eq_some_iff.mp hn
  exact onGrid?_holds hb hdigits

/-! ## From one number to the next -/

/-- The number with a given bit pattern, without the sign. -/
theorem ofBits_ofNat {n : Nat} (h : n < 2 ^ 31) : ofBits (.ofNat n) =
    if n / 2 ^ 23 = 0 then ⟨n % 2 ^ 23, -149, false⟩
    else ⟨n % 2 ^ 23 + 2 ^ 23, (n / 2 ^ 23 : ℕ) - 150, n % 2 ^ 23 = 0 ∧ 1 < n / 2 ^ 23⟩ := by
  have hn : (UInt32.ofNat n).toNat = n := UInt32.toNat_ofNat_of_lt' (Nat.lt_trans h (by decide))
  have hbiased : (n >>> 23) % 256 = n / 2 ^ 23 := by
    rw [Nat.shiftRight_eq_div_pow]
    omega
  unfold ofBits
  dsimp only
  rw [hn, hbiased]
  rfl

theorem mantissa_parity {n : Nat} (h : n < 2 ^ 31) : (ofBits (.ofNat n)).mantissa % 2 = n % 2 := by
  rw [ofBits_ofNat h]
  split <;> dsimp only <;> omega

theorem mantissa_pos {n : Nat} (h : n < 2 ^ 31) (hn : 0 < n) : 0 < (ofBits (.ofNat n)).mantissa := by
  rw [ofBits_ofNat h]
  split <;> dsimp only <;> omega

theorem exponent_ge {n : Nat} (h : n < 2 ^ 31) : -149 ≤ (ofBits (.ofNat n)).exponent := by
  rw [ofBits_ofNat h]
  split <;> dsimp only <;> omega

/-- **Each interval ends where the next one starts.** -/
theorem low_succ {n : Nat} (h : n + 1 < 2 ^ 31) :
    (ofBits (.ofNat (n + 1))).low = (ofBits (.ofNat n)).high := by
  rw [ofBits_ofNat h, ofBits_ofNat (by omega)]
  rcases Nat.lt_or_ge (n % 2 ^ 23 + 1) (2 ^ 23) with hsame | hnext
  · -- the exponent stays
    have hdiv : (n + 1) / 2 ^ 23 = n / 2 ^ 23 := by omega
    have hmod : (n + 1) % 2 ^ 23 = n % 2 ^ 23 + 1 := by omega
    rw [hdiv, hmod]
    split
    · simp only [low, high]
      push_cast
      ring
    · have hclose : decide (n % 2 ^ 23 + 1 = 0 ∧ 1 < n / 2 ^ 23) = false := by simp
      simp only [low, high, hclose]
      push_cast
      ring
  · -- the fraction starts again, at the same unit or at twice the unit
    have hfull : n % 2 ^ 23 = 2 ^ 23 - 1 := by omega
    have hdiv : (n + 1) / 2 ^ 23 = n / 2 ^ 23 + 1 := by omega
    have hmod : (n + 1) % 2 ^ 23 = 0 := by omega
    rw [hdiv, hmod, hfull, if_neg (Nat.succ_ne_zero _)]
    split
    next hzero =>
      rw [hzero]
      simp only [low, high]
      norm_num
    next hne =>
      have hclose : decide (0 = 0 ∧ 1 < n / 2 ^ 23 + 1) = true := by simp; omega
      have hunit : (2 : ℚ) ^ (((n / 2 ^ 23 + 1 : ℕ) : ℤ) - 150 - 2) =
          2 * 2 ^ (((n / 2 ^ 23 : ℕ) : ℤ) - 150 - 2) := by
        rw [← zpow_one_add₀ (by norm_num)]
        congr 1
        push_cast
        ring
      unfold low high
      dsimp only
      rw [hclose, hunit, if_pos rfl]
      push_cast
      ring

theorem high_lt_high {n k : Nat} (hk : k < 2 ^ 31) (h : n < k) :
    (ofBits (.ofNat n)).high < (ofBits (.ofNat k)).high := by
  induction k with
  | zero => omega
  | succ k ih =>
      have hstep : (ofBits (.ofNat k)).high < (ofBits (.ofNat (k + 1))).high := by
        rw [← low_succ hk]
        exact low_lt_high _
      rcases Nat.lt_succ_iff_lt_or_eq.mp h with hlt | rfl
      · exact (ih (by omega) hlt).trans hstep
      · exact hstep

/-- Of two numbers, the intervals have nothing in common. -/
theorem not_holds_of_lt {n k : Nat} (hk : k < 2 ^ 31) (h : n < k) {x : ℚ}
    (hn : (ofBits (.ofNat n)).Holds x) : ¬ (ofBits (.ofNat k)).Holds x := by
  intro hholds
  obtain ⟨j, rfl⟩ : ∃ j, k = j + 1 := ⟨k - 1, by omega⟩
  have hlow : (ofBits (.ofNat (j + 1))).low = (ofBits (.ofNat j)).high := low_succ hk
  rcases Nat.lt_succ_iff_lt_or_eq.mp h with hlt | rfl
  · have hgap := high_lt_high (by omega) hlt
    linarith [hn.le.2, hholds.le.1]
  · -- the common end would belong to two neighbours, of which one is odd
    have hparity := mantissa_parity (n := n) (by omega)
    have hparity' := mantissa_parity hk
    unfold Holds at hn hholds
    rw [hparity] at hn
    rw [hparity'] at hholds
    rcases Nat.mod_two_eq_zero_or_one n with heven | hodd
    · rw [if_neg (by omega)] at hholds
      rw [if_pos heven] at hn
      linarith [hn.2, hholds.1]
    · rw [if_neg (by omega)] at hn
      rw [if_pos (by omega)] at hholds
      linarith [hn.2, hholds.1]

/-- **Different numbers have different shortest decimals.** -/
theorem eq_of_toRat_shortest {n k : Nat} (hn : 0 < n) (hn' : n < 2 ^ 31) (hk : 0 < k) (hk' : k < 2 ^ 31)
    (h : (ofBits (.ofNat n)).shortest.toRat = (ofBits (.ofNat k)).shortest.toRat) : n = k := by
  have hholds := holds_shortest (mantissa_pos hn' hn) (exponent_ge hn')
  have hholds' := holds_shortest (mantissa_pos hk' hk) (exponent_ge hk')
  rw [← h] at hholds'
  rcases Nat.lt_trichotomy n k with hlt | heq | hgt
  · exact absurd hholds' (not_holds_of_lt hk' hlt hholds)
  · exact heq
  · exact absurd hholds (not_holds_of_lt hn' hgt hholds')

end Binary

end Jaf
