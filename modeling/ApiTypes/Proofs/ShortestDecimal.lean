import ApiTypes.Decimal.Text
import ApiTypes.Proofs.Rounding

/-!
# Shortest decimals

A decimal of at most seventeen digits that rounds to a double is always found, so the shortest decimal of
a double rounds to it.
-/

namespace ApiTypes.Decimal

open Binary

/-! ## Rounding intervals -/

section
variable {b : Binary}

theorem den_rounding_ne_zero (b : Binary) : b.rounding.den ≠ 0 := by
  unfold Binary.rounding
  dsimp only
  split
  · exact one_ne_zero
  · exact (Nat.two_pow_pos _).ne'

theorem exists_unit (b : Binary) : ∃ unit : Nat,
    (unit / b.rounding.den : ℚ) = 2 ^ b.exponent / 4 ∧
    b.rounding.low = (4 * b.significand -
      if b.significand = 2 ^ 52 ∧ b.exponent ≠ -1074 then 1 else 2) * unit ∧
    b.rounding.value = 4 * b.significand * unit ∧
    b.rounding.high = (4 * b.significand + 2) * unit := by
  refine ⟨if 0 ≤ b.exponent - 2 then 2 ^ (b.exponent - 2).toNat else 1, ?_, ?_, rfl, rfl⟩
  -- all bounds are whole multiples of a quarter of the last place
  · have hquarter : (2 : ℚ) ^ b.exponent / 4 = 2 ^ (b.exponent - 2) := by
      rw [zpow_sub₀ two_ne_zero]
      norm_num
    rw [hquarter]
    unfold Binary.rounding
    dsimp only
    split
    · rename_i h
      obtain ⟨n, hn⟩ := Int.eq_ofNat_of_zero_le h
      rw [hn, Int.toNat_natCast]
      simp
    · rename_i h
      obtain ⟨n, hn⟩ := Int.eq_ofNat_of_zero_le (show 0 ≤ -(b.exponent - 2) by omega)
      rw [hn, show b.exponent - 2 = -n by omega, Int.toNat_natCast]
      simp
  · have hgap : (b.significand = Nat.pow 2 52 && b.exponent != -1074) =
        decide (b.significand = 2 ^ 52 ∧ b.exponent ≠ -1074) := by
      rw [Nat.pow_eq, Bool.decide_and]
      congr 1
      exact (decide_not ..).symm
    unfold Binary.rounding
    dsimp only
    rw [hgap]
    simp only [decide_eq_true_eq]
    rfl

theorem low_rounding (hb : b.significand ≠ 0) :
    (b.rounding.low / b.rounding.den : ℚ) = b.lowest := by
  obtain ⟨unit, hunit, hlow, -, -⟩ := exists_unit b
  rw [hlow, lowest, gapBelow]
  split
  · rw [Nat.cast_mul, mul_div_assoc, hunit, Nat.cast_sub (by omega)]
    push_cast
    ring
  · rw [Nat.cast_mul, mul_div_assoc, hunit, Nat.cast_sub (by omega)]
    push_cast
    ring

theorem value_rounding (b : Binary) :
    (b.rounding.value / b.rounding.den : ℚ) = b.significand * 2 ^ b.exponent := by
  obtain ⟨unit, hunit, -, hvalue, -⟩ := exists_unit b
  rw [hvalue, Nat.cast_mul, mul_div_assoc, hunit]
  push_cast
  ring

theorem high_rounding (b : Binary) : (b.rounding.high / b.rounding.den : ℚ) = b.highest := by
  obtain ⟨unit, hunit, -, -, hhigh⟩ := exists_unit b
  rw [hhigh, Nat.cast_mul, mul_div_assoc, hunit, highest]
  push_cast
  ring

theorem lowest_lt_highest (b : Binary) : b.lowest < b.highest := by
  have hgap := (gapBelow_le b).1
  exact mul_lt_mul_of_pos_right (by linarith) (by positivity)

theorem holds_iff (hb : b.significand ≠ 0) {d : Decimal} :
    b.rounding.holds d = true ↔ b.Covers d.toRat := by
  have hden := den_rounding_ne_zero b
  have hlt := lowest_lt_highest b
  have hclosed : b.rounding.closed = decide (b.significand % 2 = 0) := rfl
  rw [Rounding.holds, compareQuotient_eq hden, compareQuotient_eq hden, low_rounding hb,
    high_rounding b, hclosed]
  generalize d.toRat = q
  rcases lt_trichotomy q b.lowest with hlow | rfl | hlow
  · rw [compare_lt_iff_lt.mpr hlow, compare_lt_iff_lt.mpr (hlow.trans hlt)]
    exact iff_of_false Bool.false_ne_true fun h => absurd h.low (not_le.mpr hlow)
  · rw [compare_eq_iff_eq.mpr rfl]
    refine (decide_eq_true_iff).trans ⟨fun h => ⟨le_rfl, hlt.le, fun _ => h⟩, fun h => ?_⟩
    exact h.middle (.inl rfl)
  rw [compare_gt_iff_gt.mpr hlow]
  rcases lt_trichotomy q b.highest with hhigh | rfl | hhigh
  · rw [compare_lt_iff_lt.mpr hhigh]
    refine iff_of_true rfl ⟨hlow.le, hhigh.le, fun h => ?_⟩
    exact absurd h (not_or.mpr ⟨hlow.ne', hhigh.ne⟩)
  · rw [compare_eq_iff_eq.mpr rfl]
    refine (decide_eq_true_iff).trans ⟨fun h => ⟨hlow.le, le_rfl, fun _ => h⟩, fun h => ?_⟩
    exact h.middle (.inr rfl)
  · rw [compare_gt_iff_gt.mpr hhigh]
    exact iff_of_false Bool.false_ne_true fun h => absurd h.high (not_le.mpr hhigh)

theorem holds_onGrid {r : Rounding} {p : Int} {d : Decimal} (h : r.onGrid? p = some d) :
    r.holds d = true := by
  unfold Rounding.onGrid? at h
  dsimp only at h
  split at h
  · rename_i hdown _
    cases h
    exact hdown
  · rename_i _ hup
    cases h
    exact hup
  · cases h
  · rename_i hdown hup
    split at h
    · cases h
      exact hdown
    · cases h
      exact hup
    · split at h
      · cases h
        exact hdown
      · cases h
        exact hup

end

/-! ## Grids -/

theorem gridBelow_spec {num den : Nat} (hden : den ≠ 0) (p : Int) :
    gridBelow num den p * (10 : ℚ) ^ p ≤ num / den ∧
      (num / den : ℚ) < (gridBelow num den p + 1) * 10 ^ p := by
  have hten : (0 : ℚ) < 10 ^ p := by positivity
  obtain ⟨hd, hq⟩ := scaled_spec hden (show 10 ≠ 0 by decide) num p
  have hgrid : gridBelow num den p = (scaled 10 num den p).1 / (scaled 10 num den p).2 := by
    rw [gridBelow, scaled]
    split <;> rfl
  have hd' := cast_den_pos hd
  rw [Nat.cast_ofNat] at hq
  rw [hgrid, ← le_div_iff₀ hten, ← div_lt_iff₀ hten, ← hq, le_div_iff₀ hd', div_lt_iff₀ hd']
  constructor
  · exact_mod_cast Nat.div_mul_le_self _ _
  · exact_mod_cast Nat.lt_mul_of_div_lt (Nat.lt_succ_self _) (Nat.pos_of_ne_zero hd)

/-- The estimate of the decimal exponent is never too great by more than one. -/
theorem estimate_le {e : Int} (hlow : -1075 ≤ e) (hhigh : e ≤ 1024) :
    (10 : ℚ) ^ (e * 30103 / 100000 - 1) ≤ 2 ^ e := by
  rcases le_or_gt 0 e with he | he
  · obtain ⟨n, rfl⟩ := Int.eq_ofNat_of_zero_le he
    have hall : ∀ n < 1100, 10 ^ (n * 30103 / 100000) ≤ 10 * 2 ^ n := by decide +kernel
    have hn := hall n (by omega)
    rw [zpow_sub_one₀ (by norm_num), mul_inv_le_iff₀ (by norm_num), mul_comm _ (10 : ℚ)]
    exact_mod_cast hn
  · obtain ⟨n, hn⟩ := Int.eq_ofNat_of_zero_le (show 0 ≤ -e by omega)
    obtain rfl : e = -n := by omega
    have hall : ∀ n < 1100, 2 ^ n ≤ 10 ^ ((n * 30103 + 99999) / 100000 + 1) := by decide +kernel
    have hn := hall n (by omega)
    have hexponent : -(n : Int) * 30103 / 100000 - 1 = -(((n * 30103 + 99999) / 100000 + 1 : Nat) : Int) := by
      push_cast
      omega
    rw [hexponent, zpow_neg, zpow_neg, zpow_natCast, zpow_natCast]
    exact inv_anti₀ (by positivity) (by exact_mod_cast hn)

theorem fits_iff {num den : Nat} (hden : den ≠ 0) (e : Int) :
    ((⟨1, e⟩ : Decimal).compareQuotient num den != .gt) = true ↔ (10 : ℚ) ^ e ≤ num / den := by
  rw [bne_iff_ne, compareQuotient_eq hden, compare_le_iff_le, toRat_eq, Nat.cast_one, one_mul]

section
variable {b : Binary} (hb : b.IsDouble)
include hb

theorem value_rounding_ne_zero : b.rounding.value ≠ 0 := by
  intro hzero
  have hvalue := value_rounding b
  have hone := hb.one_le
  have hpow : (0 : ℚ) < 2 ^ b.exponent := by positivity
  rw [hzero, Nat.cast_zero, zero_div] at hvalue
  have hpos : (0 : ℚ) < b.significand * 2 ^ b.exponent := mul_pos (by linarith) hpow
  exact hpos.ne hvalue

theorem decimalExponent_le :
    (10 : ℚ) ^ decimalExponent b.rounding.value b.rounding.den ≤ b.significand * 2 ^ b.exponent := by
  have hden := den_rounding_ne_zero b
  have hvalue := value_rounding b
  obtain ⟨hlow, hhigh⟩ := binaryExponent_spec hden (value_rounding_ne_zero hb)
  have hfits := @fits_iff b.rounding.value _ hden
  unfold decimalExponent
  dsimp only
  generalize binaryExponent b.rounding.value b.rounding.den = e at *
  simp only [hfits]
  rw [hvalue] at hlow hhigh ⊢
  split_ifs with h1 h2
  · exact h1
  · exact h2
  · refine (estimate_le ?_ ?_).trans hlow
    -- the estimate is right for every exponent a double has
    · have hone := hb.one_le
      have hleast : (2 : ℚ) ^ (-1074 : Int) ≤ b.significand * 2 ^ b.exponent := by
        calc (2 : ℚ) ^ (-1074 : Int) ≤ 2 ^ b.exponent := zpow_le_zpow_right₀ one_le_two hb.least
          _ ≤ b.significand * 2 ^ b.exponent := le_mul_of_one_le_left (by positivity) hone
      have := (zpow_lt_zpow_iff_right₀ (one_lt_two (α := ℚ))).mp (hleast.trans_lt hhigh)
      omega
    · have hbound := hb.le_bound
      have hgreatest : (b.significand : ℚ) * 2 ^ b.exponent ≤ 2 ^ (1024 : Int) := by
        have hsignificand : (b.significand : ℚ) ≤ 2 ^ (53 : Int) := by
          rw [zpow_ofNat]
          linarith
        calc (b.significand : ℚ) * 2 ^ b.exponent ≤ 2 ^ (53 : Int) * 2 ^ (971 : Int) :=
              mul_le_mul hsignificand (zpow_le_zpow_right₀ one_le_two hb.greatest)
                (by positivity) (by positivity)
          _ = 2 ^ (1024 : Int) := by rw [← zpow_add₀ two_ne_zero]; rfl
      exact (zpow_le_zpow_iff_right₀ (one_lt_two (α := ℚ))).mp (hlow.trans hgreatest)

omit hb in
theorem exists_of_holds {r : Rounding} {p : Int}
    (h : r.holds ⟨gridBelow r.value r.den p, p⟩ = true ∨
      r.holds ⟨gridBelow r.value r.den p + 1, p⟩ = true) : ∃ d, r.onGrid? p = some d := by
  unfold Rounding.onGrid?
  dsimp only
  cases hdown : r.holds ⟨gridBelow r.value r.den p, p⟩ with
  | false =>
    rw [hdown] at h
    rw [h.resolve_left Bool.false_ne_true]
    exact ⟨_, rfl⟩
  | true =>
    cases r.holds ⟨gridBelow r.value r.den p + 1, p⟩ with
    | false => exact ⟨_, rfl⟩
    | true =>
      dsimp only
      split
      · exact ⟨_, rfl⟩
      · exact ⟨_, rfl⟩
      · exact ⟨_, rfl⟩

omit hb in
theorem covers_of_between {q : ℚ} (hlow : b.lowest < q) (hhigh : q < b.highest) : b.Covers q :=
  ⟨hlow.le, hhigh.le, fun h => absurd h (not_or.mpr ⟨hlow.ne', hhigh.ne⟩)⟩

/-- The sixteenth decimal place behind the first digit is finer than the interval is wide. -/
theorem grid_lt_width :
    (10 : ℚ) ^ (decimalExponent b.rounding.value b.rounding.den - 16) < b.highest - b.lowest := by
  have hpow : (0 : ℚ) < 2 ^ b.exponent := by positivity
  have hbound := hb.le_bound
  have hsignificand : b.significand / 10 ^ 16 < 1 / 2 + b.gapBelow := by
    unfold gapBelow
    split
    · rename_i hsmall
      rw [hsmall.1]
      norm_num
    · norm_num at hbound ⊢
      linarith
  calc (10 : ℚ) ^ (decimalExponent b.rounding.value b.rounding.den - 16)
      = 10 ^ decimalExponent b.rounding.value b.rounding.den / 10 ^ 16 := by
        rw [zpow_sub₀ (by norm_num)]
        rfl
    _ ≤ b.significand * 2 ^ b.exponent / 10 ^ 16 := by
        gcongr
        exact decimalExponent_le hb
    _ = b.significand / 10 ^ 16 * 2 ^ b.exponent := by ring
    _ < (1 / 2 + b.gapBelow) * 2 ^ b.exponent := mul_lt_mul_of_pos_right hsignificand hpow
    _ = b.highest - b.lowest := by rw [highest, lowest]; ring

theorem exists_onGrid : ∃ d, b.rounding.onGrid?
    (decimalExponent b.rounding.value b.rounding.den - 16) = some d := by
  have hpow : (0 : ℚ) < 2 ^ b.exponent := by positivity
  have hwidth := grid_lt_width hb
  generalize decimalExponent b.rounding.value b.rounding.den - 16 = p at *
  obtain ⟨hdown, hup⟩ := @gridBelow_spec b.rounding.value _ (den_rounding_ne_zero b) p
  rw [value_rounding] at hdown hup
  have hgap := gapBelow_le b
  have hvalue : b.lowest < b.significand * 2 ^ b.exponent ∧
      b.significand * 2 ^ b.exponent < b.highest :=
    ⟨mul_lt_mul_of_pos_right (by linarith) hpow, mul_lt_mul_of_pos_right (by linarith) hpow⟩
  refine exists_of_holds ?_
  rw [holds_iff hb.pos, holds_iff hb.pos, toRat_eq, toRat_eq, Nat.cast_succ]
  -- one of the neighbours is in the interval, which is wider than their distance
  by_contra hneither
  obtain ⟨hnotDown, hnotUp⟩ := not_or.mp hneither
  have hlow : gridBelow b.rounding.value b.rounding.den p * (10 : ℚ) ^ p ≤ b.lowest :=
    not_lt.mp fun h => hnotDown (covers_of_between h (hdown.trans_lt hvalue.2))
  have hhigh : b.highest ≤ (gridBelow b.rounding.value b.rounding.den p + 1) * (10 : ℚ) ^ p :=
    not_lt.mp fun h => hnotUp (covers_of_between (hvalue.1.trans hup) h)
  linarith

/-- The shortest decimal of a double rounds to it. -/
theorem covers_shortest : b.Covers (shortest b).toRat := by
  obtain ⟨d, hd⟩ := exists_onGrid hb
  have hfound : ((List.range 17).findSome? fun n : Nat =>
      b.rounding.onGrid? (decimalExponent b.rounding.value b.rounding.den - n)).isSome := by
    rw [List.findSome?_isSome_iff]
    exact ⟨16, by simp, by simp [hd]⟩
  obtain ⟨d', hd'⟩ := Option.isSome_iff_exists.mp hfound
  obtain ⟨n, _, hn⟩ := List.exists_of_findSome?_eq_some hd'
  have hshortest : shortest b = d' := congrArg (·.getD ⟨0, 0⟩) hd'
  rw [hshortest]
  exact (holds_iff hb.pos).mp (holds_onGrid hn)

end

end ApiTypes.Decimal
