import Mathlib.Algebra.Order.Field.Power
import Mathlib.Data.Rat.Cast.Order
import Mathlib.Tactic.FieldSimp
import Mathlib.Tactic.Linarith
import Mathlib.Tactic.NormNum
import Mathlib.Tactic.Positivity
import Mathlib.Tactic.Ring
import ApiTypes.Decimal.Shortest
import ApiTypes.Proofs.Accepts

/-!
# Rounding to doubles

A decimal rounds to a double if and only if it lies between the middles to the next doubles, where the
middles count if the significand is even.
-/

namespace ApiTypes.Decimal

theorem toRat_eq (d : Decimal) : d.toRat = d.digits * (10 : ℚ) ^ d.exponent := by
  unfold toRat
  split
  · rename_i h
    obtain ⟨n, hn⟩ := Int.eq_ofNat_of_zero_le h
    rw [hn, Int.toNat_natCast, zpow_natCast]
  · rename_i h
    obtain ⟨n, hn⟩ := Int.eq_ofNat_of_zero_le (show 0 ≤ -d.exponent by omega)
    rw [hn, Int.toNat_natCast, show d.exponent = -n by omega, zpow_neg, zpow_natCast,
      div_eq_mul_inv]

/-! ## Comparing -/

section
variable {num den : Nat}

theorem compare_nat_eq {a b : Nat} {x y c : ℚ} (hc : 0 < c) (hx : x * c = a) (hy : y * c = b) :
    compare a b = compare x y := by
  have hab : a < b ↔ x < y := by
    rw [← Nat.cast_lt (α := ℚ), ← hx, ← hy]
    exact mul_lt_mul_iff_left₀ hc
  have hba : b < a ↔ y < x := by
    rw [← Nat.cast_lt (α := ℚ), ← hx, ← hy]
    exact mul_lt_mul_iff_left₀ hc
  rcases lt_trichotomy x y with h | h | h
  · rw [compare_lt_iff_lt.mpr h, compare_lt_iff_lt.mpr (hab.mpr h)]
  · have heq : a = b := by
      have h1 : ¬ a < b := fun hlt => (hab.mp hlt).ne h
      have h2 : ¬ b < a := fun hlt => (hba.mp hlt).ne h.symm
      omega
    rw [compare_eq_iff_eq.mpr h, compare_eq_iff_eq.mpr heq]
  · rw [compare_gt_iff_gt.mpr h, compare_gt_iff_gt.mpr (hba.mpr h)]

theorem compareQuotient_eq (hden : den ≠ 0) (d : Decimal) :
    d.compareQuotient num den = compare d.toRat (num / den) := by
  have hden' : (0 : ℚ) < den := by exact_mod_cast Nat.pos_of_ne_zero hden
  unfold compareQuotient toRat
  split
  · refine compare_nat_eq hden' ?_ ?_
    · simp
    · field_simp
  · refine compare_nat_eq (c := den * 10 ^ (-d.exponent).toNat) (by positivity) ?_ ?_
    · simp
      field_simp
    · simp
      field_simp

end


/-! ## Rounding quotients -/

theorem roundQuotient_eq {num den n : Nat} (hden : den ≠ 0) (hlow : 2 * n * den ≤ 2 * num + den)
    (hhigh : 2 * num ≤ 2 * n * den + den)
    (heven : 2 * n * den = 2 * num + den ∨ 2 * num = 2 * n * den + den → n % 2 = 0) :
    roundQuotient num den = n := by
  have hdiv := Nat.div_add_mod num den
  have hmod := Nat.mod_lt num (Nat.pos_of_ne_zero hden)
  unfold roundQuotient
  dsimp only
  generalize num / den = q at *
  generalize num % den = r at *
  have hle : q ≤ n := by
    by_contra h
    have := Nat.mul_le_mul_right den (show n + 1 ≤ q by omega)
    nlinarith
  have hge : n ≤ q + 1 := by
    by_contra h
    have := Nat.mul_le_mul_right den (show q + 2 ≤ n by omega)
    nlinarith
  -- `n` is the quotient or the number above it
  rcases (show n = q ∨ n = q + 1 by omega) with rfl | rfl
  · rw [← hdiv] at hhigh heven
    have hr : 2 * r ≤ den := by nlinarith
    split_ifs with h1 h2 h3
    · rfl
    · omega
    · rfl
    · have h4 : 2 * r = den := by omega
      exact absurd (heven (.inr (by rw [← h4]; ring))) h3
  · rw [← hdiv] at hlow heven
    have hr : den ≤ 2 * r := by nlinarith
    split_ifs with h1 h2 h3
    · omega
    · rfl
    · have h4 : 2 * r = den := by omega
      have := heven (.inl (by rw [← h4]; ring))
      omega
    · rfl

section
variable {num den : Nat} (hden : den ≠ 0)
include hden

theorem cast_den_pos : (0 : ℚ) < den := by exact_mod_cast Nat.pos_of_ne_zero hden

def scaled (β num den : Nat) (e : Int) : Nat × Nat :=
  if 0 ≤ e then (num, den * β ^ e.toNat) else (num * β ^ (-e).toNat, den)

theorem scaled_spec {β : Nat} (hβ : β ≠ 0) (num : Nat) (e : Int) : (scaled β num den e).2 ≠ 0 ∧
    ((scaled β num den e).1 / (scaled β num den e).2 : ℚ) = num / den / β ^ e := by
  have hden' := cast_den_pos hden
  have hβ' : (0 : ℚ) < β := cast_den_pos hβ
  unfold scaled
  rcases le_or_gt 0 e with he | he
  · obtain ⟨k, rfl⟩ := Int.eq_ofNat_of_zero_le he
    rw [if_pos he, Int.toNat_natCast, zpow_natCast]
    refine ⟨by positivity, ?_⟩
    push_cast
    exact (div_div ..).symm
  · obtain ⟨k, hk⟩ := Int.eq_ofNat_of_zero_le (show 0 ≤ -e by omega)
    rw [if_neg (by omega), hk, Int.toNat_natCast, show e = -k by omega, zpow_neg, zpow_natCast]
    refine ⟨hden, ?_⟩
    push_cast
    field_simp

theorem roundAt_eq {n : Nat} {e : Int} (hlow : n - 1 / 2 ≤ (num / den / 2 ^ e : ℚ))
    (hhigh : (num / den / 2 ^ e : ℚ) ≤ n + 1 / 2)
    (heven : (num / den / 2 ^ e : ℚ) = n - 1 / 2 ∨ (num / den / 2 ^ e : ℚ) = n + 1 / 2 → n % 2 = 0) :
    roundAt num den e = n := by
  obtain ⟨hd, hq⟩ := scaled_spec hden two_ne_zero num e
  have hround : roundAt num den e = roundQuotient (scaled 2 num den e).1 (scaled 2 num den e).2 := by
    rw [roundAt, scaled]
    split <;> rfl
  generalize (scaled 2 num den e).1 = a at *
  generalize (scaled 2 num den e).2 = d at *
  have hpos := cast_den_pos hd
  rw [Nat.cast_ofNat] at hq
  rw [← hq] at hlow hhigh heven
  rw [le_div_iff₀ hpos] at hlow
  rw [div_le_iff₀ hpos] at hhigh
  rw [div_eq_iff hpos.ne', div_eq_iff hpos.ne'] at heven
  -- the bounds are about natural numbers in the rationals
  have hcast : ∀ {b c : Nat}, ((b : ℚ) = c ↔ b = c) ∧ ((b : ℚ) ≤ c ↔ b ≤ c) :=
    ⟨Nat.cast_inj, Nat.cast_le⟩
  rw [hround]
  refine roundQuotient_eq hd ?_ ?_ fun h => heven ?_
  · rw [← hcast.2]
    push_cast
    linarith
  · rw [← hcast.2]
    push_cast
    linarith
  · rw [← hcast.1, ← hcast.1] at h
    push_cast at h
    exact h.imp (fun h => by linarith) fun h => by linarith

theorem reaches_iff {e : Int} : reaches num den e = true ↔ (2 : ℚ) ^ e ≤ num / den := by
  obtain ⟨hd, hq⟩ := scaled_spec hden two_ne_zero num e
  have hreaches : reaches num den e = true ↔ (scaled 2 num den e).2 ≤ (scaled 2 num den e).1 := by
    rw [reaches, scaled]
    split <;> exact decide_eq_true_iff
  have hpow : (0 : ℚ) < 2 ^ e := by positivity
  rw [Nat.cast_ofNat] at hq
  rw [hreaches, ← one_le_div hpow, ← hq, one_le_div (cast_den_pos hd), Nat.cast_le]

theorem binaryExponent_spec (hnum : num ≠ 0) :
    (2 : ℚ) ^ binaryExponent num den ≤ num / den ∧
      (num / den : ℚ) < 2 ^ (binaryExponent num den + 1) := by
  have hpos := cast_den_pos hden
  have hbounds : ∀ {n : Nat}, n ≠ 0 → (2 : ℚ) ^ (n.log2 : Int) ≤ n ∧ (n : ℚ) < 2 ^ (n.log2 + 1 : Int) := by
    intro n hn
    refine ⟨?_, ?_⟩
    · exact_mod_cast Nat.log2_self_le hn
    · exact_mod_cast Nat.lt_log2_self (n := n)
  obtain ⟨hnum1, hnum2⟩ := hbounds hnum
  obtain ⟨hden1, hden2⟩ := hbounds hden
  -- from the powers around both parts
  have hlow : (2 : ℚ) ^ ((num.log2 : Int) - den.log2 - 1) ≤ num / den := by
    rw [le_div_iff₀ hpos]
    calc (2 : ℚ) ^ ((num.log2 : Int) - den.log2 - 1) * den
        ≤ 2 ^ ((num.log2 : Int) - den.log2 - 1) * 2 ^ (den.log2 + 1 : Int) := by gcongr
      _ = 2 ^ (num.log2 : Int) := by rw [← zpow_add₀ two_ne_zero]; ring_nf
      _ ≤ num := hnum1
  have hhigh : (num / den : ℚ) < 2 ^ ((num.log2 : Int) - den.log2 + 1) := by
    rw [div_lt_iff₀ hpos]
    calc (num : ℚ) < 2 ^ (num.log2 + 1 : Int) := hnum2
      _ = 2 ^ ((num.log2 : Int) - den.log2 + 1) * 2 ^ (den.log2 : Int) := by
        rw [← zpow_add₀ two_ne_zero]; ring_nf
      _ ≤ 2 ^ ((num.log2 : Int) - den.log2 + 1) * den := by gcongr
  unfold binaryExponent
  dsimp only
  split
  · rename_i hreaches
    exact ⟨(reaches_iff hden).mp hreaches, hhigh⟩
  · rename_i hreaches
    rw [reaches_iff hden, not_le] at hreaches
    exact ⟨hlow, by rwa [sub_add_cancel]⟩

end

/-! ## Doubles -/

namespace Binary

structure IsDouble (b : Binary) : Prop where
  least : -1074 ≤ b.exponent
  greatest : b.exponent ≤ 971
  pos : b.significand ≠ 0
  bound : b.significand < 2 ^ 53
  normal : b.exponent = -1074 ∨ 2 ^ 52 ≤ b.significand

def bits (b : Binary) : Nat := (b.exponent + 1074).toNat * 2 ^ 52 + b.significand

/-- How far the middle to the next lower double is, in units of the last place. Below a power of two the
doubles are twice as close. -/
def gapBelow (b : Binary) : ℚ := if b.significand = 2 ^ 52 ∧ b.exponent ≠ -1074 then 1 / 4 else 1 / 2

def lowest (b : Binary) : ℚ := (b.significand - b.gapBelow) * 2 ^ b.exponent

def highest (b : Binary) : ℚ := (b.significand + 1 / 2) * 2 ^ b.exponent

structure Covers (b : Binary) (q : ℚ) : Prop where
  low : b.lowest ≤ q
  high : q ≤ b.highest
  middle : q = b.lowest ∨ q = b.highest → b.significand % 2 = 0

theorem gapBelow_le (b : Binary) : 1 / 4 ≤ b.gapBelow ∧ b.gapBelow ≤ 1 / 2 := by
  unfold gapBelow
  split <;> norm_num

section
variable {b : Binary} (hb : b.IsDouble)
include hb

theorem IsDouble.one_le : (1 : ℚ) ≤ b.significand := by
  exact_mod_cast Nat.pos_of_ne_zero hb.pos

theorem IsDouble.le_bound : (b.significand : ℚ) + 1 ≤ 2 ^ 53 := by
  exact_mod_cast hb.bound

theorem Covers.pos {q : ℚ} (h : b.Covers q) : 0 < q := by
  refine lt_of_lt_of_le ?_ h.low
  have hone := hb.one_le
  have hgap := (gapBelow_le b).2
  exact mul_pos (by linarith) (by positivity)

theorem Covers.lt_binade {q : ℚ} (h : b.Covers q) : q < 2 ^ (b.exponent + 53) := by
  have hbound := hb.le_bound
  have hpow : (0 : ℚ) < 2 ^ b.exponent := by positivity
  calc q ≤ (b.significand + 1 / 2) * 2 ^ b.exponent := h.high
    _ < 2 ^ 53 * 2 ^ b.exponent := mul_lt_mul_of_pos_right (by linarith) hpow
    _ = 2 ^ (b.exponent + 53) := by rw [zpow_add₀ two_ne_zero, mul_comm]; rfl

theorem Covers.below_binade {q : ℚ} (h : b.Covers q) (hnormal : b.exponent ≠ -1074)
    (hq : q < 2 ^ (b.exponent + 52)) :
    b.significand = 2 ^ 52 ∧ (2 ^ 52 - 1 / 4) * 2 ^ b.exponent ≤ q := by
  have hpow : (0 : ℚ) < 2 ^ b.exponent := by positivity
  have hle := hb.normal.resolve_left hnormal
  have hsignificand : b.significand = 2 ^ 52 := by
    by_contra hne
    have hgap : b.gapBelow = 1 / 2 := if_neg fun hand => hne hand.1
    have hlt : (2 ^ 52 + 1 : ℚ) ≤ b.significand := by
      exact_mod_cast lt_of_le_of_ne hle (Ne.symm hne)
    have hlow := h.low
    rw [lowest, hgap] at hlow
    have hbinade : (2 : ℚ) ^ (b.exponent + 52) = 2 ^ 52 * 2 ^ b.exponent := by
      rw [zpow_add₀ two_ne_zero, mul_comm]
      rfl
    have hmul := mul_le_mul_of_nonneg_right hlt hpow.le
    rw [hbinade] at hq
    nlinarith
  refine ⟨hsignificand, ?_⟩
  have hgap : b.gapBelow = 1 / 4 := if_pos ⟨hsignificand, hnormal⟩
  have hlow := h.low
  rw [lowest, hgap, hsignificand] at hlow
  exact_mod_cast hlow

end

end Binary

open Binary

section
variable {b : Binary} {num den : Nat} (hden : den ≠ 0)
include hden

theorem roundAt_exponent (h : b.Covers (num / den)) :
    roundAt num den b.exponent = b.significand := by
  have hpow : (0 : ℚ) < 2 ^ b.exponent := by positivity
  have hgap := (gapBelow_le b).2
  refine roundAt_eq hden ?_ ?_ fun hmiddle => ?_
  · rw [le_div_iff₀ hpow]
    refine le_trans ?_ h.low
    exact mul_le_mul_of_nonneg_right (by linarith) hpow.le
  · rw [div_le_iff₀ hpow]
    exact h.high
  · rw [div_eq_iff hpow.ne', div_eq_iff hpow.ne'] at hmiddle
    by_cases hsmall : b.significand = 2 ^ 52 ∧ b.exponent ≠ -1074
    · rw [hsmall.1]
      rfl
    · refine h.middle (hmiddle.imp_left fun hlow => ?_)
      rw [hlow, lowest, gapBelow, if_neg hsmall]

/-- Rounded in the binade below, the significand carries into the exponent. -/
theorem roundAt_below (hbelow : (2 ^ 52 - 1 / 4 : ℚ) * 2 ^ b.exponent ≤ num / den)
    (hq : (num / den : ℚ) < 2 ^ (b.exponent + 52)) :
    roundAt num den (b.exponent - 1) = 2 ^ 53 := by
  have hpow : (0 : ℚ) < 2 ^ b.exponent := by positivity
  have hbinade : (2 : ℚ) ^ (b.exponent + 52) = 2 ^ 52 * 2 ^ b.exponent := by
    rw [zpow_add₀ two_ne_zero, mul_comm]
    rfl
  have hhalf : (num / den / 2 ^ (b.exponent - 1) : ℚ) = num / den / 2 ^ b.exponent * 2 := by
    rw [zpow_sub_one₀ two_ne_zero]
    field_simp
  rw [hbinade, ← div_lt_iff₀ hpow] at hq
  rw [← le_div_iff₀ hpow] at hbelow
  refine roundAt_eq hden ?_ ?_ fun _ => by norm_num
  · rw [hhalf]
    push_cast
    linarith
  · rw [hhalf]
    push_cast
    linarith

theorem nearestBits_eq (hb : b.IsDouble) (h : b.Covers (num / den)) :
    nearestBits num den = b.bits := by
  have hnum : num ≠ 0 := by
    rintro rfl
    have hpos := h.pos hb
    rw [Nat.cast_zero, zero_div] at hpos
    exact lt_irrefl _ hpos
  obtain ⟨hlow, hhigh⟩ := binaryExponent_spec hden hnum
  have hle : binaryExponent num den < b.exponent + 53 :=
    (zpow_lt_zpow_iff_right₀ one_lt_two).mp (hlow.trans_lt (h.lt_binade hb))
  have hleast := hb.least
  have hfinite : b.bits ≤ infinityBits := by
    have hgreatest := hb.greatest
    have hbound := hb.bound
    rw [bits, infinityBits, Nat.pow_eq]
    omega
  have hbits : (max (binaryExponent num den - 52) (-1074) + 1074).toNat * 2 ^ 52 +
      roundAt num den (max (binaryExponent num den - 52) (-1074)) = b.bits := by
    -- a decimal below the power of two rounds up to it from the binade below
    by_cases hexponent : max (binaryExponent num den - 52) (-1074) = b.exponent
    · rw [hexponent, roundAt_exponent hden h, bits]
    · have hnormal : b.exponent ≠ -1074 := by omega
      have hq : (num / den : ℚ) < 2 ^ (b.exponent + 52) :=
        hhigh.trans_le (zpow_le_zpow_right₀ one_le_two (by omega))
      obtain ⟨hsignificand, hbelow⟩ := h.below_binade hb hnormal hq
      have hge : b.exponent + 51 < binaryExponent num den + 1 := by
        refine (zpow_lt_zpow_iff_right₀ (one_lt_two (α := ℚ))).mp (lt_of_le_of_lt ?_ hhigh)
        refine le_trans ?_ hbelow
        rw [zpow_add₀ two_ne_zero, mul_comm]
        exact mul_le_mul_of_nonneg_right (by norm_num) (by positivity)
      have hbinade : max (binaryExponent num den - 52) (-1074) = b.exponent - 1 := by omega
      rw [hbinade, roundAt_below hden hbelow hq, bits, hsignificand]
      omega
  unfold nearestBits
  rw [if_neg hnum]
  dsimp only
  rw [Nat.pow_eq, hbits]
  exact min_eq_right hfinite

end

/-! ## Decimals -/

theorem small_lt : (10 : ℚ) ^ (-400 : Int) ≤ 2 ^ (-1075 : Int) := by
  have h : 2 ^ 1075 ≤ 10 ^ 400 := by decide +kernel
  rw [zpow_neg, zpow_neg]
  refine inv_anti₀ (by positivity) ?_
  exact_mod_cast h

theorem large_lt : (2 : ℚ) ^ (1024 : Int) ≤ 10 ^ (400 : Int) := by
  have h : 2 ^ 1024 ≤ 10 ^ 400 := by decide +kernel
  exact_mod_cast h

section
variable {b : Binary} (hb : b.IsDouble) {d : Decimal} (h : b.Covers d.toRat)
include hb h

theorem Binary.Covers.digits_ne_zero : d.digits ≠ 0 := by
  intro hzero
  have hpos := h.pos hb
  rw [toRat_eq, hzero, Nat.cast_zero, zero_mul] at hpos
  exact lt_irrefl _ hpos

theorem Binary.Covers.bounds : (2 : ℚ) ^ (-1075 : Int) ≤ d.toRat ∧ d.toRat < 2 ^ (1024 : Int) := by
  have hone := hb.one_le
  have hgap := (gapBelow_le b).2
  constructor
  · calc (2 : ℚ) ^ (-1075 : Int) = 1 / 2 * 2 ^ (-1074 : Int) := by
          rw [show (-1075 : Int) = -1074 - 1 by norm_num, zpow_sub_one₀ two_ne_zero]
          ring
      _ ≤ (b.significand - b.gapBelow) * 2 ^ b.exponent := by
          have hexponent := zpow_le_zpow_right₀ (one_le_two (α := ℚ)) hb.least
          exact mul_le_mul (by linarith) hexponent (by positivity) (by linarith)
      _ ≤ d.toRat := h.low
  · refine (h.lt_binade hb).trans_le (zpow_le_zpow_right₀ one_le_two ?_)
    have := hb.greatest
    omega

/-- No such decimal is decided by its exponent alone. -/
theorem Binary.Covers.exponent_bounds :
    -400 ≤ (d.digits.log2 / 3 + 1 : Nat) + d.exponent ∧ d.exponent ≤ 400 := by
  obtain ⟨hlow, hhigh⟩ := h.bounds hb
  have hdigits := h.digits_ne_zero hb
  rw [toRat_eq] at hlow hhigh
  have hten : (0 : ℚ) < 10 ^ d.exponent := by positivity
  constructor
  · by_contra hlt
    -- three bits take one decimal place at most
    have hplaces : d.digits < 10 ^ (d.digits.log2 / 3 + 1) := by
      calc d.digits < 2 ^ (d.digits.log2 + 1) := Nat.lt_log2_self
        _ ≤ 2 ^ (3 * (d.digits.log2 / 3 + 1)) := Nat.pow_le_pow_right two_pos (by omega)
        _ = 8 ^ (d.digits.log2 / 3 + 1) := by rw [pow_mul]; rfl
        _ ≤ 10 ^ (d.digits.log2 / 3 + 1) := Nat.pow_le_pow_left (by norm_num) _
    have hplaces' : (d.digits : ℚ) < 10 ^ ((d.digits.log2 / 3 + 1 : Nat) : Int) := by
      exact_mod_cast hplaces
    have hvalue : (d.digits : ℚ) * 10 ^ d.exponent < 10 ^ (-400 : Int) := by
      calc (d.digits : ℚ) * 10 ^ d.exponent
          < 10 ^ ((d.digits.log2 / 3 + 1 : Nat) : Int) * 10 ^ d.exponent :=
            mul_lt_mul_of_pos_right hplaces' hten
        _ = 10 ^ ((d.digits.log2 / 3 + 1 : Nat) + d.exponent : Int) := by
            rw [zpow_add₀ (by norm_num)]
        _ ≤ 10 ^ (-400 : Int) := zpow_le_zpow_right₀ (by norm_num) (by omega)
    exact absurd (hlow.trans_lt hvalue) (not_lt.mpr small_lt)
  · by_contra hgt
    have hone : (1 : ℚ) ≤ d.digits := by exact_mod_cast Nat.pos_of_ne_zero hdigits
    have hvalue : (10 : ℚ) ^ (400 : Int) ≤ d.digits * 10 ^ d.exponent := by
      calc (10 : ℚ) ^ (400 : Int) ≤ 10 ^ d.exponent := zpow_le_zpow_right₀ (by norm_num) (by omega)
        _ ≤ d.digits * 10 ^ d.exponent := le_mul_of_one_le_left hten.le hone
    exact absurd (hvalue.trans_lt hhigh) (not_lt.mpr large_lt)

theorem toFloat_eq (negative : Bool) : d.toFloat negative =
    Float.ofBits (UInt64.ofNat (if negative then 2 ^ 63 + b.bits else b.bits)) := by
  obtain ⟨hleast, hgreatest⟩ := h.exponent_bounds hb
  have hdigits := h.digits_ne_zero hb
  have hnearest : (if 0 ≤ d.exponent then nearestBits (d.digits * 10 ^ d.exponent.toNat) 1
      else nearestBits d.digits (10 ^ (-d.exponent).toNat)) = b.bits := by
    rw [toRat] at h
    split at h
    · rename_i he
      rw [if_pos he]
      refine nearestBits_eq one_ne_zero hb ?_
      push_cast
      rwa [div_one]
    · rename_i he
      rw [if_neg he]
      refine nearestBits_eq (by positivity) hb ?_
      push_cast
      exact h
  unfold toFloat
  dsimp only
  simp only [Nat.pow_eq]
  have hsmall : ¬ ((d.digits = 0 || (d.digits.log2 / 3 + 1 : Int) + d.exponent < -400) = true) := by
    push_cast at hleast
    simp [hdigits, hleast]
  rw [if_neg hsmall, if_neg (show ¬ 400 < d.exponent by omega), hnearest]

end

end ApiTypes.Decimal
