import Mathlib
import ApiTypes.Proofs.NumberText

/-!
# Floats that are read back

The text of a finite float is read as this float, and the text of an integer as this integer.
-/

namespace ApiTypes

namespace Decimal

/-! ## Bits of finite floats -/

theorem isDouble_ofBits {bits : Nat} (hfinite : bits / 2 ^ 52 % 2 ^ 11 ≠ 2047)
    (hpos : (Binary.ofBits bits).significand ≠ 0) : (Binary.ofBits bits).IsDouble := by
  unfold Binary.ofBits at hpos ⊢
  simp only [Nat.pow_eq] at hpos ⊢
  split at hpos
  · rename_i he
    rw [if_pos he]
    exact ⟨le_rfl, by dsimp only; omega, hpos, by dsimp only; omega, .inl rfl⟩
  · rename_i he
    rw [if_neg he]
    exact ⟨by dsimp only; omega, by dsimp only; omega, hpos, by dsimp only; omega,
      .inr (Nat.le_add_right _ _)⟩

theorem bits_ofBits (bits : Nat) : (Binary.ofBits bits).bits = bits % 2 ^ 63 := by
  unfold Binary.ofBits Binary.bits
  simp only [Nat.pow_eq]
  split
  · simp only [neg_add_cancel, Int.toNat_zero]
    omega
  · rename_i he
    dsimp only
    omega

section
open Float.Model Float.Model.UnpackedFloat

theorem exponent_of_isFinite {x : Float} (h : x.isFinite = true) :
    x.toBits.toNat / 2 ^ 52 % 2 ^ 11 ≠ 2047 := by
  intro hbits
  have hexponent : @unpackExponent .binary64 x.toBits.toBitVec = -1#11 := by
    apply BitVec.eq_of_toNat_eq
    simp [unpackExponent, BitVec.extractLsb_toNat, Nat.shiftRight_eq_div_pow]
    exact hbits
  have hnot : x.toModel.unpack.isFinite = false := by
    show (UnpackedFloat.unpack .binary64 x.toBits.toBitVec).isFinite = false
    unfold UnpackedFloat.unpack
    dsimp only
    rw [hexponent, if_pos rfl]
    split <;> rfl
  rw [Float.isFinite, Float.Model.isFinite, hnot] at h
  exact Bool.false_ne_true h

theorem isInf_of_isFinite {x : Float} (h : x.isFinite = true) : x.isInf = false := by
  have hmodel : x.toModel.unpack.isFinite = true := h
  show x.toModel.unpack.isInf = false
  cases hx : x.toModel.unpack with
  | infinity s =>
    rw [hx] at hmodel
    cases hmodel
  | _ => rfl

end

/-! ## Reading -/

def isNegative (x : Float) : Bool := x.toBits.toNat / 2 ^ 63 = 1

theorem ofBits_sign (x : Float) : Float.ofBits (UInt64.ofNat
    (if isNegative x then 2 ^ 63 + x.toBits.toNat % 2 ^ 63 else x.toBits.toNat % 2 ^ 63)) = x := by
  have hlt := x.toBits.toNat_lt
  have hbits : (if isNegative x then 2 ^ 63 + x.toBits.toNat % 2 ^ 63
      else x.toBits.toNat % 2 ^ 63) = x.toBits.toNat := by
    unfold isNegative
    split
    · rename_i h
      rw [decide_eq_true_iff] at h
      omega
    · rename_i h
      rw [decide_eq_true_iff] at h
      omega
  rw [hbits, UInt64.ofNat_toNat, Float.ofBits_toBits]

theorem toFloat_shortest {x : Float} (h : x.isFinite = true) (hzero : ¬ (x == 0) = true)
    {d : Decimal} (hd : d.toRat = (shortest (.ofFloat x)).toRat) : d.toFloat (isNegative x) = x := by
  have hdouble := isDouble_ofBits (exponent_of_isFinite h)
    fun hs => hzero (Number.eq_zero_of_significand hs)
  have hcovers := covers_shortest hdouble
  rw [Binary.ofFloat] at hd
  rw [← hd] at hcovers
  rw [toFloat_eq hdouble hcovers, bits_ofBits]
  exact ofBits_sign x

end Decimal

namespace Number

def scalar? (negative : Bool) (cs : List Char) : Option Scalar :=
  match Json.readNumber none negative cs with
  | some (.leaf s, []) => some s
  | _ => none

/-- The text of a scalar is the one of a number that is read as the scalar. -/
def IsReadBack (s : Scalar) : Prop := ∃ negative cs, Form cs ∧
  s.json.toList = (if negative then '-' :: cs else cs) ∧ scalar? negative cs = some s

theorem isReadBack_int (n : Int) : IsReadBack (.int n) := by
  have hread : ∀ negative m, scalar? negative (Nat.toDigits 10 m) =
      some (.int (if negative then -(m : Int) else m)) := by
    intro negative m
    rw [scalar?, Json.readNumber_whole (Text.isWhole_toDigits m), Text.digitsValue_toDigits]
  cases n with
  | ofNat n =>
    refine ⟨false, Nat.toDigits 10 n, .mantissa (.whole (areDigits_toDigits n)), ?_, hread false n⟩
    show (Nat.repr n).toList = _
    rw [Nat.toList_repr]
    rfl
  | negSucc n =>
    refine ⟨true, Nat.toDigits 10 (n + 1), .mantissa (.whole (areDigits_toDigits _)), ?_,
      hread true (n + 1)⟩
    show ("-" ++ Nat.repr (n + 1)).toList = _
    rw [String.toList_append, Nat.toList_repr]
    rfl

theorem floatText_of_isFinite {x : Float} (h : x.isFinite = true) (infinity : String) :
    (Decimal.floatText infinity x).toList =
      let cs := (if x == 0 then "0.0"
        else String.ofList (Decimal.shortest (.ofFloat x)).text).toList
      if Decimal.isNegative x then '-' :: cs else cs := by
  unfold Decimal.floatText Decimal.isNegative
  rw [Decimal.isInf_of_isFinite h, if_neg Bool.false_ne_true]
  dsimp only
  simp only [Nat.pow_eq, decide_eq_true_eq]
  split
  · rw [String.toList_append]
    rfl
  · rfl

theorem scalar?_zero {x : Float} (h : (x == 0) = true) :
    scalar? (Decimal.isNegative x) "0.0".toList = some (.float x) := by
  have hzero : x.toBits.toNat % 2 ^ 63 = 0 := by
    obtain ⟨-, -, rfl | ⟨rfl, -⟩ | ⟨rfl, -⟩⟩ := Float.beq_iff_ne_nan_and_eq.mp h <;> rfl
  have hread : ∀ negative, scalar? negative "0.0".toList =
      some (.float (Float.ofBits (UInt64.ofNat (if negative then 2 ^ 63 + 0 else 0)))) :=
    fun _ => rfl
  have hbits := Decimal.ofBits_sign x
  rw [hzero] at hbits
  rw [hread, hbits]

theorem isReadBack_float {x : Float} (h : x.isFinite = true) : IsReadBack (.float x) := by
  have htext := floatText_of_isFinite h "Infinity"
  dsimp only at htext
  by_cases hzero : (x == 0) = true
  · rw [if_pos hzero] at htext
    refine ⟨_, _, ?_, htext, scalar?_zero hzero⟩
    exact .mantissa (show Mantissa (['0'] ++ '.' :: ['0']) from
      .fraction ⟨by simp, by simp⟩ ⟨by simp, by simp⟩)
  · rw [if_neg hzero, String.toList_ofList] at htext
    have hsignificand : (Decimal.Binary.ofFloat x).significand ≠ 0 :=
      fun hs => hzero (eq_zero_of_significand hs)
    have hdouble := Decimal.isDouble_ofBits (Decimal.exponent_of_isFinite h) hsignificand
    have hdigits := (Decimal.covers_shortest hdouble).digits_ne_zero hdouble
    obtain ⟨d, hread, hd⟩ := Decimal.reads_text hdigits (Decimal.isNegative x)
    rw [Decimal.toFloat_shortest h hzero hd] at hread
    refine ⟨_, _, form_shortest hsignificand, htext, ?_⟩
    rw [scalar?, Decimal.Binary.ofFloat, hread]

end Number

end ApiTypes
