import ApiTypes.Proofs.JsonDigits
import ApiTypes.Proofs.ShortestDecimal

/-!
# Numbers that are read back

The text of an integer is read as this integer, and the text of a finite float as this float.
-/

namespace ApiTypes

namespace Text

/-! ## Values of digits -/

theorem digitsValue_append (cs ds : List Char) :
    digitsValue (cs ++ ds) = digitsValue cs * 10 ^ ds.length + digitsValue ds := by
  show Nat.ofDigitChars 10 (cs ++ ds) 0 = Nat.ofDigitChars 10 cs 0 * _ + Nat.ofDigitChars 10 ds 0
  rw [Nat.ofDigitChars_append, Nat.ofDigitChars_eq_ofDigitChars_zero, Nat.mul_comm]

theorem digitsValue_replicate_zero (n : Nat) : digitsValue (List.replicate n '0') = 0 := by
  show Nat.ofDigitChars 10 _ 0 = 0
  rw [Nat.ofDigitChars_replicate_zero, Nat.mul_zero]

theorem digitsValue_append_zeros (ds : List Char) (n : Nat) :
    digitsValue (ds ++ List.replicate n '0') = digitsValue ds * 10 ^ n := by
  rw [digitsValue_append, digitsValue_replicate_zero, List.length_replicate, Nat.add_zero]

theorem digitsValue_zeros_append (n : Nat) (ds : List Char) :
    digitsValue (List.replicate n '0' ++ ds) = digitsValue ds := by
  rw [digitsValue_append, digitsValue_replicate_zero, Nat.zero_mul, Nat.zero_add]

theorem digitsValue_toDigits (n : Nat) : digitsValue (Nat.toDigits 10 n) = n :=
  Nat.ofDigitChars_ten_toDigits

theorem head?_toDigits_ne_zero {n : Nat} (h : n ≠ 0) : (Nat.toDigits 10 n).head? ≠ some '0' := by
  induction n using Nat.strongRecOn with
  | ind n ih =>
    by_cases hlt : n < 10
    · rw [Nat.toDigits_of_lt_base hlt]
      have hall : ∀ d < 10, d ≠ 0 → [d.digitChar].head? ≠ some '0' := by decide
      exact hall n hlt h
    · rw [Nat.toDigits_of_base_le (by decide) (by omega),
        List.head?_append_of_ne_nil _ Nat.toDigits_ne_nil]
      exact ih (n / 10) (by omega) (by omega)

theorem isWhole_toDigits (n : Nat) : Json.IsWhole (Nat.toDigits 10 n) := by
  obtain ⟨hne, hdigits⟩ := Number.areDigits_toDigits n
  refine ⟨hdigits, hne, fun hzero => ?_⟩
  by_cases hn : n = 0
  · rw [hn, Nat.toDigits_zero]
  · exact absurd hzero (head?_toDigits_ne_zero hn)

end Text

namespace Json

/-! ## Reading by parts -/

open Number (IsTail spanDigits_append)

theorem readFraction_tail {tail : List Char} (h : IsTail tail) : readFraction tail = ([], tail) := by
  rcases h with rfl | ⟨s, ds, rfl⟩ <;> rfl

section
variable {whole : List Char} (hwhole : IsWhole whole)
include hwhole

theorem spanWhole_append {rest : List Char} (hrest : ∀ c ∈ rest.head?, c.isDigit = false) :
    (match whole ++ rest with
      | '0' :: r => (['0'], r)
      | cs => Text.spanDigits cs) = (whole, rest) := by
  split
  · rename_i r heq
    obtain ⟨c, cs, rfl⟩ := List.exists_cons_of_ne_nil hwhole.ne_nil
    obtain ⟨rfl, rfl⟩ := List.cons.inj heq
    obtain rfl : cs = [] := (List.cons.inj (hwhole.zero rfl)).2
    rfl
  · exact spanDigits_append hwhole.digits hrest

theorem readNumber_append (negative : Bool) {rest tail left fraction : List Char}
    {exponent : Option Int} (hrest : ∀ c ∈ rest.head?, c.isDigit = false)
    (hfraction : readFraction rest = (fraction, tail)) (hexponent : readExponent tail = (exponent, left)) :
    readNumber none negative (whole ++ rest) =
      some (if fraction.isEmpty && exponent.isNone then
          .leaf (.int (if negative then -(Text.digitsValue whole : Int) else Text.digitsValue whole))
        else .leaf (.float ((⟨Text.digitsValue (whole ++ fraction),
          exponent.getD 0 - fraction.length⟩ : Decimal).toFloat negative)), left) := by
  unfold readNumber
  split
  rename_i whole' rest' hspan
  obtain ⟨rfl, rfl⟩ := Prod.mk.inj (hspan.symm.trans (spanWhole_append hwhole hrest))
  rw [if_neg fun hempty => hwhole.ne_nil (List.isEmpty_iff.mp hempty), hfraction]
  dsimp only
  rw [hexponent]
  rfl

theorem readNumber_whole (negative : Bool) : readNumber none negative whole =
    some (.leaf (.int (if negative then -(Text.digitsValue whole : Int) else Text.digitsValue whole)),
      []) := by
  have h : readNumber none negative (whole ++ []) = _ :=
    readNumber_append hwhole negative (by simp) rfl rfl
  rwa [List.append_nil] at h

theorem readNumber_fraction (negative : Bool) {fraction tail : List Char} {exponent : Option Int}
    (hfraction : Number.AreDigits fraction) (htail : IsTail tail)
    (hexponent : readExponent tail = (exponent, [])) :
    readNumber none negative (whole ++ '.' :: (fraction ++ tail)) =
      some (.leaf (.float ((⟨Text.digitsValue (whole ++ fraction),
        exponent.getD 0 - fraction.length⟩ : Decimal).toFloat negative)), []) := by
  have hempty : fraction.isEmpty = false := by simpa using hfraction.1
  have hread : readFraction ('.' :: (fraction ++ tail)) = (fraction, tail) := by
    rw [readFraction, spanDigits_append hfraction.2 htail.notDigit]
    dsimp only
    rw [hempty]
    rfl
  rw [readNumber_append hwhole negative (by intro c hc; cases hc; rfl) hread hexponent, hempty]
  rfl

theorem readNumber_exponent (negative : Bool) {s : Char} {ds : List Char} {exponent : Int}
    (hexponent : readExponent ('e' :: s :: ds) = (some exponent, [])) :
    readNumber none negative (whole ++ 'e' :: s :: ds) =
      some (.leaf (.float ((⟨Text.digitsValue whole, exponent⟩ : Decimal).toFloat negative)), []) := by
  have htail : IsTail ('e' :: s :: ds) := .inr ⟨s, ds, rfl⟩
  rw [readNumber_append hwhole negative htail.notDigit (readFraction_tail htail) hexponent,
    List.append_nil]
  simp

end

theorem readExponent_padLeft (places : Nat) (e : Int) :
    readExponent ('e' :: (if e < 0 then '-' else '+') ::
      Decimal.padLeft places (Nat.toDigits 10 e.natAbs)) = (some e, []) := by
  have hvalue : Text.digitsValue (Decimal.padLeft places (Nat.toDigits 10 e.natAbs)) = e.natAbs := by
    rw [Decimal.padLeft, Text.digitsValue_zeros_append, Text.digitsValue_toDigits]
  have hdigits : ∀ c ∈ Decimal.padLeft places (Nat.toDigits 10 e.natAbs), c.isDigit = true := by
    intro c hc
    rcases List.mem_append.mp hc with hc | hc
    · exact Number.isDigit_of_mem_replicate hc
    · exact (Number.areDigits_toDigits _).2 c hc
  have hne : (Decimal.padLeft places (Nat.toDigits 10 e.natAbs)).isEmpty = false := by
    simp [Decimal.padLeft, Nat.toDigits_ne_nil]
  have hspan := Number.spanDigits_self hdigits
  rcases lt_or_ge e 0 with he | he
  · rw [if_pos he, readExponent]
    simp [hspan, hne, hvalue, abs_of_neg he]
  · rw [if_neg (by omega), readExponent]
    simp [hspan, hne, hvalue, abs_of_nonneg he]

end Json

namespace Decimal

/-! ## Layouts -/

/-- What a text with a point or an exponent is read as. -/
def ReadsAs (negative : Bool) (cs : List Char) (q : ℚ) : Prop :=
  ∃ d : Decimal, Json.readNumber none negative cs = some (.leaf (.float (d.toFloat negative)), []) ∧
    d.toRat = q

theorem isWhole_zero : Json.IsWhole ['0'] := ⟨by simp, by simp, fun _ => rfl⟩

theorem isWhole_of_head {ds : List Char} (hdigits : ∀ c ∈ ds, c.isDigit = true) (hne : ds ≠ [])
    (hhead : ds.head? ≠ some '0') : Json.IsWhole ds := ⟨hdigits, hne, fun h => absurd h hhead⟩

section
variable {ds : List Char} (hdigits : ∀ c ∈ ds, c.isDigit = true) (hne : ds ≠ []) (negative : Bool)
include hdigits hne

theorem reads_small {e : Int} (he : e < 0) : ReadsAs negative (positional ds e)
    (Text.digitsValue ds * 10 ^ (e + 1 - ds.length)) := by
  have hfraction : Number.AreDigits (List.replicate (-e - 1).toNat '0' ++ ds) :=
    Number.areDigits_append (fun _ => Number.isDigit_of_mem_replicate) hdigits (by simp [hne])
  have hread := Json.readNumber_fraction isWhole_zero negative hfraction (.inl rfl) rfl
  rw [List.append_nil] at hread
  rw [positional, if_pos he]
  refine ⟨_, hread, ?_⟩
  have hvalue : Text.digitsValue (['0'] ++ (List.replicate (-e - 1).toNat '0' ++ ds)) =
      Text.digitsValue ds :=
    (Text.digitsValue_zeros_append 1 _).trans (Text.digitsValue_zeros_append _ ds)
  have hexponent : (none : Option Int).getD 0 -
      ((List.replicate (-e - 1).toNat '0' ++ ds).length : Int) = e + 1 - ds.length := by
    rw [List.length_append, List.length_replicate]
    push_cast
    simp only [Option.getD_none]
    omega
  rw [toRat_eq, hvalue, hexponent]

variable (hhead : ds.head? ≠ some '0')
include hhead

theorem reads_positional {e : Int} (he : 0 ≤ e) : ReadsAs negative (positional ds e)
    (Text.digitsValue ds * 10 ^ (e + 1 - ds.length)) := by
  rw [positional, if_neg (by omega)]
  dsimp only
  rcases le_or_gt ds.length (e.toNat + 1) with hlength | hlength
  · -- all digits stand before the point
    have hwhole : Json.IsWhole (ds ++ List.replicate (e.toNat + 1 - ds.length) '0') := by
      refine isWhole_of_head (fun c hc => ?_) (by simp [hne]) ?_
      · exact (List.mem_append.mp hc).elim (hdigits c) Number.isDigit_of_mem_replicate
      · rwa [List.head?_append_of_ne_nil _ hne]
    have hfraction : Number.AreDigits ['0'] := ⟨by simp, by simp⟩
    have hread := Json.readNumber_fraction hwhole negative hfraction (.inl rfl) rfl
    rw [List.append_nil] at hread
    rw [List.drop_eq_nil_of_le hlength, List.take_of_length_le hlength]
    refine ⟨_, hread, ?_⟩
    have hvalue : Text.digitsValue (ds ++ List.replicate (e.toNat + 1 - ds.length) '0' ++ ['0']) =
        Text.digitsValue ds * 10 ^ (e.toNat + 2 - ds.length) := by
      have hzeros : List.replicate (e.toNat + 1 - ds.length) '0' ++ ['0'] =
          List.replicate (e.toNat + 2 - ds.length) '0' := by
        rw [← List.replicate_succ']
        congr 1
        omega
      rw [List.append_assoc, hzeros, Text.digitsValue_append_zeros]
    rw [toRat_eq, hvalue]
    push_cast
    rw [mul_assoc, ← zpow_natCast, ← zpow_add₀ (by norm_num)]
    congr 2
    simp only [Option.getD_none, List.length_singleton]
    omega
  · -- some digits stand behind the point
    have hrest : ds.drop (e.toNat + 1) ≠ [] := by simpa using hlength
    have htake : ds.take (e.toNat + 1) ≠ [] := by simpa using hne
    have hwhole : Json.IsWhole (ds.take (e.toNat + 1)) := by
      refine isWhole_of_head (fun c hc => hdigits c (List.mem_of_mem_take hc)) htake ?_
      rw [List.head?_take]
      simpa using hhead
    have hfraction : Number.AreDigits (ds.drop (e.toNat + 1)) :=
      ⟨hrest, fun c hc => hdigits c (List.mem_of_mem_drop hc)⟩
    have hread := Json.readNumber_fraction hwhole negative hfraction (.inl rfl) rfl
    rw [List.append_nil] at hread
    have hpad : e.toNat + 1 - ds.length = 0 := by omega
    rw [hpad, List.replicate_zero, List.append_nil, if_neg (by simpa using hrest)]
    refine ⟨_, hread, ?_⟩
    rw [toRat_eq, List.take_append_drop, List.length_drop]
    congr 2
    simp only [Option.getD_none]
    omega

theorem reads_scientific (places : Nat) (e : Int) : ReadsAs negative (scientific places ds e)
    (Text.digitsValue ds * 10 ^ (e + 1 - ds.length)) := by
  have hexponent := Json.readExponent_padLeft places e
  have htail : Number.IsTail ('e' :: (if e < 0 then '-' else '+') ::
      padLeft places (Nat.toDigits 10 e.natAbs)) := .inr ⟨_, _, rfl⟩
  have hfirst : ∀ {d : Char} {rest : List Char}, ds = d :: rest → Json.IsWhole [d] := by
    rintro d rest rfl
    exact isWhole_of_head (fun c hc => hdigits c (by simp_all)) (by simp) hhead
  unfold scientific
  match ds, hne with
  | [d], _ =>
    have hread := Json.readNumber_exponent (hfirst rfl) negative hexponent
    refine ⟨_, hread, ?_⟩
    rw [toRat_eq]
    congr 2
    simp
  | d :: d' :: rest, _ =>
    have hfraction : Number.AreDigits (d' :: rest) :=
      ⟨by simp, fun c hc => hdigits c (List.mem_cons_of_mem _ hc)⟩
    have hread := Json.readNumber_fraction (hfirst rfl) negative hfraction htail hexponent
    refine ⟨_, hread, ?_⟩
    rw [toRat_eq]
    congr 2
    simp

end

theorem exists_zeros (cs : List Char) :
    ∃ k, cs = (cs.reverse.dropWhile (· == '0')).reverse ++ List.replicate k '0' := by
  refine ⟨(cs.reverse.takeWhile (· == '0')).length, ?_⟩
  have hzeros : cs.reverse.takeWhile (· == '0') =
      List.replicate (cs.reverse.takeWhile (· == '0')).length '0' :=
    List.eq_replicate_of_mem fun c hc => by
      have hzero := List.mem_takeWhile_imp hc
      simpa using hzero
  rw [← List.reverse_inj, List.reverse_append, List.reverse_reverse, List.reverse_replicate,
    ← hzeros, List.takeWhile_append_dropWhile]

theorem reads_text {d : Decimal} (h : d.digits ≠ 0) (negative : Bool) :
    ReadsAs negative d.text d.toRat := by
  obtain ⟨k, hk⟩ := exists_zeros (Nat.toDigits 10 d.digits)
  have hne := Number.dropWhile_toDigits_ne_nil h
  have hvalue := Text.digitsValue_toDigits d.digits
  have hdigits := (Number.areDigits_toDigits d.digits).2
  have hhead := Text.head?_toDigits_ne_zero h
  unfold text
  dsimp only
  -- the digits without the zeros at their end, which the exponent takes up
  generalize (List.dropWhile (· == '0') (Nat.toDigits 10 d.digits).reverse).reverse = ds at *
  rw [hk] at hvalue hdigits hhead ⊢
  rw [Text.digitsValue_append_zeros] at hvalue
  rw [List.head?_append_of_ne_nil _ hne] at hhead
  have hds : ∀ c ∈ ds, c.isDigit = true := fun c hc => hdigits c (List.mem_append_left _ hc)
  have hrat : d.toRat = Text.digitsValue ds *
      10 ^ (d.exponent + (ds ++ List.replicate k '0').length - 1 + 1 - ds.length) := by
    rw [toRat_eq, ← hvalue]
    push_cast
    rw [mul_assoc, ← zpow_natCast, ← zpow_add₀ (by norm_num)]
    congr 2
    rw [List.length_append, List.length_replicate]
    push_cast
    omega
  rw [hrat]
  split
  · rcases lt_or_ge (d.exponent + (ds ++ List.replicate k '0').length - 1) 0 with he | he
    · exact reads_small hds hne negative he
    · exact reads_positional hds hne negative hhead he
  · exact reads_scientific hds hne negative hhead _ _

end Decimal

end ApiTypes
