import Mathlib.Data.List.TakeWhile
import ApiTypes.Json.Token
import ApiTypes.Value.Json
import ApiTypes.Proofs.Lexeme

/-!
# Numbers

A number is digits, then possibly a point with digits, then possibly an exponent with a sign. Every
integer and every finite float is written so, behind a minus where it is negative.
-/

namespace ApiTypes.Number

def read? (cs : List Char) : Option Decimal :=
  let (whole, rest) := Text.spanDigits cs
  let (fraction, rest) := Json.readFraction rest
  let (exponent, rest) := Json.readExponent rest
  if whole.isEmpty || !rest.isEmpty then none
  else some ⟨Text.digitsValue (whole ++ fraction), exponent.getD 0 - fraction.length⟩

/-! ## Forms -/

def AreDigits (cs : List Char) : Prop := cs ≠ [] ∧ ∀ c ∈ cs, c.isDigit = true

inductive Mantissa : List Char → Prop
  | whole {ds} : AreDigits ds → Mantissa ds
  | fraction {ds fs} : AreDigits ds → AreDigits fs → Mantissa (ds ++ '.' :: fs)

inductive Form : List Char → Prop
  | mantissa {cs} : Mantissa cs → Form cs
  | exponent {cs s ds} : Mantissa cs → Lexeme.isSign s = true → AreDigits ds →
      Form (cs ++ 'e' :: s :: ds)

theorem AreDigits.head {cs : List Char} (h : AreDigits cs) : cs.head?.any Char.isDigit = true := by
  cases cs with
  | nil => exact absurd rfl h.1
  | cons c cs => exact h.2 c List.mem_cons_self

theorem Mantissa.head {cs : List Char} (h : Mantissa cs) : cs.head?.any Char.isDigit = true := by
  cases h with
  | whole h => exact h.head
  | @fraction ds fs h _ =>
    cases ds with
    | nil => exact absurd rfl h.1
    | cons c ds => exact h.2 c List.mem_cons_self

theorem Form.head {cs : List Char} (h : Form cs) : cs.head?.any Char.isDigit = true := by
  cases h with
  | mantissa h => exact h.head
  | @exponent cs s ds h _ _ =>
    have hh := h.head
    cases cs with
    | nil => simp at hh
    | cons c cs => exact hh

/-! ## Reading -/

theorem spanDigits_append {ds rest : List Char} (h : ∀ c ∈ ds, c.isDigit = true)
    (hr : ∀ c ∈ rest.head?, c.isDigit = false) : Text.spanDigits (ds ++ rest) = (ds, rest) := by
  have htake : rest.takeWhile Char.isDigit = [] := by
    cases rest with
    | nil => rfl
    | cons c rest => rw [List.takeWhile_cons, hr c rfl]; rfl
  have hdrop : rest.dropWhile Char.isDigit = rest := by
    cases rest with
    | nil => rfl
    | cons c rest => rw [List.dropWhile_cons, hr c rfl]; rfl
  rw [Text.spanDigits, List.takeWhile_append_of_pos h, List.dropWhile_append_of_pos h, htake,
    hdrop, List.append_nil]

theorem spanDigits_self {ds : List Char} (h : ∀ c ∈ ds, c.isDigit = true) :
    Text.spanDigits ds = (ds, []) := by
  have := @spanDigits_append ds [] h (by simp)
  rwa [List.append_nil] at this

def IsTail (rest : List Char) : Prop := rest = [] ∨ ∃ s ds, rest = 'e' :: s :: ds

theorem IsTail.notDigit {rest : List Char} (h : IsTail rest) :
    ∀ c ∈ rest.head?, c.isDigit = false := by
  rcases h with rfl | ⟨s, ds, rfl⟩
  · simp
  · intro c hc
    cases hc
    decide

theorem isSome_read?_mantissa {cs rest : List Char} (h : Mantissa cs) (hr : IsTail rest)
    (hend : (Json.readExponent rest).2 = []) : (read? (cs ++ rest)).isSome = true := by
  cases h with
  | whole h =>
    have hfraction : Json.readFraction rest = ([], rest) := by
      rcases hr with rfl | ⟨s, ds, rfl⟩ <;> rfl
    simp [read?, spanDigits_append h.2 hr.notDigit, hfraction, hend, h.1]
  | @fraction ds fs h h' =>
    have hspan : Text.spanDigits (ds ++ '.' :: (fs ++ rest)) = (ds, '.' :: (fs ++ rest)) :=
      spanDigits_append h.2 (by intro c hc; cases hc; decide)
    have hfraction : Json.readFraction ('.' :: (fs ++ rest)) = (fs, rest) := by
      simp [Json.readFraction, spanDigits_append h'.2 hr.notDigit, h'.1]
    rw [List.append_assoc, List.cons_append]
    simp [read?, hspan, hfraction, hend, h.1]

theorem Form.isSome_read? {cs : List Char} (h : Form cs) : (read? cs).isSome = true := by
  cases h with
  | mantissa h =>
    have := isSome_read?_mantissa h (Or.inl rfl) rfl
    rwa [List.append_nil] at this
  | @exponent cs s ds h hs hds =>
    refine isSome_read?_mantissa h (Or.inr ⟨s, ds, rfl⟩) ?_
    have hspan := spanDigits_self hds.2
    simp only [Lexeme.isSign, Bool.or_eq_true, beq_iff_eq] at hs
    rcases hs with rfl | rfl <;> simp [Json.readExponent, hspan, hds.1]

/-! ## Spelling -/

theorem AreDigits.names {cs : List Char} (h : AreDigits cs) :
    ∀ c ∈ cs, Lexeme.isNameChar c = true := fun c hc => Lexeme.isNameChar_of_isDigit (h.2 c hc)

theorem AreDigits.pends {cs : List Char} (h : AreDigits cs) : Lexeme.Pends cs := by
  cases cs with
  | nil => exact absurd rfl h.1
  | cons c cs =>
    exact (Lexeme.Pends.digit (h.2 c List.mem_cons_self)).append_names
      fun d hd => h.names d (List.mem_cons_of_mem _ hd)

theorem Mantissa.pends {cs : List Char} (h : Mantissa cs) : Lexeme.Pends cs := by
  cases h with
  | whole h => exact h.pends
  | @fraction ds fs h h' =>
    rw [List.append_cons]
    exact (h.pends.snoc (Lexeme.continues_point h.head)).append_names h'.names

theorem Form.spells {cs : List Char} (h : Form cs) :
    Lexeme.Spells Lexeme.isWordChar cs [.word cs] := by
  cases h with
  | mantissa h => exact h.pends.spells
  | @exponent cs s ds h hs hds =>
    rw [List.append_cons, List.append_cons]
    have he : Lexeme.Pends (cs ++ ['e']) := h.pends.append_names (List.all_eq_true.mp rfl)
    exact ((he.snoc (Lexeme.continues_sign h.head hs)).append_names hds.names).spells

/-! ## Integers -/

theorem areDigits_toDigits (n : Nat) : AreDigits (Nat.toDigits 10 n) :=
  ⟨Nat.toDigits_ne_nil, fun _ hc => Nat.isDigit_of_mem_toDigits (by decide) (by decide) hc⟩

inductive Signed : List Char → Prop
  | positive {cs} : Form cs → Signed cs
  | negative {cs} : Form cs → Signed ('-' :: cs)

theorem signed_int (n : Int) : Signed (toString n).toList := by
  cases n with
  | ofNat n =>
    have h : (toString (Int.ofNat n)).toList = Nat.toDigits 10 n := by
      show (Nat.repr n).toList = _
      rw [Nat.toList_repr]
    rw [h]
    exact .positive (.mantissa (.whole (areDigits_toDigits n)))
  | negSucc n =>
    have h : (toString (Int.negSucc n)).toList = '-' :: Nat.toDigits 10 (n + 1) := by
      show ("-" ++ Nat.repr (n + 1)).toList = _
      rw [String.toList_append, Nat.toList_repr]
      rfl
    rw [h]
    exact .negative (.mantissa (.whole (areDigits_toDigits _)))

/-! ## Floats -/

theorem areDigits_append {cs ds : List Char} (hcs : ∀ c ∈ cs, c.isDigit = true)
    (hds : ∀ d ∈ ds, d.isDigit = true) (hne : cs ++ ds ≠ []) : AreDigits (cs ++ ds) := by
  refine ⟨hne, fun c hc => ?_⟩
  rcases List.mem_append.mp hc with hc | hc
  · exact hcs c hc
  · exact hds c hc

theorem isDigit_of_mem_replicate {n : Nat} {c : Char} (h : c ∈ List.replicate n '0') :
    c.isDigit = true := by
  rw [List.eq_of_mem_replicate h]
  decide

theorem form_positional {ds : List Char} (hds : ∀ d ∈ ds, d.isDigit = true) {e : Int}
    (h : ds ≠ [] ∨ 0 ≤ e) : Form (Decimal.positional ds e) := by
  unfold Decimal.positional
  split
  · rename_i he
    have hne : ds ≠ [] := h.resolve_right (by omega)
    refine .mantissa (show Mantissa (['0'] ++ '.' :: _) from .fraction ⟨by simp, by simp⟩ ?_)
    exact areDigits_append (fun _ => isDigit_of_mem_replicate) hds (by simp [hne])
  · refine .mantissa (.fraction ?_ ?_)
    · refine areDigits_append (fun c hc => hds c (List.mem_of_mem_take hc))
        (fun _ => isDigit_of_mem_replicate) ?_
      cases ds with
      | nil => simp
      | cons d ds => simp
    · split
      · exact ⟨by simp, by simp⟩
      · rename_i hrest
        refine ⟨?_, fun c hc => hds c (List.mem_of_mem_drop hc)⟩
        intro h0
        simp [h0] at hrest

theorem form_scientific {ds : List Char} (hds : AreDigits ds) (places : Nat) (e : Int) :
    Form (Decimal.scientific places ds e) := by
  have hexp : AreDigits (Decimal.padLeft places (Nat.toDigits 10 e.natAbs)) :=
    areDigits_append (fun _ => isDigit_of_mem_replicate) (areDigits_toDigits _).2
      (by simp [(areDigits_toDigits _).1])
  have hsign : Lexeme.isSign (if e < 0 then '-' else '+') = true := by
    split <;> decide
  unfold Decimal.scientific
  refine .exponent ?_ hsign hexp
  split
  · rename_i d d' rest
    refine show Mantissa ([d] ++ '.' :: _) from .fraction ⟨by simp, ?_⟩ ⟨by simp, ?_⟩
    · intro c hc
      rw [List.mem_singleton.mp hc]
      exact hds.2 d List.mem_cons_self
    · exact fun c hc => hds.2 c (List.mem_cons_of_mem _ hc)
  · exact .whole hds

theorem dropWhile_toDigits_ne_nil {n : Nat} (h : n ≠ 0) :
    ((Nat.toDigits 10 n).reverse.dropWhile (· == '0')).reverse ≠ [] := by
  intro hnil
  rw [List.reverse_eq_nil_iff, List.dropWhile_eq_nil_iff] at hnil
  have hzero : Nat.toDigits 10 n = List.replicate (Nat.toDigits 10 n).length '0' :=
    List.eq_replicate_of_mem fun c hc => by simpa using hnil c (List.mem_reverse.mpr hc)
  apply h
  rw [← Nat.ofDigitChars_ten_toDigits (n := n), hzero, Nat.ofDigitChars_replicate_zero]
  rfl

theorem form_text {d : Decimal} (h : d.digits ≠ 0 ∨ d.exponent = 0) : Form d.text := by
  unfold Decimal.text
  have hds : ∀ c ∈ ((Nat.toDigits 10 d.digits).reverse.dropWhile (· == '0')).reverse,
      c.isDigit = true := by
    intro c hc
    rw [List.mem_reverse] at hc
    exact (areDigits_toDigits d.digits).2 c
      (List.mem_reverse.mp (List.dropWhile_sublist _ |>.mem hc))
  by_cases hz : d.digits = 0
  · have he : d.exponent = 0 := h.resolve_left (fun hn => hn hz)
    simp only [hz, he, Nat.toDigits_zero]
    exact @form_positional [] (by simp) 0 (Or.inr (by decide))
  · have hne := dropWhile_toDigits_ne_nil hz
    dsimp only
    split
    · exact form_positional hds (Or.inl hne)
    · exact form_scientific ⟨hne, hds⟩ _ _

/-! ## The shortest decimal -/

theorem compareQuotient_zero {num den : Nat} (h : num ≠ 0) (p : Int) :
    (⟨0, p⟩ : Decimal).compareQuotient num den = .lt := by
  unfold Decimal.compareQuotient
  split
  · simpa [Nat.compare_eq_lt] using Nat.pos_of_ne_zero h
  · have hpos : 0 < num * 10 ^ (-p).toNat := 
      Nat.mul_pos (Nat.pos_of_ne_zero h) (Nat.pow_pos (by decide))
    simpa [Nat.compare_eq_lt] using hpos

theorem holds_zero {r : Decimal.Rounding} (hlow : r.low ≠ 0) (hhigh : r.high ≠ 0) (p : Int) :
    r.holds ⟨0, p⟩ = false := by
  rw [Decimal.Rounding.holds, compareQuotient_zero hlow, compareQuotient_zero hhigh]

theorem digits_onGrid {r : Decimal.Rounding} (hlow : r.low ≠ 0) (hhigh : r.high ≠ 0) {p : Int}
    {d : Decimal} (h : r.onGrid? p = some d) : d.digits ≠ 0 := by
  have hdown : ∀ c, r.holds ⟨c, p⟩ = true → c ≠ 0 := by
    rintro c hc rfl
    rw [holds_zero hlow hhigh] at hc
    cases hc
  unfold Decimal.Rounding.onGrid? at h
  dsimp only at h
  split at h
  · rename_i hd _
    cases h
    exact hdown _ hd
  · cases h
    exact Nat.succ_ne_zero _
  · cases h
  · rename_i hd _
    have hc := hdown _ hd
    split at h
    · cases h
      exact hc
    · cases h
      exact Nat.succ_ne_zero _
    · split at h
      · cases h
        exact hc
      · cases h
        exact Nat.succ_ne_zero _

theorem form_shortest {b : Decimal.Binary} (h : b.significand ≠ 0) :
    Form (Decimal.shortest b).text := by
  apply form_text
  have hunit : 0 < if 0 ≤ b.exponent - 2 then 2 ^ (b.exponent - 2).toNat else 1 := by
    split
    · exact Nat.two_pow_pos _
    · decide
  have hlow : b.rounding.low ≠ 0 := by
    refine (Nat.mul_pos ?_ hunit).ne'
    split <;> omega
  have hhigh : b.rounding.high ≠ 0 := (Nat.mul_pos (by omega) hunit).ne'
  unfold Decimal.shortest
  dsimp only
  cases hfound : (List.range 17).findSome? fun n : Nat =>
      b.rounding.onGrid? (Decimal.decimalExponent b.rounding.value b.rounding.den - n) with
  | none => exact Or.inr rfl
  | some d =>
    obtain ⟨n, _, hn⟩ := List.exists_of_findSome?_eq_some hfound
    exact Or.inl (digits_onGrid hlow hhigh hn)

section
open Float.Model Float.Model.UnpackedFloat

theorem eq_zero_of_significand {x : Float} (h : (Decimal.Binary.ofFloat x).significand = 0) :
    (x == 0) = true := by
  have hbits : x.toBits.toNat / 2 ^ 52 % 2 ^ 11 = 0 ∧ x.toBits.toNat % 2 ^ 52 = 0 := by
    unfold Decimal.Binary.ofFloat Decimal.Binary.ofBits at h
    dsimp only at h
    split at h
    · rename_i he
      exact ⟨he, h⟩
    · have h' : 2 ^ 52 + x.toBits.toNat % 2 ^ 52 = 0 := h
      omega
  -- both fields of the pattern are zero, whatever its sign
  have hexponent : @unpackExponent .binary64 x.toBits.toBitVec = 0#11 := by
    apply BitVec.eq_of_toNat_eq
    simp [unpackExponent, BitVec.extractLsb_toNat, Nat.shiftRight_eq_div_pow]
    exact hbits.1
  have hmantissa : @unpackMantissa .binary64 x.toBits.toBitVec = 0#52 := by
    apply BitVec.eq_of_toNat_eq
    simp [unpackMantissa, BitVec.extractLsb_toNat, Nat.shiftRight_eq_div_pow]
    exact hbits.2
  have hx : ∃ s, x.toModel.unpack = .zero s := by
    refine ⟨Sign.ofBitVec (@unpackSign .binary64 x.toBits.toBitVec), ?_⟩
    show UnpackedFloat.unpack .binary64 x.toBits.toBitVec = _
    unfold UnpackedFloat.unpack
    dsimp only
    rw [hexponent, if_neg (by decide), if_pos rfl, dif_pos hmantissa]
  have hzero : ∃ s, (0 : Float).toModel.unpack = .zero s := ⟨.positive, rfl⟩
  obtain ⟨s, hx⟩ := hx
  obtain ⟨t, hzero⟩ := hzero
  show (x.toModel.unpack.compare (0 : Float).toModel.unpack == some .eq) = true
  rw [hx, hzero]
  rfl

end

theorem floatText_of_isInf {x : Float} (h : x.isInf = true) (infinity : String) :
    Decimal.floatText infinity x = infinity ∨ Decimal.floatText infinity x = "-" ++ infinity := by
  unfold Decimal.floatText
  rw [h, if_pos rfl]
  dsimp only
  split
  · exact Or.inr rfl
  · exact Or.inl rfl

theorem signed_float {x : Float} (h : x.isInf = false) (infinity : String) :
    Signed (Decimal.floatText infinity x).toList := by
  have hsize : Form (if x.isInf then infinity else if x == 0 then "0.0"
      else String.ofList (Decimal.shortest (.ofFloat x)).text).toList := by
    rw [h]
    by_cases hz : (x == 0) = true
    · rw [if_neg (by simp), if_pos hz]
      exact .mantissa (show Mantissa (['0'] ++ '.' :: ['0']) from
        .fraction ⟨by simp, by simp⟩ ⟨by simp, by simp⟩)
    · rw [if_neg (by simp), if_neg hz, String.toList_ofList]
      exact form_shortest fun hs => hz (eq_zero_of_significand hs)
  unfold Decimal.floatText
  dsimp only
  split
  · rw [String.toList_append]
    exact .negative hsize
  · exact .positive hsize

end ApiTypes.Number
