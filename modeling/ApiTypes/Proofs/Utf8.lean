import Mathlib
import ApiTypes.Text.Utf8

/-!
# Bytes of texts

The reader of UTF-8 takes the bytes that a text is written with, and no others.
-/

namespace ApiTypes.Text

def continuation (n : Nat) : Nat → List UInt8
  | 0 => []
  | k + 1 => UInt8.ofNat (n / 64 ^ k % 64 + 0x80) :: continuation n k

/-! ## Characters as bytes -/

section
variable {n : Nat} (h : n.isValidChar)
include h

theorem toNat_ofNat : (Char.ofNat n).val.toNat = n := by
  rw [Char.ofNat, dif_pos h]
  rfl

theorem encode_ascii (hhigh : n ≤ 0x7F) :
    String.utf8EncodeChar (Char.ofNat n) = [UInt8.ofNat n] := by
  simp only [String.utf8EncodeChar, toNat_ofNat h]
  rw [if_pos hhigh]

theorem encode_two (hlow : 0x80 ≤ n) (hhigh : n ≤ 0x7FF) :
    String.utf8EncodeChar (Char.ofNat n) = UInt8.ofNat (n / 64 + 0xC0) :: continuation n 1 := by
  simp only [String.utf8EncodeChar, toNat_ofNat h]
  rw [if_neg (by omega), if_pos hhigh, Nat.mod_eq_of_lt (by omega : n / 64 < 0x20)]
  simp [continuation]

theorem encode_three (hlow : 0x800 ≤ n) (hhigh : n ≤ 0xFFFF) :
    String.utf8EncodeChar (Char.ofNat n) = UInt8.ofNat (n / 4096 + 0xE0) :: continuation n 2 := by
  simp only [String.utf8EncodeChar, toNat_ofNat h]
  rw [if_neg (by omega), if_neg (by omega), if_pos hhigh,
    Nat.mod_eq_of_lt (by omega : n / 4096 < 0x10)]
  simp [continuation]

theorem encode_four (hlow : 0x10000 ≤ n) :
    String.utf8EncodeChar (Char.ofNat n) = UInt8.ofNat (n / 262144 + 0xF0) :: continuation n 3 := by
  have hhigh : n < 0x110000 := by
    rcases h with h | h <;> omega
  simp only [String.utf8EncodeChar, toNat_ofNat h]
  rw [if_neg (by omega), if_neg (by omega), if_neg (by omega),
    Nat.mod_eq_of_lt (by omega : n / 262144 < 0x08)]
  simp [continuation]

end

/-! ## Leading bytes -/

/-- A character that a part may become: the bits that have been read are its first ones, and the next
byte is in its bounds. -/
structure Utf8Part.Fits (p : Utf8Part) (n : Nat) : Prop where
  bits : n / 64 ^ p.owed = p.bits
  low : p.low ≤ n / 64 ^ (p.owed - 1) % 64 + 0x80
  high : n / 64 ^ (p.owed - 1) % 64 + 0x80 ≤ p.high

/-- The bytes that have been read are the first ones of every character that fits. -/
structure Utf8Part.Begins (p : Utf8Part) (bytes : List UInt8) : Prop where
  owed : 1 ≤ p.owed
  low : 0x80 ≤ p.low
  high : p.high ≤ 0xBF
  encode : ∀ n, p.Fits n → n.isValidChar ∧
    String.utf8EncodeChar (Char.ofNat n) = bytes ++ continuation n p.owed

section
variable {low high bits place : Nat} {b : UInt8} (hlow : 0x80 ≤ low) (hhigh : high ≤ 0xBF)
include hlow hhigh

theorem begins_three (hb : b.toNat = bits + 0xE0)
    (h : ∀ n, n / 4096 = bits → low ≤ n / 64 % 64 + 0x80 → n / 64 % 64 + 0x80 ≤ high →
      n.isValidChar ∧ 0x800 ≤ n ∧ n ≤ 0xFFFF) :
    Utf8Part.Begins ⟨2, low, high, bits, place, b⟩ [b] := by
  refine ⟨Nat.le_add_left 1 _, hlow, hhigh, fun n ⟨hbits, hfrom, hto⟩ => ?_⟩
  dsimp only at hbits hfrom hto
  obtain ⟨hvalid, hmin, hmax⟩ := h n (by omega) (by omega) (by omega)
  have hlead : b = UInt8.ofNat (n / 4096 + 0xE0) := by
    rw [show n / 4096 + 0xE0 = b.toNat by omega, UInt8.ofNat_toNat]
  rw [hlead, encode_three hvalid hmin hmax]
  exact ⟨hvalid, rfl⟩

theorem begins_four (hb : b.toNat = bits + 0xF0)
    (h : ∀ n, n / 262144 = bits → low ≤ n / 4096 % 64 + 0x80 → n / 4096 % 64 + 0x80 ≤ high →
      n.isValidChar ∧ 0x10000 ≤ n) :
    Utf8Part.Begins ⟨3, low, high, bits, place, b⟩ [b] := by
  refine ⟨Nat.le_add_left 1 _, hlow, hhigh, fun n ⟨hbits, hfrom, hto⟩ => ?_⟩
  dsimp only at hbits hfrom hto
  obtain ⟨hvalid, hmin⟩ := h n (by omega) (by omega) (by omega)
  have hlead : b = UInt8.ofNat (n / 262144 + 0xF0) := by
    rw [show n / 262144 + 0xF0 = b.toNat by omega, UInt8.ofNat_toNat]
  rw [hlead, encode_four hvalid hmin]
  exact ⟨hvalid, rfl⟩

end

/-- A leading byte excludes by its bounds what is written with fewer bytes and what is no character. -/
theorem begins_of_utf8Lead? {place : Nat} {b : UInt8} {p : Utf8Part}
    (h : utf8Lead? place b = some p) : p.Begins [b] := by
  simp only [utf8Lead?, Bool.and_eq_true, decide_eq_true_eq, beq_iff_eq] at h
  -- the cases follow the ranges of the leading byte
  split at h
  · cases h
    refine ⟨Nat.le_refl _, Nat.le_refl _, Nat.le_refl _, fun n ⟨hbits, hlow, hhigh⟩ => ?_⟩
    dsimp only at hbits hlow hhigh
    have hvalid : n.isValidChar := .inl (by omega)
    have hlead : b = UInt8.ofNat (n / 64 + 0xC0) := by
      rw [show n / 64 + 0xC0 = b.toNat by omega, UInt8.ofNat_toNat]
    rw [hlead, encode_two hvalid (by omega) (by omega)]
    exact ⟨hvalid, rfl⟩
  split at h
  · cases h
    refine begins_three (by decide) (by decide) (by omega) fun n _ _ _ => ?_
    exact ⟨.inl (by omega), by omega, by omega⟩
  split at h
  · cases h
    refine begins_three (by decide) (by decide) (by omega) fun n _ _ _ => ?_
    exact ⟨.inl (by omega), by omega, by omega⟩
  split at h
  · cases h
    refine begins_three (by decide) (by decide) (by omega) fun n _ _ _ => ?_
    exact ⟨by unfold Nat.isValidChar; omega, by omega, by omega⟩
  split at h
  · cases h
    refine begins_four (by decide) (by decide) (by omega) fun n _ _ _ => ?_
    exact ⟨.inr (by omega), by omega⟩
  split at h
  · cases h
    refine begins_four (by decide) (by decide) (by omega) fun n _ _ _ => ?_
    exact ⟨.inr (by omega), by omega⟩
  split at h
  · cases h
    refine begins_four (by decide) (by decide) (by omega) fun n _ _ _ => ?_
    exact ⟨.inr (by omega), by omega⟩
  · cases h

theorem utf8Lead?_ascii {b : UInt8} (h : b.toNat < 0x80) (place : Nat) : utf8Lead? place b = none := by
  simp only [utf8Lead?, Bool.and_eq_true, decide_eq_true_eq, beq_iff_eq]
  rw [if_neg (by omega), if_neg (by omega), if_neg (by omega), if_neg (by omega),
    if_neg (by omega), if_neg (by omega), if_neg (by omega)]

section
variable {n : Nat} {b : UInt8} (place : Nat)

theorem utf8Lead?_two (hb : b.toNat = n / 64 + 0xC0) (hlow : 0x80 ≤ n) (hhigh : n ≤ 0x7FF) :
    ∃ p, utf8Lead? place b = some p ∧ p.owed = 1 ∧ p.Fits n := by
  simp only [utf8Lead?, Bool.and_eq_true, decide_eq_true_eq]
  rw [if_pos (by omega)]
  exact ⟨_, rfl, rfl, by dsimp only; omega, by dsimp only; omega, by dsimp only; omega⟩

theorem utf8Lead?_three (hvalid : n.isValidChar) (hb : b.toNat = n / 4096 + 0xE0)
    (hlow : 0x800 ≤ n) (hhigh : n ≤ 0xFFFF) :
    ∃ p, utf8Lead? place b = some p ∧ p.owed = 2 ∧ p.Fits n := by
  unfold Nat.isValidChar at hvalid
  simp only [utf8Lead?, Bool.and_eq_true, decide_eq_true_eq, beq_iff_eq]
  rw [if_neg (by omega)]
  by_cases hfirst : b.toNat = 0xE0
  · rw [if_pos hfirst]
    exact ⟨_, rfl, rfl, by dsimp only; omega, by dsimp only; omega, by dsimp only; omega⟩
  rw [if_neg hfirst]
  by_cases hsurrogate : b.toNat = 0xED
  · rw [if_pos hsurrogate]
    exact ⟨_, rfl, rfl, by dsimp only; omega, by dsimp only; omega, by dsimp only; omega⟩
  rw [if_neg hsurrogate, if_pos (by omega)]
  exact ⟨_, rfl, rfl, by dsimp only; omega, by dsimp only; omega, by dsimp only; omega⟩

theorem utf8Lead?_four (hb : b.toNat = n / 262144 + 0xF0) (hlow : 0x10000 ≤ n)
    (hhigh : n < 0x110000) : ∃ p, utf8Lead? place b = some p ∧ p.owed = 3 ∧ p.Fits n := by
  simp only [utf8Lead?, Bool.and_eq_true, decide_eq_true_eq, beq_iff_eq]
  rw [if_neg (by omega), if_neg (by omega), if_neg (by omega), if_neg (by omega)]
  by_cases hfirst : b.toNat = 0xF0
  · rw [if_pos hfirst]
    exact ⟨_, rfl, rfl, by dsimp only; omega, by dsimp only; omega, by dsimp only; omega⟩
  rw [if_neg hfirst]
  by_cases hlast : b.toNat = 0xF4
  · rw [if_neg (by omega), if_pos hlast]
    exact ⟨_, rfl, rfl, by dsimp only; omega, by dsimp only; omega, by dsimp only; omega⟩
  rw [if_pos (by omega)]
  exact ⟨_, rfl, rfl, by dsimp only; omega, by dsimp only; omega, by dsimp only; omega⟩

end

theorem exists_utf8Lead? {n : Nat} (hvalid : n.isValidChar) (h : 0x80 ≤ n) (place : Nat) :
    ∃ b p, utf8Lead? place b = some p ∧ p.Fits n ∧
      String.utf8EncodeChar (Char.ofNat n) = b :: continuation n p.owed := by
  have hbound : n < 0x110000 := by
    rcases hvalid with h | h <;> omega
  have hbyte : ∀ {k : Nat}, k < 256 → (UInt8.ofNat k).toNat = k := UInt8.toNat_ofNat_of_lt'
  by_cases htwo : n ≤ 0x7FF
  · obtain ⟨p, hp, howed, hfits⟩ := utf8Lead?_two place (hbyte (by omega)) h htwo
    exact ⟨_, p, hp, hfits, howed ▸ encode_two hvalid h htwo⟩
  by_cases hthree : n ≤ 0xFFFF
  · obtain ⟨p, hp, howed, hfits⟩ :=
      utf8Lead?_three place hvalid (hbyte (by omega)) (by omega) hthree
    exact ⟨_, p, hp, hfits, howed ▸ encode_three hvalid (by omega) hthree⟩
  · obtain ⟨p, hp, howed, hfits⟩ := utf8Lead?_four place (hbyte (by omega)) (by omega) hbound
    exact ⟨_, p, hp, hfits, howed ▸ encode_four hvalid (by omega)⟩

/-! ## Steps -/

def Utf8Part.bitsWith (p : Utf8Part) (b : UInt8) : Nat := p.bits * 0x40 + b.toNat % 0x40

namespace Utf8Part.Begins

variable {p : Utf8Part} {bytes : List UInt8} (h : p.Begins bytes) {b : UInt8}
  (hlow : p.low ≤ b.toNat) (hhigh : b.toNat ≤ p.high)
include h hlow hhigh

theorem ofNat_eq {n : Nat} (hn : n % 64 = b.toNat % 64) : UInt8.ofNat (n % 64 + 0x80) = b := by
  have := h.low
  have := h.high
  rw [show n % 64 + 0x80 = b.toNat by omega, UInt8.ofNat_toNat]

theorem encode_bitsWith (howed : p.owed ≤ 1) :
    String.utf8EncodeChar (Char.ofNat (p.bitsWith b)) = bytes ++ [b] := by
  have := h.low
  have := h.high
  have hone : p.owed = 1 := Nat.le_antisymm howed h.owed
  have hfits : p.Fits (p.bitsWith b) := by
    unfold bitsWith
    exact ⟨by rw [hone]; omega, by rw [hone]; omega, by rw [hone]; omega⟩
  rw [(h.encode _ hfits).2, hone, continuation, continuation, Nat.pow_zero, Nat.div_one,
    ofNat_eq h hlow hhigh (by unfold bitsWith; omega)]

theorem after (howed : ¬ p.owed ≤ 1) :
    Begins ⟨p.owed - 1, 0x80, 0xBF, p.bitsWith b, p.first, p.byte⟩ (bytes ++ [b]) := by
  have hb := h.low
  have hb' := h.high
  obtain ⟨k, hk⟩ : ∃ k, p.owed = k + 2 := ⟨p.owed - 2, by omega⟩
  rw [hk]
  refine ⟨Nat.le_add_left 1 k, Nat.le_refl _, Nat.le_refl _, fun n hn => ?_⟩
  have hbits : n / 64 ^ (k + 1) = p.bitsWith b := hn.bits
  have hdiv : n / 64 ^ (k + 2) = n / 64 ^ (k + 1) / 64 := by
    rw [Nat.pow_succ, Nat.div_div_eq_div_mul]
  have hfits : p.Fits n := by
    unfold bitsWith at hbits
    refine ⟨?_, ?_, ?_⟩ <;> rw [hk]
    · omega
    · rw [show k + 2 - 1 = k + 1 by omega]
      omega
    · rw [show k + 2 - 1 = k + 1 by omega]
      omega
  obtain ⟨hvalid, hencode⟩ := h.encode n hfits
  refine ⟨hvalid, ?_⟩
  rw [hencode, hk, continuation, ofNat_eq h hlow hhigh (by rw [hbits]; unfold bitsWith; omega),
    List.append_assoc]
  rfl

end Utf8Part.Begins

/-! ## Reading -/

def Utf8State.Holds (s : Utf8State) (bytes : List UInt8) : Prop :=
  ∃ pending, bytes = s.chars.reverse.flatMap String.utf8EncodeChar ++ pending ∧
    match s.part with
    | none => pending = []
    | some p => p.Begins pending

theorem holds_cons {chars : List Char} {c : Char} {place : Nat} {bytes : List UInt8}
    (h : bytes = chars.reverse.flatMap String.utf8EncodeChar ++ String.utf8EncodeChar c) :
    Utf8State.Holds ⟨c :: chars, none, place⟩ bytes :=
  ⟨[], by simp [h], rfl⟩

theorem holds_step {s s' : Utf8State} {b : UInt8} {bytes : List UInt8} (hs : s.Holds bytes)
    (h : s.step b = .ok s') : s'.Holds (bytes ++ [b]) := by
  obtain ⟨pending, rfl, hpart⟩ := hs
  rw [List.append_assoc]
  unfold Utf8State.step at h
  dsimp only at h
  -- a byte begins a character or continues the pending one
  split at h
  · rename_i hnone
    rw [hnone] at hpart
    subst hpart
    split at h
    · rename_i hascii
      cases h
      have hlt : b.toNat < 0x80 := UInt8.lt_iff_toNat_lt.mp hascii
      refine holds_cons ?_
      rw [encode_ascii (.inl (by omega)) (by omega), UInt8.ofNat_toNat]
      rfl
    · split at h
      · rename_i p hlead
        cases h
        exact ⟨[b], rfl, begins_of_utf8Lead? hlead⟩
      · cases h
  · rename_i p hsome
    rw [hsome] at hpart
    split at h
    · cases h
    rename_i hbounds
    rw [Bool.or_eq_true, decide_eq_true_eq, decide_eq_true_eq, not_or, Nat.not_lt, Nat.not_lt]
      at hbounds
    obtain ⟨hlow, hhigh⟩ := hbounds
    split at h
    -- the last byte that was owed completes the character
    · rename_i howed
      cases h
      refine holds_cons ?_
      rw [← hpart.encode_bitsWith hlow hhigh howed]
      rfl
    · rename_i howed
      cases h
      exact ⟨pending ++ [b], rfl, hpart.after hlow hhigh howed⟩

theorem holds_foldlM {rest : List UInt8} {s s' : Utf8State} {bytes : List UInt8}
    (hs : s.Holds bytes) (h : rest.foldlM Utf8State.step s = .ok s') : s'.Holds (bytes ++ rest) := by
  induction rest generalizing s bytes with
  | nil =>
    cases h
    rwa [List.append_nil]
  | cons b rest ih =>
    rw [List.foldlM_cons] at h
    cases hstep : s.step b with
    | error fault =>
      rw [hstep] at h
      cases h
    | ok next =>
      rw [hstep] at h
      have := ih (holds_step hs hstep) h
      rwa [List.append_assoc] at this

/-! ## Written characters -/

theorem step_continuation {n k : Nat} {p : Utf8Part} (chars : List Char) (place : Nat)
    (howed : p.owed = k + 1) (hfits : p.Fits n) :
    Utf8State.step ⟨chars, some p, place⟩ (UInt8.ofNat (n / 64 ^ k % 64 + 0x80)) =
      .ok (if k = 0 then ⟨Char.ofNat n :: chars, none, place + 1⟩
        else ⟨chars, some ⟨k, 0x80, 0xBF, n / 64 ^ k, p.first, p.byte⟩, place + 1⟩) := by
  obtain ⟨hbits, hlow, hhigh⟩ := hfits
  rw [howed, Nat.add_sub_cancel] at hlow hhigh
  rw [howed, Nat.pow_succ, ← Nat.div_div_eq_div_mul] at hbits
  have hb : (UInt8.ofNat (n / 64 ^ k % 64 + 0x80)).toNat = n / 64 ^ k % 64 + 0x80 :=
    UInt8.toNat_ofNat_of_lt' (by omega : _ < 256)
  have hwith : p.bits * 0x40 + (n / 64 ^ k % 64 + 0x80) % 0x40 = n / 64 ^ k := by omega
  simp only [Utf8State.step, hb, hwith, howed]
  rw [if_neg (by simp; omega)]
  by_cases hk : k = 0
  · subst hk
    simp
  · rw [if_neg (by omega), if_neg hk]
    rfl

theorem foldlM_continuation {n k : Nat} {p : Utf8Part} (chars : List Char) (place : Nat)
    (howed : p.owed = k + 1) (hfits : p.Fits n) : ∃ place',
      (continuation n (k + 1)).foldlM Utf8State.step ⟨chars, some p, place⟩ =
        .ok ⟨Char.ofNat n :: chars, none, place'⟩ := by
  induction k generalizing p place with
  | zero => 
    rw [continuation, List.foldlM_cons, step_continuation chars place howed hfits]
    exact ⟨_, rfl⟩
  | succ k ih =>
    rw [continuation, List.foldlM_cons, step_continuation chars place howed hfits]
    rw [if_neg (Nat.succ_ne_zero k)]
    refine ih (p := ⟨k + 1, 0x80, 0xBF, n / 64 ^ (k + 1), p.first, p.byte⟩) (place + 1) rfl ?_
    exact ⟨rfl, Nat.le_add_left _ _, by dsimp only; omega⟩

theorem foldlM_utf8EncodeChar (chars : List Char) (c : Char) (place : Nat) : ∃ place',
    (String.utf8EncodeChar c).foldlM Utf8State.step ⟨chars, none, place⟩ =
      .ok ⟨c :: chars, none, place'⟩ := by
  have hc : Char.ofNat c.val.toNat = c := Char.ofNat_toNat c
  have hvalid : c.val.toNat.isValidChar := c.valid
  by_cases hascii : c.val.toNat ≤ 0x7F
  · have hb : (UInt8.ofNat c.val.toNat).toNat = c.val.toNat :=
      UInt8.toNat_ofNat_of_lt' (by omega : _ < 256)
    have hlt : UInt8.ofNat c.val.toNat < 0x80 := by
      rw [UInt8.lt_iff_toNat_lt, hb]
      exact Nat.lt_succ_of_le hascii
    have hencode := encode_ascii hvalid hascii
    rw [hc] at hencode
    rw [hencode, List.foldlM_cons, Utf8State.step]
    simp only [hb, hc]
    rw [if_pos hlt]
    exact ⟨_, rfl⟩
  · obtain ⟨b, p, hlead, hfits, hencode⟩ := exists_utf8Lead? hvalid (by omega) place
    obtain ⟨k, howed⟩ : ∃ k, p.owed = k + 1 :=
      Nat.exists_eq_succ_of_ne_zero (by have := (begins_of_utf8Lead? hlead).owed; omega)
    rw [hc] at hencode
    -- a leading byte is never taken for a whole character
    have hlarge : ¬ b < 0x80 := by
      intro hlt
      rw [utf8Lead?_ascii (UInt8.lt_iff_toNat_lt.mp hlt)] at hlead
      cases hlead
    have hstep : Utf8State.step ⟨chars, none, place⟩ b = .ok ⟨chars, some p, place + 1⟩ := by
      simp only [Utf8State.step, if_neg hlarge, hlead]
    obtain ⟨place', hrest⟩ := foldlM_continuation chars (place + 1) howed hfits
    rw [hc] at hrest
    refine ⟨place', ?_⟩
    rw [hencode, List.foldlM_cons, hstep, howed]
    exact hrest

theorem foldlM_flatMap (chars cs : List Char) (place : Nat) : ∃ place',
    (cs.flatMap String.utf8EncodeChar).foldlM Utf8State.step ⟨chars, none, place⟩ =
      .ok ⟨cs.reverse ++ chars, none, place'⟩ := by
  induction cs generalizing chars place with
  | nil => exact ⟨place, rfl⟩
  | cons c cs ih =>
    obtain ⟨middle, hc⟩ := foldlM_utf8EncodeChar chars c place
    obtain ⟨place', hcs⟩ := ih (c :: chars) middle
    refine ⟨place', ?_⟩
    rw [List.flatMap_cons, List.foldlM_append, hc, List.reverse_cons, List.append_assoc]
    exact hcs

/-- Bytes are read as a text if and only if they are the bytes that it is written with. -/
theorem decodeUtf8_eq_ok_iff {bytes : List UInt8} {cs : List Char} :
    decodeUtf8 bytes = .ok cs ↔ cs.flatMap String.utf8EncodeChar = bytes := by
  unfold decodeUtf8
  constructor
  · intro h
    cases hread : bytes.foldlM Utf8State.step ⟨[], none, 0⟩ with
    | error fault =>
      rw [hread] at h
      cases h
    | ok s =>
      have hstart : Utf8State.Holds ⟨[], none, 0⟩ [] := ⟨[], rfl, rfl⟩
      obtain ⟨pending, hbytes, hpart⟩ := holds_foldlM hstart hread
      rw [hread] at h
      obtain ⟨chars, part, place⟩ := s
      cases part with
      | some p => cases h
      | none =>
        cases h
        rw [hpart] at hbytes
        simpa using hbytes.symm
  · rintro rfl
    obtain ⟨place', hread⟩ := foldlM_flatMap [] cs 0
    rw [hread]
    show Except.ok (cs.reverse ++ []).reverse = Except.ok cs
    simp

end ApiTypes.Text
