import ApiTypes.Json.Token
import ApiTypes.Text.Quoted

/-!
# Reading quoted text

The text between two quotes says what was quoted: every escape stands for one character.
-/

namespace ApiTypes.Text

def hexNumber? (cs : List Char) : Option Nat :=
  cs.foldlM (fun n c => (hexValue? c).map (16 * n + ·)) 0

/-! ## Escapes -/

inductive Escaped (c : Char) : List Char → Prop
  | plain : c ≠ '"' → c ≠ '\\' → Escaped c [c]
  | short {d} : Json.escaped? d = some c.toNat → Escaped c ['\\', d]
  | code : c.toNat < 32 → Escaped c ('\\' :: 'u' :: hexDigits 4 c.toNat)

theorem escaped_escapeChar (c : Char) : Escaped c (escapeChar c) := by
  unfold escapeChar
  split
  · subst_vars; exact .short rfl
  split
  · subst_vars; exact .short rfl
  split
  · subst_vars; exact .short rfl
  split
  · subst_vars; exact .short rfl
  split
  · subst_vars; exact .short rfl
  split
  · subst_vars; exact .short rfl
  split
  · subst_vars; exact .short rfl
  split
  · rename_i h
    exact .code h
  · rename_i h₁ h₂ _ _ _ _ _ _
    exact .plain h₁ h₂

theorem hexDigits_four (n : Nat) : hexDigits 4 n = [Nat.digitChar (n / 4096 % 16),
    Nat.digitChar (n / 256 % 16), Nat.digitChar (n / 16 % 16), Nat.digitChar (n % 16)] := by
  simp [hexDigits, List.range_succ]

theorem digitChar_ne_quote : ∀ n < 16, Nat.digitChar n ≠ '"' ∧ Nat.digitChar n ≠ '\\' := by decide

theorem ne_quote_of_mem_hexDigits {n width : Nat} {c : Char} (h : c ∈ hexDigits width n) :
    c ≠ '"' ∧ c ≠ '\\' := by
  simp only [hexDigits, List.mem_map] at h
  obtain ⟨i, _, rfl⟩ := h
  exact digitChar_ne_quote _ (Nat.mod_lt _ (by decide))

/-! ## Unescaping -/

def unescape? : List Char → Option (List Char)
  | [] => some []
  | '\\' :: 'u' :: a :: b :: c :: d :: cs =>
    match hexNumber? [a, b, c, d] with
    | some n => (unescape? cs).map (Char.ofNat n :: ·)
    | none => none
  | '\\' :: c :: cs =>
    match Json.escaped? c with
    | some n => (unescape? cs).map (Char.ofNat n :: ·)
    | none => none
  | c :: cs => if c == '\\' then none else (unescape? cs).map (c :: ·)

theorem hexValue?_digitChar : ∀ n < 16, hexValue? (Nat.digitChar n) = some n := by decide

theorem hexNumber?_hexDigits {n : Nat} (h : n < 65536) : hexNumber? (hexDigits 4 n) = some n := by
  have hmod : ∀ k, k % 16 < 16 := fun k => Nat.mod_lt _ (by decide)
  rw [hexDigits_four, hexNumber?]
  simp only [List.foldlM_cons, List.foldlM_nil, hexValue?_digitChar _ (hmod _), Option.map_some,
    Option.bind_eq_bind, Option.bind_some, Option.pure_def]
  congr 1
  omega

theorem unescape?_escapeChar (c : Char) (rest : List Char) :
    unescape? (escapeChar c ++ rest) = (unescape? rest).map (c :: ·) := by
  have h := escaped_escapeChar c
  generalize escapeChar c = es at h ⊢
  cases h with
  | plain hquote hslash =>
    rw [List.singleton_append, unescape?, if_neg (by simpa using hslash)]
    · rintro _ _ _ _ _ rfl
      exact absurd rfl hslash
    · rintro _ _ rfl
      exact absurd rfl hslash
  | @short d h =>
    have hu : d ≠ 'u' := by
      rintro rfl
      cases h
    show unescape? ('\\' :: d :: rest) = _
    rw [unescape?, h]
    · simp [Char.ofNat_toNat]
    · rintro _ _ _ _ _ rfl
      exact absurd rfl hu
  | code h =>
    have hnum : hexNumber? (hexDigits 4 c.toNat) = some c.toNat := hexNumber?_hexDigits (by omega)
    rw [hexDigits_four] at hnum ⊢
    simp [unescape?, hnum, Char.ofNat_toNat]

theorem unescape?_escape (cs : List Char) : unescape? (escape cs) = some cs := by
  induction cs with
  | nil => rfl
  | cons c cs ih =>
    rw [escape, List.flatMap_cons, unescape?_escapeChar, ← escape, ih]
    rfl

end ApiTypes.Text
