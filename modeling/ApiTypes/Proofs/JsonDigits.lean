import ApiTypes.Proofs.JsonText

/-!
# Integers of too many digits

A reader of JSON with a limit of digits reads what one without it reads, up to an integer beyond the
limit that stands where a value is awaited.
-/

namespace ApiTypes.Json

/-! ## Tokens -/

def Token.limited : Token → Token
  | .leaf (.int n) => if isTooLong n then .broken .tooLong else .leaf (.int n)
  | t => t

theorem limited_of_isTooLong {n : Int} (h : isTooLong n = true) :
    (Token.leaf (.int n)).limited = .broken .tooLong := by
  rw [Token.limited, if_pos h]

theorem limited_eq_self {t : Token} (h : ¬ ∃ n, t = .leaf (.int n) ∧ isTooLong n = true) :
    t.limited = t := by
  unfold Token.limited
  split
  · rename_i n
    rw [if_neg fun hn => h ⟨n, rfl, hn⟩]
  · rfl

theorem le_digitsValue {c : Char} {ds : List Char} (hc : c.isDigit = true) (hzero : c ≠ '0')
    {k : Nat} (hk : k ≤ ds.length) : 10 ^ k ≤ Text.digitsValue (c :: ds) := by
  have hfold : ∀ (ds : List Char) (n : Nat),
      n * 10 ^ ds.length ≤ ds.foldl (fun n d => 10 * n + (d.toNat - '0'.toNat)) n := by
    intro ds
    induction ds with
    | nil => intro n; simp
    | cons d ds ih =>
      intro n
      calc n * 10 ^ (d :: ds).length = 10 * n * 10 ^ ds.length := by
            rw [List.length_cons, Nat.pow_succ', ← Nat.mul_assoc, Nat.mul_comm 10 n]
        _ ≤ (10 * n + (d.toNat - '0'.toNat)) * 10 ^ ds.length :=
          Nat.mul_le_mul_right _ (Nat.le_add_right _ _)
        _ ≤ _ := ih _
  have hvalue : 1 ≤ 10 * 0 + (c.toNat - '0'.toNat) := by
    simp only [Char.isDigit, Bool.and_eq_true, decide_eq_true_eq] at hc
    have hlow : 48 ≤ c.toNat := UInt32.le_iff_toNat_le.mp hc.1
    have hne : c.toNat ≠ 48 := fun h => hzero (Char.toNat_inj.mp h)
    have h0 : '0'.toNat = 48 := rfl
    omega
  calc 10 ^ k ≤ 10 ^ ds.length := Nat.pow_le_pow_right (by decide) hk
    _ = 1 * 10 ^ ds.length := (Nat.one_mul _).symm
    _ ≤ (10 * 0 + (c.toNat - '0'.toNat)) * 10 ^ ds.length := Nat.mul_le_mul_right _ hvalue
    _ ≤ _ := hfold ds _

structure IsWhole (ds : List Char) : Prop where
  digits : ∀ c ∈ ds, c.isDigit = true
  ne_nil : ds ≠ []
  zero : ds.head? = some '0' → ds = ['0']

theorem isTooLong_iff {ds : List Char} (h : IsWhole ds) (negative : Bool) :
    isTooLong (if negative then -(Text.digitsValue ds : Int) else Text.digitsValue ds) =
      decide (maxDigits < ds.length) := by
  by_cases hlength : ds.length ≤ maxDigits
  · rw [isTooLong_digitsValue h.digits hlength, decide_eq_false (Nat.not_lt.mpr hlength)]
  obtain ⟨c, cs, rfl⟩ := List.exists_cons_of_ne_nil h.ne_nil
  have hzero : c ≠ '0' := by
    rintro rfl
    rw [h.zero rfl] at hlength
    exact hlength (by decide)
  have habs : (if negative then -(Text.digitsValue (c :: cs) : Int)
      else Text.digitsValue (c :: cs)).natAbs = Text.digitsValue (c :: cs) := by
    split <;> simp
  rw [isTooLong, habs, decide_eq_true (Nat.not_le.mp hlength), decide_eq_true_eq]
  rw [List.length_cons, Nat.not_le, Nat.lt_succ_iff] at hlength
  have hpow : ∀ k, k ≤ cs.length → Nat.pow 10 k ≤ Text.digitsValue (c :: cs) :=
    fun k hk => le_digitsValue (h.digits c List.mem_cons_self) hzero hk
  exact hpow _ hlength

theorem isWhole_span {cs whole rest : List Char} (hempty : ¬ whole.isEmpty = true)
    (h : (match cs with
      | '0' :: r => (['0'], r)
      | cs => Text.spanDigits cs) = (whole, rest)) : IsWhole whole := by
  have hne : whole ≠ [] := fun h => hempty (List.isEmpty_iff.mpr h)
  split at h
  · cases h
    exact ⟨by simp, hne, fun _ => rfl⟩
  · rename_i hzero
    cases h
    refine ⟨fun c hc => List.mem_takeWhile_imp hc, hne, fun hhead => ?_⟩
    cases cs with
    | nil => cases hhead
    | cons c cs =>
      rw [List.takeWhile_cons] at hhead
      split at hhead
      · exact (hzero cs (Option.some.inj hhead ▸ rfl)).elim
      · cases hhead

theorem readNumber_eq (negative : Bool) (cs : List Char) :
    readNumber (some maxDigits) negative cs =
      (readNumber none negative cs).map fun t => (t.1.limited, t.2) := by
  unfold readNumber
  split
  rename_i whole rest hspan
  by_cases hempty : whole.isEmpty = true
  · simp [hempty]
  have hlong := isTooLong_iff (isWhole_span hempty hspan) negative
  rw [if_neg hempty, if_neg hempty]
  dsimp only
  split
  · have hnone : (none : Option Nat).any (· < whole.length) = false := rfl
    have hsome : (some maxDigits).any (· < whole.length) = decide (maxDigits < whole.length) := rfl
    rw [hsome, ← hlong, hnone]
    rfl
  · rfl

theorem limited_constant {cs : List Char} {t : Token × Nat} (h : constantToken? cs = some t) :
    t.1.limited = t.1 := by
  have hall : ∀ e ∈ constants, (Token.leaf e.2).limited = .leaf e.2 := by
    unfold constants
    simp [Token.limited]
  obtain ⟨e, he, h⟩ := List.exists_of_findSome?_eq_some h
  dsimp only at h
  split at h
  · cases h
    exact hall e he
  · cases h

theorem limited_quoted (place : Nat) (cs : List Char) :
    (quotedToken place cs).1.limited = (quotedToken place cs).1 := by
  unfold quotedToken
  dsimp only
  split <;> rfl

theorem numberToken?_eq (cs : List Char) : numberToken? (some maxDigits) cs =
    (numberToken? none cs).map fun t => (t.1.limited, t.2) := by
  unfold numberToken?
  dsimp only
  split <;> rw [readNumber_eq, Option.map_map, Option.map_map] <;> rfl

theorem readToken_eq (place : Nat) (c : Char) (cs : List Char) :
    readToken (some maxDigits) place c cs =
      ((readToken none place c cs).1.limited, (readToken none place c cs).2) := by
  unfold readToken
  iterate 6
    split
    · rfl
  split
  · rw [limited_quoted]
  · rw [numberToken?_eq]
    cases hconstant : constantToken? (c :: cs) with
    | some t =>
      show t = (t.1.limited, t.2)
      rw [limited_constant hconstant]
    | none => cases numberToken? none (c :: cs) <;> rfl

theorem tokens_eq (cs : List Char) :
    tokens (some maxDigits) cs = (tokens none cs).map fun t => (t.1, t.2.limited) := by
  have hcut : ∀ (fuel place : Nat) (cs : List Char), cut (some maxDigits) fuel place cs =
      (cut none fuel place cs).map fun t => (t.1, t.2.limited) := by
    intro fuel
    induction fuel with
    | zero => intro place cs; rfl
    | succ fuel ih =>
      intro place cs
      unfold cut
      dsimp only
      split
      · rfl
      · rename_i c rest _
        rw [readToken_eq, List.map_cons, ← ih]
  exact hcut _ _ _

/-! ## Faults -/

theorem bind_ne_tooLong {α β : Type} {x : Except Fault α} {f : α → Except Fault β}
    (hx : x ≠ .error .tooLong) (hf : ∀ a, f a ≠ .error .tooLong) : (x >>= f) ≠ .error .tooLong := by
  cases x with
  | ok a => exact hf a
  | error fault =>
    intro h
    cases h
    exact hx rfl

theorem unquote_ne_tooLong (place : Nat) (body : List Char) (closed : Bool) :
    unquote place body closed ≠ .error .tooLong := by
  have hstep : ∀ (u : Unquoting) (c : Char), u.step c ≠ .error .tooLong := by
    intro u c
    unfold Unquoting.step
    dsimp only
    split
    all_goals repeat' split
    all_goals nofun
  have hfold : ∀ (cs : List Char) (u : Unquoting), cs.foldlM Unquoting.step u ≠ .error .tooLong := by
    intro cs
    induction cs with
    | nil => intro u; nofun
    | cons c cs ih =>
      intro u
      rw [List.foldlM_cons]
      exact bind_ne_tooLong (hstep u c) ih
  unfold unquote
  refine bind_ne_tooLong (hfold body _) fun u => ?_
  split <;> nofun

def Token.IsUnlimited (t : Token) : Prop := t ≠ .broken .tooLong

theorem isUnlimited_readNumber {negative : Bool} {cs : List Char} {t : Token × List Char}
    (h : readNumber none negative cs = some t) : t.1.IsUnlimited := by
  have hnumber : ∀ (isInt : Bool) (k : Nat) (n : Int) (x : Float), Token.IsUnlimited
      (if isInt then
        if (none : Option Nat).any (· < k) then .broken .tooLong else .leaf (.int n)
      else .leaf (.float x)) := by
    intro isInt k n x
    cases isInt <;> nofun
  unfold readNumber at h
  split at h
  split at h
  · cases h
  dsimp only at h
  cases h
  exact hnumber _ _ _ _

theorem isUnlimited_readToken (place : Nat) (c : Char) (cs : List Char) :
    (readToken none place c cs).1.IsUnlimited := by
  unfold readToken
  -- the six marks hold no number
  iterate 6
    split
    · nofun
  split
  · unfold quotedToken
    dsimp only
    split
    · nofun
    · rename_i fault hfault
      rintro ⟨⟩
      exact unquote_ne_tooLong _ _ _ hfault
  cases hconstant : constantToken? (c :: cs) with
  | some t =>
    obtain ⟨e, _, ht⟩ := List.exists_of_findSome?_eq_some hconstant
    dsimp only at ht
    split at ht
    · cases ht
      nofun
    · cases ht
  | none =>
    cases hnumber : numberToken? none (c :: cs) with
    | none => nofun
    | some t =>
      obtain ⟨t, ht, rfl⟩ := Option.map_eq_some_iff.mp hnumber
      show t.1.IsUnlimited
      split at ht
      · exact isUnlimited_readNumber ht
      · exact isUnlimited_readNumber ht

theorem isUnlimited_of_mem_tokens {cs : List Char} {t : Nat × Token} (h : t ∈ tokens none cs) :
    t.2.IsUnlimited := by
  have hcut : ∀ (fuel place : Nat) (cs : List Char), ∀ t ∈ cut none fuel place cs,
      t.2.IsUnlimited := by
    intro fuel
    induction fuel with
    | zero =>
      intro place cs t ht
      rw [List.mem_singleton.mp ht]
      nofun
    | succ fuel ih =>
      intro place cs t ht
      unfold cut at ht
      dsimp only at ht
      split at ht
      · rw [List.mem_singleton.mp ht]
        nofun
      · rename_i c rest _
        rcases List.mem_cons.mp ht with rfl | ht
        · exact isUnlimited_readToken _ _ _
        · exact ih _ _ t ht
  exact hcut _ _ _ t h

/-! ## Reading -/

def Reader.AwaitsValue (r : Reader) : Prop := r.awaited = .value ∨ r.awaited = .item

/-- The token is an integer of too many digits, and a value is awaited. -/
def Reader.Overflows (r : Reader) (t : Token) : Prop :=
  r.AwaitsValue ∧ ∃ n, t = .leaf (.int n) ∧ isTooLong n = true

theorem step_of_overflows {r : Reader} {place : Nat} {t : Token} (h : r.Overflows t) :
    r.step (place, t.limited) = .error .tooLong := by
  obtain ⟨hawaits, n, rfl, hn⟩ := h
  have hlimited := limited_of_isTooLong hn
  rcases hawaits with hawaits | hawaits
  · simp only [hlimited, Reader.step, hawaits, Reader.readValue]
  · simp only [hlimited, Reader.step, hawaits, Reader.readValue]

theorem step_of_not_overflows {r : Reader} {place : Nat} {t : Token} (h : ¬ r.Overflows t) :
    r.step (place, t.limited) = r.step (place, t) := by
  by_cases hlong : ∃ n, t = .leaf (.int n) ∧ isTooLong n = true
  · obtain ⟨n, rfl, hn⟩ := hlong
    have hlimited := limited_of_isTooLong hn
    have hawaits : ¬ r.AwaitsValue := fun hawaits => h ⟨hawaits, n, rfl, hn⟩
    rw [hlimited]
    unfold Reader.AwaitsValue at hawaits
    unfold Reader.step
    cases ha : r.awaited <;> simp_all [Reader.readKey]
  · rw [limited_eq_self hlong]

theorem step_ne_tooLong {r : Reader} {place : Nat} {t : Token} (h : t.IsUnlimited) :
    r.step (place, t) ≠ .error .tooLong := by
  have hvalue : r.readValue place t ≠ .error .tooLong := by
    unfold Reader.readValue
    split
    · nofun
    · nofun
    · nofun
    · rintro ⟨⟩
      exact h rfl
    · nofun
  have hkey : r.readKey place t ≠ .error .tooLong := by
    unfold Reader.readKey
    split <;> nofun
  have hclosed : ∀ (x : Option Reader) (reason : Reason),
      ((x.map Except.ok).getD (.error (.syntaxError reason place)) : Except Fault Reader) ≠
        .error .tooLong := by
    intro x reason
    cases x <;> nofun
  unfold Reader.step
  dsimp only
  -- the cases follow what is awaited
  split
  all_goals first
    | exact hvalue
    | exact hkey
    | exact hclosed _ _
    | nofun

def Reader.OverflowsIn (r : Reader) (ts : List (Nat × Token)) : Prop :=
  ∃ before t after r', ts = before ++ t :: after ∧ before.foldlM step r = .ok r' ∧
    r'.Overflows t.2

theorem overflowsIn_cons {r : Reader} {t : Nat × Token} {ts : List (Nat × Token)} :
    r.OverflowsIn (t :: ts) ↔ r.Overflows t.2 ∨ ∃ r', r.step t = .ok r' ∧ r'.OverflowsIn ts := by
  constructor
  · rintro ⟨before, u, after, r', hsplit, hread, hover⟩
    cases before with
    | nil =>
      cases hsplit
      cases hread
      exact .inl hover
    | cons b before =>
      cases hsplit
      rw [List.foldlM_cons] at hread
      cases hstep : r.step t with
      | error fault =>
        rw [hstep] at hread
        cases hread
      | ok next =>
        rw [hstep] at hread
        exact .inr ⟨next, rfl, before, u, after, r', rfl, hread, hover⟩
  · rintro (hover | ⟨next, hstep, before, u, after, r', rfl, hread, hover⟩)
    · exact ⟨[], t, ts, r, rfl, rfl, hover⟩
    · refine ⟨t :: before, u, after, r', rfl, ?_, hover⟩
      rw [List.foldlM_cons, hstep]
      exact hread

/-- With the limit a reader stops where a token overflows it, and else it reads as without. -/
theorem foldlM_limited {ts : List (Nat × Token)} (hts : ∀ t ∈ ts, t.2.IsUnlimited) (r : Reader) :
    r.OverflowsIn ts ∧ (ts.map fun t => (t.1, t.2.limited)).foldlM Reader.step r = .error .tooLong ∨
      ¬ r.OverflowsIn ts ∧ ts.foldlM Reader.step r ≠ .error .tooLong ∧
        (ts.map fun t => (t.1, t.2.limited)).foldlM Reader.step r = ts.foldlM Reader.step r := by
  induction ts generalizing r with
  | nil =>
    refine .inr ⟨?_, nofun, rfl⟩
    rintro ⟨before, t, after, _, hsplit, _⟩
    simp at hsplit
  | cons t ts ih =>
    obtain ⟨ht, hts⟩ := List.forall_mem_cons.mp hts
    rw [List.map_cons, List.foldlM_cons, List.foldlM_cons, overflowsIn_cons]
    -- a number that is too long where a value may stand ends the limited fold
    by_cases hover : r.Overflows t.2
    · rw [step_of_overflows hover]
      exact .inl ⟨.inl hover, rfl⟩
    rw [step_of_not_overflows hover]
    cases hstep : r.step t with
    | error fault =>
      refine .inr ⟨?_, ?_, rfl⟩
      · simp [hover]
      · intro h
        cases h
        exact step_ne_tooLong ht hstep
    | ok next =>
      rcases ih hts next with ⟨hin, hread⟩ | ⟨hnot, hne, hread⟩
      · exact .inl ⟨.inr ⟨next, rfl, hin⟩, hread⟩
      · refine .inr ⟨?_, hne, hread⟩
        simp [hover, hnot]

/-- An integer of too many digits stands in a text where a value is awaited. -/
def HasLongInteger (cs : List Char) : Prop :=
  cs.head? ≠ some '\uFEFF' ∧ Reader.start.OverflowsIn (tokens none cs)

theorem read_cases (cs : List Char) :
    HasLongInteger cs ∧ read (some maxDigits) cs = .error .tooLong ∨
      ¬ HasLongInteger cs ∧ read none cs ≠ .error .tooLong ∧
        read (some maxDigits) cs = read none cs := by
  unfold read HasLongInteger
  by_cases hmark : cs.head? = some '\uFEFF'
  · simp [hmark]
  rw [if_neg (by simpa using hmark), if_neg (by simpa using hmark), tokens_eq]
  rcases foldlM_limited (fun _ => isUnlimited_of_mem_tokens) Reader.start with
    ⟨hover, hread⟩ | ⟨hnot, hne, hread⟩
  · rw [hread]
    exact .inl ⟨⟨hmark, hover⟩, rfl⟩
  · rw [hread]
    refine .inr ⟨fun h => hnot h.2, ?_, rfl⟩
    cases hfold : (tokens none cs).foldlM Reader.step .start with
    | ok r => nofun
    | error fault =>
      intro h
      cases h
      exact hne hfold

/-- A text is refused for its digits if and only if an integer of too many is met. -/
theorem read_eq_tooLong_iff {cs : List Char} :
    read (some maxDigits) cs = .error .tooLong ↔ HasLongInteger cs := by
  rcases read_cases cs with ⟨hlong, hread⟩ | ⟨hnot, hne, hread⟩
  · exact iff_of_true hread hlong
  · exact iff_of_false (hread ▸ hne) hnot

end ApiTypes.Json
