import ApiTypes.Proofs.Words

/-!
# Ids that are made

An id that is made of a method and a path has all letters and digits of both, in their order and with
nothing between them. So two such ids are the same only where these are.
-/

namespace ApiTypes

namespace Name

theorem sanitize_eq_self {s : String} (h : ∀ c ∈ s.toList, isWordChar c = true) :
    sanitize s = s := by
  rw [← String.toList_inj, sanitize, String.toList_map]
  conv_rhs => rw [← List.map_id s.toList]
  exact List.map_congr_left fun c hc => if_pos (h c hc)

end Name

namespace Operation

/-! ## Phrases -/

def phraseOf (method path : String) : String :=
  method ++ " " ++ path.map fun c => if c == '/' || c == '\x7b' || c == '\x7d' then ' ' else c

theorem madeId_eq (method path : String) :
    madeId method path = Name.camelCase (phraseOf method path) :=
  Name.sanitize_eq_self fun c hc =>
    Name.isWordChar_of_isAlphanum (Name.isAlphanum_camelCase _ c hc)

theorem isAlphanum_madeId (method path : String) :
    ∀ c ∈ (madeId method path).toList, c.isAlphanum = true := by
  rw [madeId_eq]
  exact Name.isAlphanum_camelCase _

theorem filter_isAlphanum_spaced (cs : List Char) :
    (cs.map fun c => if c == '/' || c == '\x7b' || c == '\x7d' then ' ' else c).filter
      Char.isAlphanum = cs.filter Char.isAlphanum := by
  induction cs with
  | nil => rfl
  | cons c cs ih =>
    rw [List.map_cons, List.filter_cons, List.filter_cons, ih]
    by_cases hc : (c == '/' || c == '\x7b' || c == '\x7d') = true
    · have hout : c.isAlphanum = false := by
        simp only [Bool.or_eq_true, beq_iff_eq] at hc
        rcases hc with (rfl | rfl) | rfl <;> rfl
      rw [if_pos hc, hout]
      rfl
    · rw [if_neg hc]

theorem filter_isAlphanum_phraseOf (method path : String) :
    (phraseOf method path).toList.filter Char.isAlphanum =
      method.toList.filter Char.isAlphanum ++ path.toList.filter Char.isAlphanum := by
  have hblank : " ".toList.filter Char.isAlphanum = [] := by decide
  rw [phraseOf, String.toList_append, String.toList_append, String.toList_map, List.filter_append,
    List.filter_append, hblank, filter_isAlphanum_spaced, List.append_nil]

section
variable {method : String} (h : isMethod method = true)
include h

theorem exists_cons_of_isMethod : ∃ c cs, method.toList = c :: cs ∧ c.isAlpha = true := by
  have hne : ∀ m ∈ methods, m ≠ "" := by decide
  obtain ⟨c, cs, hlist⟩ : ∃ c cs, method.toList = c :: cs := by
    refine List.exists_cons_of_ne_nil fun hnil => hne _ (List.contains_iff_mem.mp h) ?_
    rw [← String.toList_eq_nil_iff, String.toList_map, hnil, List.map_nil]
  exact ⟨c, cs, hlist, isAlpha_of_isMethod h c (by simp [hlist])⟩

theorem exists_madeId_cons (path : String) :
    ∃ c cs, (madeId method path).toList = c :: cs ∧ c.isLower = true := by
  obtain ⟨c, cs, hlist, halpha⟩ := exists_cons_of_isMethod h
  have hphrase : ∃ ds, (phraseOf method path).toList = c :: ds := by
    rw [phraseOf, String.append_assoc, String.toList_append, hlist]
    exact ⟨_, rfl⟩
  obtain ⟨ds, hds⟩ := hphrase
  obtain ⟨es, hes⟩ := Name.exists_camelCase_cons hds (by rw [Char.isAlphanum, halpha]; rfl)
  exact ⟨c.toLower, es, (madeId_eq method path).symm ▸ hes, Name.isLower_toLower_of_isAlpha halpha⟩

def lettersOf (method path : String) : List Char :=
  method.toList.map Char.toLower ++ (path.toList.filter Char.isAlphanum).map Char.toLower

theorem map_toLower_madeId (path : String) :
    (madeId method path).toList.map Char.toLower = lettersOf method path := by
  have hmethod : method.toList.filter Char.isAlphanum = method.toList :=
    List.filter_eq_self.mpr fun c hc => by rw [Char.isAlphanum, isAlpha_of_isMethod h c hc]; rfl
  rw [madeId_eq, Name.map_toLower_camelCase, filter_isAlphanum_phraseOf, hmethod, List.map_append,
    lettersOf]

end

/-! ## Ids of entries -/

/-- Two entries get one made id only if they have the same letters and digits, which the id has, too. -/
theorem exists_id?_of_undeclared {e : Entry} (hmethod : isMethod e.method = true)
    (hdeclared : declaredId? e.operation = none) : ∃ id, e.id? true = some id ∧
      (∀ c ∈ id.toList, c.isAlphanum = true) ∧ (∃ c cs, id.toList = c :: cs ∧ c.isLower = true) ∧
      id.toList.map Char.toLower = lettersOf e.method e.path ∧
      ∀ e' : Entry, isMethod e'.method = true → declaredId? e'.operation = none →
        e'.id? true = some id → lettersOf e'.method e'.path = lettersOf e.method e.path := by
  have hid : ∀ {e : Entry}, declaredId? e.operation = none →
      e.id? true = some (madeId e.method e.path) := by
    intro e hdeclared
    rw [Entry.id?, hdeclared]
    rfl
  refine ⟨madeId e.method e.path, hid hdeclared, isAlphanum_madeId _ _, exists_madeId_cons hmethod _,
    map_toLower_madeId hmethod _, fun e' hmethod' hdeclared' hid' => ?_⟩
  rw [hid hdeclared', Option.some.injEq] at hid'
  rw [← map_toLower_madeId hmethod', hid', map_toLower_madeId hmethod]

def accentedEntry : Entry :=
  ⟨"/Pets/\x7bpetId\x7d/ABCd42é_x", "gET", .ofValue (.map []), .ofValue (.map [])⟩

theorem exists_id?_accented : isMethod accentedEntry.method = true ∧
    declaredId? accentedEntry.operation = none ∧
    ∃ id, accentedEntry.id? true = some id ∧ id = "gEtPetsPetIdAbCd42X" ∧
      id.toList.map Char.toLower = "getpetspetidabcd42x".toList := by
  have hmethod : isMethod accentedEntry.method = true := by decide +kernel
  have hdeclared : declaredId? accentedEntry.operation = none := by decide +kernel
  obtain ⟨id, hid, _, _, hletters, _⟩ := exists_id?_of_undeclared hmethod hdeclared
  refine ⟨hmethod, hdeclared, id, hid, ?_, hletters.trans (by decide +kernel)⟩
  rw [← Option.some_inj, ← hid]
  decide +kernel

end Operation

end ApiTypes
