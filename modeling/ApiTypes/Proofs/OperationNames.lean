import ApiTypes.Proofs.Collected

/-!
# Names of operations

What the names in the declarations of an operation are made of: its id has letters, digits and
underscores only, its method is one of the known ones, the type names of its parameters are their names
made legal, and no two of its responses have one status.
-/

namespace ApiTypes

/-! ## Capitals -/

namespace Name

theorem toNat_lt_of_isWordChar {c : Char} (h : isWordChar c = true) : c.toNat < 128 := by
  delta isWordChar Char.isAlphanum Char.isAlpha Char.isUpper Char.isLower Char.isDigit at h
  simp only [Bool.or_eq_true, Bool.and_eq_true, decide_eq_true_eq, beq_iff_eq, ge_iff_le,
    UInt32.le_iff_toNat_le] at h
  change (((65 ≤ c.toNat ∧ c.toNat ≤ 90) ∨ (97 ≤ c.toNat ∧ c.toNat ≤ 122)) ∨
    (48 ≤ c.toNat ∧ c.toNat ≤ 57)) ∨ c = '_' at h
  rcases h with h | rfl
  · omega
  · decide

theorem forall_of_isWordChar {p : Char → Prop}
    (h : ∀ n < 128, isWordChar (Char.ofNat n) = true → p (Char.ofNat n)) {c : Char}
    (hc : isWordChar c = true) : p c := by
  have hp := h c.toNat (toNat_lt_of_isWordChar hc)
  rw [Char.ofNat_toNat] at hp
  exact hp hc

theorem isWordChar_toUpper {c : Char} : isWordChar c = true → isWordChar c.toUpper = true :=
  forall_of_isWordChar (p := fun c => isWordChar c.toUpper = true) (by decide)

theorem capitalize_toList {c : Char} {s : String} {cs : List Char} (hs : s.toList = c :: cs)
    (h : isWordChar c = true) : (capitalize s).toList = c.toUpper :: cs := by
  unfold capitalize
  rw [hs]
  dsimp only
  rw [String.toList_ofList, Text.upper]
  dsimp only
  rw [if_pos (toNat_lt_of_isWordChar h)]
  rfl

theorem isWordChar_capitalize {s : String} (h : ∀ c ∈ s.toList, isWordChar c = true) :
    ∀ c ∈ (capitalize s).toList, isWordChar c = true := by
  cases hs : s.toList with
  | nil =>
    unfold capitalize
    rw [hs]
    simp
  | cons c cs =>
    rw [hs] at h
    obtain ⟨hc, hcs⟩ := List.forall_mem_cons.mp h
    rw [capitalize_toList hs hc]
    exact List.forall_mem_cons.mpr ⟨isWordChar_toUpper hc, hcs⟩

end Name

/-! ## Parameters -/

namespace Parameter

theorem typeName_of_readAll {shared own : Document} {ps : List Parameter}
    (h : (readAll shared own).result = .ok ps) :
    ∀ p ∈ ps, p.typeName = Name.capitalize (Name.sanitize p.name) := by
  intro p hp
  obtain ⟨_, _, hread⟩ := exists_read_of_readAll h p hp
  exact (read_eq_ok_some hread).2

end Parameter

/-! ## Operations -/

namespace Operation

theorem isAlpha_of_isMethod {s : String} (h : isMethod s = true) :
    ∀ c ∈ s.toList, c.isAlpha = true := by
  have hmethods : ∀ m ∈ methods, m.toList.all Char.isLower = true := by decide
  intro c hc
  have hlower : c.toLower.isLower = true := by
    refine List.all_eq_true.mp (hmethods _ (List.contains_iff_mem.mp h)) _ ?_
    rw [String.toList_map]
    exact List.mem_map_of_mem hc
  delta Char.toLower at hlower
  refine Bool.or_eq_true_iff.mpr ?_
  split at hlower
  · rename_i hupper
    delta Char.isUpper
    exact .inl (by simpa using hupper)
  · exact .inr hlower

structure HasNames (op : Operation) : Prop where
  id : ∃ s, op.id = Name.sanitize s
  method : isMethod op.method = true
  parameter : ∀ p ∈ op.parameters, p.typeName = Name.capitalize (Name.sanitize p.name)
  status : (op.responses.map (·.1)).Nodup

namespace HasNames

variable {op : Operation} (h : op.HasNames)
include h

theorem isWordChar_id : ∀ c ∈ op.id.toList, Name.isWordChar c = true := by
  obtain ⟨s, hs⟩ := h.id
  rw [hs]
  exact Schema.isWordChar_sanitize s

theorem isNameChar_scope : ∀ c ∈ op.scope.toList, Lexeme.isNameChar c = true := fun c hc =>
  Schema.isNameChar_of_isWordChar (Name.isWordChar_capitalize h.isWordChar_id c hc)

theorem isNameChar_method : ∀ c ∈ op.method.toList, Lexeme.isNameChar c = true := by
  intro c hc
  simp [Lexeme.isNameChar, Char.isAlphanum, isAlpha_of_isMethod h.method c hc]

theorem isNameChar_aliasName {p : Parameter} (hp : p ∈ op.parameters) :
    ∀ c ∈ p.aliasName.toList, Lexeme.isNameChar c = true := by
  have htype : ∀ c ∈ p.typeName.toList, Lexeme.isNameChar c = true := by
    rw [h.parameter p hp]
    exact fun c hc => Schema.isNameChar_of_isWordChar
      (Name.isWordChar_capitalize (Schema.isWordChar_sanitize _) c hc)
  unfold Parameter.aliasName
  split
  · exact htype
  · have hlead : ∀ c ∈ "Param_".toList, Lexeme.isNameChar c = true := List.all_eq_true.mp rfl
    rw [String.toList_append]
    exact List.forall_mem_append.mpr ⟨hlead, htype⟩

end HasNames

theorem isMethod_of_mem_entriesOf {paths : List (Scalar × Document)} {e : Entry}
    (h : .ok e ∈ entriesOf paths) : isMethod e.method = true := by
  obtain ⟨p, _, h⟩ := List.mem_flatMap.mp h
  dsimp only at h
  split at h
  · cases List.mem_singleton.mp h
  obtain ⟨entry, _, h⟩ := List.mem_filterMap.mp h
  dsimp only at h
  split at h
  · cases h
  split at h
  · rename_i hmethod
    cases h
    exact (Bool.and_eq_true_iff.mp hmethod).1
  · cases h

theorem exists_sanitize_of_id? {e : Entry} {keep : Bool} {id : String}
    (h : e.id? keep = some id) : ∃ s, id = Name.sanitize s := by
  rw [Entry.id?, Option.orElse_eq_orElse, Option.orElse_eq_or, Option.or_eq_some_iff] at h
  rcases h with h | ⟨_, h⟩
  · unfold declaredId? at h
    split at h
    · split at h
      · cases h
      · cases h
        exact ⟨_, rfl⟩
    · cases h
  · split at h
    · cases h
      exact ⟨_, rfl⟩
    · cases h

theorem nodup_statuses {d : Document} {responses : Table String Response}
    (h : (readResponses d).result = .ok responses) : (responses.map (·.1)).Nodup := by
  obtain ⟨rs, _, h⟩ := Run.bind_eq_ok.mp h
  cases h
  exact Table.nodup_keys_ofList rs

theorem hasNames_collect {d : Document} {keep : Bool} {ops : List Operation}
    (h : (collect d keep).result = .ok ops) : ∀ op ∈ ops, op.HasNames := by
  refine forall_of_forall₂_imp (p := (· ∈ accepted keep (entriesIn d))) ?_ fun _ ha => ha
  refine (forall₂_collect h).imp fun a op hop ha => ?_
  obtain ⟨hentry, hid⟩ := mem_accepted.mp ha
  obtain ⟨hop, _, hmethod, hparameters, _, hresponses⟩ := readEntry_eq_ok hop
  exact ⟨hop ▸ exists_sanitize_of_id? hid, hmethod ▸ isMethod_of_mem_entriesOf hentry,
    Parameter.typeName_of_readAll hparameters, nodup_statuses hresponses⟩

end Operation

end ApiTypes
