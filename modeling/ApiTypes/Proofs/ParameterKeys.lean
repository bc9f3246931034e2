import ApiTypes.Proofs.Collected

/-!
# Keys of parameters

A parameter is passed under a name at a location. The own parameters of an operation replace those of the
path item that are written alike, so one that leaves its location out replaces no parameter of the query
that says so, and both are passed under one key.
-/

namespace ApiTypes

/-! ## Scalars that are compared -/

theorem Document.text?_of_scalarToCompare {d : Document} {s : Scalar}
    (h : d.scalarToCompare.result = .ok s) : s.text? = d.text? := by
  unfold scalarToCompare at h
  split at h
  · cases h
  rw [text?]
  split at h
  · rename_i t hv
    cases h
    rw [hv]
    rfl
  · rename_i hnot
    cases h
    generalize d.value = v at hnot
    cases v with
    | scalar t => exact absurd rfl (hnot t)
    | _ => rfl

theorem Document.scalarToCompare_of_text? {d : Document} {text : String} (h : d.text? = some text) :
    d.scalarToCompare.result = .ok (.text text) := by
  have hv : d.value = .scalar (.text text) := by
    rw [text?] at h
    generalize d.value = v at h
    cases v with
    | scalar s =>
      cases s with
      | text t =>
        cases h
        rfl
      | _ => cases h
    | _ => cases h
  have hkind : d.containerKind? = none := by rw [containerKind?, hv]
  unfold scalarToCompare
  rw [hkind]
  dsimp only
  rw [hv]
  rfl

theorem Location.name_of_ofName? {s : String} {l : Location} (h : ofName? s = some l) :
    l.name = s := by
  have hname := List.find?_some h
  exact eq_of_beq hname

namespace Parameter

/-! ## Keys -/

/-- What a parameter is passed under. One without a name or a known location is not read, nor is one
that speaks to tools. -/
def key? (p : Document) : Option (String × Location) :=
  match p.fieldText? "name", (location? p).result with
  | some name, .ok (some l) =>
    if hintEnding.toList.isSuffixOf name.toList then none else some (name, l)
  | _, _ => none

def key (p : Parameter) : String × Location := (p.name, p.location)

theorem key?_of_read {p : Document} {q : Option Parameter} (h : (read p).result = .ok q) :
    q.map key = key? p := by
  unfold read at h
  unfold key?
  split at h
  · rename_i hname
    rw [hname]
    obtain ⟨_, _, h⟩ := Run.bind_eq_ok.mp h
    cases h
    rfl
  rename_i name hname
  rw [hname]
  split at h
  -- a hint is left out before its place is looked at
  · rename_i hhint
    cases h
    split
    · rename_i heq _
      cases heq
      rw [if_pos hhint]
      rfl
    · rfl
  rename_i hhint
  obtain ⟨l, hl, h⟩ := Run.bind_eq_ok.mp h
  rw [hl]
  cases l with
  | none =>
    cases h
    rfl
  | some l =>
    obtain ⟨type, _, h⟩ := Run.bind_eq_ok.mp h
    cases h
    dsimp only
    rw [if_neg hhint]
    rfl

theorem keys_of_reads {ps : List Document} {qs : List (Option Parameter)}
    (h : List.Forall₂ (fun p q => (read p).result = .ok q) ps qs) :
    (qs.filterMap id).map key = ps.filterMap key? := by
  rw [List.map_filterMap]
  exact (filterMap_congr_forall₂ (h.imp fun _ _ hq => (key?_of_read hq).symm)).symm

theorem exists_of_key? {p : Document} {k : String × Location} (h : key? p = some k) :
    p.fieldText? "name" = some k.1 ∧ (location? p).result = .ok (some k.2) := by
  unfold key? at h
  split at h
  · rename_i hname hlocation
    split at h
    · cases h
    · cases h
      exact ⟨hname, hlocation⟩
  · cases h

theorem entries?_of_key? {p : Document} {k : String × Location} (h : key? p = some k) :
    p.entries?.isSome = true := by
  cases hes : p.entries? with
  | some es => rfl
  | none =>
    have hname := (exists_of_key? h).1
    rw [Document.fieldText?, Document.field, Document.field?_of_entries?_eq_none hes] at hname
    cases hname

/-! ## Replacing -/

theorem identity_of_key? {p : Document} {k : String × Location} (h : key? p = some k) :
    (identity p).result =
      .ok (.text k.1, if (p.field? "in").isSome then .text k.2.name else .null) := by
  obtain ⟨hname, hlocation⟩ := exists_of_key? h
  refine Run.bind_eq_ok.mpr ⟨_, Document.scalarToCompare_of_text? hname, ?_⟩
  unfold location? at hlocation
  rw [Document.field]
  cases hin : p.field? "in" with
  | none => rfl
  | some l =>
    rw [hin] at hlocation
    obtain ⟨s, hs, hlocation⟩ := Run.bind_eq_ok.mp hlocation
    cases htext : s.text? with
    | none =>
      rw [htext] at hlocation
      cases hlocation
    | some text =>
      rw [htext] at hlocation
      have hname : k.2.name = text := Location.name_of_ofName? (Except.ok.inj hlocation)
      have hl := (Document.text?_of_scalarToCompare hs).symm.trans htext
      rw [hname]
      exact Run.bind_eq_ok.mpr ⟨_, Document.scalarToCompare_of_text? hl, rfl⟩

/-- Of two parameters with one key, one replaces the other if both say where they are passed or none
does. -/
theorem replaces_iff {p q : Document} {k : String × Location} (hp : key? p = some k)
    (hq : key? q = some k) :
    replaces q p = true ↔ ((p.field? "in").isSome ↔ (q.field? "in").isSome) := by
  rw [replaces, identity_of_key? hp, identity_of_key? hq]
  -- the names agree, so the keys are told apart by what stands for the location
  cases (p.field? "in").isSome <;> cases (q.field? "in").isSome <;>
    simp [sameIdentity, Scalar.sameKey, Scalar.integer?]

/-! ## Distinct keys -/

/-- Each list by itself has no key twice, and a parameter of the path item that is kept says where it is
passed just as an own one with its key does. -/
structure Apart (shared own : Document) : Prop where
  declared : ((own.items?.getD []).filterMap key?).Nodup
  kept : ((unreplaced shared own).filterMap key?).Nodup
  between : ∀ p ∈ unreplaced shared own, ∀ q ∈ own.items?.getD [], ∀ k ∈ key? p, k ∈ key? q →
    ((p.field? "in").isSome ↔ (q.field? "in").isSome)

instance (shared own : Document) : Decidable (Apart shared own) :=
  decidable_of_iff (_ ∧ _ ∧ _) ⟨fun h => ⟨h.1, h.2.1, h.2.2⟩, fun h => ⟨h.1, h.2, h.3⟩⟩

theorem replaces_eq_false {shared own p q : Document} (hp : p ∈ unreplaced shared own)
    (hq : q ∈ own.items?.getD []) {k : String × Location} (hk : key? q = some k) :
    replaces q p = false := by
  obtain ⟨_, hnone⟩ := List.mem_filter.mp hp
  rw [Bool.not_eq_true', List.any_eq_false] at hnone
  exact Bool.eq_false_iff.mpr (hnone q (List.mem_filter.mpr ⟨hq, entries?_of_key? hk⟩))

theorem nodup_keys_readAll_iff {shared own : Document} {ps : List Parameter}
    (h : (readAll shared own).result = .ok ps) : (ps.map key).Nodup ↔ Apart shared own := by
  obtain ⟨merged, hmerged, h⟩ := Run.bind_eq_ok.mp h
  obtain ⟨read, hread, h⟩ := Run.bind_eq_ok.mp h
  cases h
  rw [keys_of_reads (Run.mapM_eq_ok.mp hread), merge_eq hmerged, List.filterMap_append,
    List.nodup_append]
  constructor
  · rintro ⟨hkept, hown, hbetween⟩
    refine ⟨hown, hkept, fun p hp q hq k hpk hqk => ?_⟩
    exact absurd rfl (hbetween k (List.mem_filterMap.mpr ⟨p, hp, hpk⟩) k
      (List.mem_filterMap.mpr ⟨q, hq, hqk⟩))
  · rintro ⟨hown, hkept, hbetween⟩
    refine ⟨hkept, hown, fun k hk k' hk' heq => ?_⟩
    subst heq
    obtain ⟨p, hp, hpk⟩ := List.mem_filterMap.mp hk
    obtain ⟨q, hq, hqk⟩ := List.mem_filterMap.mp hk'
    have hreplaces := (replaces_iff hpk hqk).mpr (hbetween p hp q hq k hpk hqk)
    rw [replaces_eq_false hp hq hqk] at hreplaces
    cases hreplaces

end Parameter

end ApiTypes
