import ApiTypes.Proofs.Collected
import ApiTypes.Proofs.Groups
import ApiTypes.Proofs.JsonText
import ApiTypes.Proofs.Literal

/-!
# Malformed documents

A document of JSON becomes a module whatever stands at its places, with one exception: the name and the
location of a parameter are looked up as they stand, and a container that stands there ends the run.
`typings_isOk_iff` says which documents these are.
-/

namespace ApiTypes

namespace Document

theorem IsWritableJson.exists_entry {d : Document} (h : d.IsWritableJson)
    {x : Except WriteFault Operation.Entry} (hx : x ∈ Operation.entriesIn d) : ∃ e, x = .ok e := by
  rcases Operation.mem_entriesIn hx with ⟨fault, key, rfl, ⟨y, es, hy, hes, hkey⟩, hfault⟩ | ⟨e, rfl, _⟩
  · obtain ⟨e, he, rfl⟩ := List.mem_map.mp hkey
    obtain ⟨text, htext⟩ := (h.inside hy).exists_key_written hes he
    rw [htext] at hfault
    cases hfault
  · exact ⟨e, rfl⟩

/-! ## Looking up -/

theorem scalarToCompare_isOk_iff {d : Document} :
    (∃ s, d.scalarToCompare.result = .ok s) ↔ d.containerKind? = none := by
  unfold scalarToCompare
  split
  · rename_i kind hkind
    simp [hkind]
  · rename_i hkind
    refine iff_of_true ?_ hkind
    split
    · exact ⟨_, rfl⟩
    · exact ⟨_, rfl⟩

theorem scalarToCompare_eq_error {d : Document} {f : Failure}
    (h : d.scalarToCompare.result = .error f) : ∃ kind, f = .unhashable kind := by
  unfold scalarToCompare at h
  split at h
  · cases h
    exact ⟨_, rfl⟩
  · split at h
    · cases h
    · cases h

end Document

/-! ## Parameters -/

namespace Parameter

def IsComparable (p : Document) : Prop :=
  (p.field "name").containerKind? = none ∧ (p.field "in").containerKind? = none

/-- The location of a parameter can be looked up, if the parameter is read at all. -/
def IsPlaceable (p : Document) : Prop :=
  ∀ name ∈ p.fieldText? "name", hintEnding.toList.isSuffixOf name.toList = false →
    (p.field "in").containerKind? = none

/-- What the lists of a path item and an operation need so that their parameters can be read. Names
are looked up only where the path item has parameters. -/
def CanRead (shared own : Document) : Prop :=
  if (shared.items?.getD []).isEmpty then ∀ p ∈ own.items?.getD [], IsPlaceable p
  else ∀ p ∈ shared.items?.getD [] ++ own.items?.getD [], p.entries?.isSome = true → IsComparable p

instance (p : Document) : Decidable (IsComparable p) := inferInstanceAs (Decidable (_ ∧ _))

instance (p : Document) : Decidable (IsPlaceable p) :=
  inferInstanceAs (Decidable (∀ name ∈ p.fieldText? "name", _))

instance (shared own : Document) : Decidable (CanRead shared own) :=
  inferInstanceAs (Decidable (ite _ _ _))

theorem identity_isOk_iff {p : Document} :
    (∃ i, (identity p).result = .ok i) ↔ IsComparable p := by
  rw [IsComparable, ← Document.scalarToCompare_isOk_iff, ← Document.scalarToCompare_isOk_iff]
  constructor
  · rintro ⟨_, h⟩
    obtain ⟨name, hname, h⟩ := Run.bind_eq_ok.mp h
    obtain ⟨location, hlocation, _⟩ := Run.bind_eq_ok.mp h
    exact ⟨⟨name, hname⟩, location, hlocation⟩
  · rintro ⟨⟨name, hname⟩, location, hlocation⟩
    exact ⟨_, Run.bind_eq_ok.mpr ⟨name, hname, Run.bind_eq_ok.mpr ⟨location, hlocation, rfl⟩⟩⟩

theorem identities_isOk_iff {ps : List Document} :
    (∃ ids, (identities ps).result = .ok ids) ↔
      ∀ p ∈ ps, p.entries?.isSome = true → IsComparable p := by
  constructor
  · rintro ⟨ids, h⟩ p hp hmap
    obtain ⟨_, hstep⟩ := Run.exists_of_mapM_eq_ok h p (List.mem_filter.mpr ⟨hp, hmap⟩)
    obtain ⟨i, hi, _⟩ := Run.bind_eq_ok.mp hstep
    exact identity_isOk_iff.mp ⟨i, hi⟩
  · intro h
    apply Run.exists_mapM
    intro p hp
    obtain ⟨hp, hmap⟩ := List.mem_filter.mp hp
    obtain ⟨i, hi⟩ := identity_isOk_iff.mpr (h p hp hmap)
    exact ⟨_, Run.bind_eq_ok.mpr ⟨i, hi, rfl⟩⟩

theorem identities_eq_error {ps : List Document} {f : Failure}
    (h : (identities ps).result = .error f) : ∃ kind, f = .unhashable kind := by
  obtain ⟨p, _, h⟩ := Run.exists_of_mapM_eq_error h
  rcases Run.bind_eq_error.mp h with h | ⟨_, _, h⟩
  · rcases Run.bind_eq_error.mp h with h | ⟨_, _, h⟩
    · exact Document.scalarToCompare_eq_error h
    rcases Run.bind_eq_error.mp h with h | ⟨_, _, h⟩
    · exact Document.scalarToCompare_eq_error h
    · cases h
  · cases h

theorem location?_isOk_iff {p : Document} :
    (∃ l, (location? p).result = .ok l) ↔ (p.field "in").containerKind? = none := by
  unfold location? Document.field
  cases p.field? "in" with
  | none => exact iff_of_true ⟨_, rfl⟩ rfl
  | some l =>
    rw [Option.getD_some, ← Document.scalarToCompare_isOk_iff]
    constructor
    · rintro ⟨_, h⟩
      obtain ⟨s, hs, _⟩ := Run.bind_eq_ok.mp h
      exact ⟨s, hs⟩
    · rintro ⟨s, hs⟩
      exact ⟨_, Run.bind_eq_ok.mpr ⟨s, hs, rfl⟩⟩

theorem location?_eq_error {p : Document} {f : Failure} (h : (location? p).result = .error f) :
    ∃ kind, f = .unhashable kind := by
  unfold location? at h
  split at h
  · cases h
  · rcases Run.bind_eq_error.mp h with h | ⟨_, _, h⟩
    · exact Document.scalarToCompare_eq_error h
    · cases h

section
variable {p : Document} (hp : p.IsWritableJson)
include hp

theorem read_isOk_iff : (∃ q, (read p).result = .ok q) ↔ IsPlaceable p := by
  unfold read
  split
  · rename_i hname
    refine iff_of_true ⟨none, rfl⟩ fun name h => ?_
    rw [hname] at h
    cases h
  rename_i name hname
  split
  · rename_i hhint
    refine iff_of_true ⟨none, rfl⟩ fun name' h h' => ?_
    rw [hname] at h
    cases h
    rw [hhint] at h'
    cases h'
  rename_i hhint
  -- the type can always be built, so only the place decides
  have hplace : IsPlaceable p ↔ (p.field "in").containerKind? = none := by
    constructor
    · exact fun h => h name hname (Bool.eq_false_iff.mpr hhint)
    · exact fun h _ _ _ => h
  rw [hplace, ← location?_isOk_iff]
  constructor
  · rintro ⟨_, h⟩
    obtain ⟨l, hl, _⟩ := Run.bind_eq_ok.mp h
    exact ⟨l, hl⟩
  · rintro ⟨l, hl⟩
    obtain ⟨t, ht⟩ := (Document.hereditary_isWritableJson.field hp "schema").exists_typeOf
    cases l with
    | none => exact ⟨none, Run.bind_eq_ok.mpr ⟨none, hl, rfl⟩⟩
    | some l =>
      exact ⟨_, Run.bind_eq_ok.mpr ⟨some l, hl, Run.bind_eq_ok.mpr ⟨t, ht, rfl⟩⟩⟩

theorem read_eq_error {f : Failure} (h : (read p).result = .error f) :
    ∃ kind, f = .unhashable kind := by
  obtain ⟨t, ht⟩ := (Document.hereditary_isWritableJson.field hp "schema").exists_typeOf
  unfold read at h
  split at h
  · cases h
  split at h
  · cases h
  rcases Run.bind_eq_error.mp h with h | ⟨l, _, h⟩
  · exact location?_eq_error h
  cases l with
  | none => cases h
  | some l =>
    rcases Run.bind_eq_error.mp h with h | ⟨_, _, h⟩
    · rw [ht] at h
      cases h
    · cases h

end

theorem isPlaceable_of_isComparable {p : Document}
    (h : p.entries?.isSome = true → IsComparable p) : IsPlaceable p := by
  intro name (hname : p.fieldText? "name" = some name) _
  cases hes : p.entries? with
  | some es =>
    rw [hes] at h
    exact (h rfl).2
  | none =>
    rw [Document.fieldText?, Document.field, Document.field?_of_entries?_eq_none hes] at hname
    cases hname

section
variable {shared own : Document}

theorem merge_isOk_iff (hne : shared.items?.getD [] ≠ []) :
    (∃ ps, (merge shared own).result = .ok ps) ↔
      ∀ p ∈ shared.items?.getD [] ++ own.items?.getD [],
        p.entries?.isSome = true → IsComparable p := by
  obtain ⟨inherited, h⟩ : ∃ inherited, shared.items? = some inherited := by
    cases hs : shared.items? with
    | none => exact absurd (by rw [hs]; rfl) hne
    | some inherited => exact ⟨inherited, rfl⟩
  rw [h, Option.getD_some] at hne ⊢
  -- with something inherited, both lists are compared by identity
  have hmerge : ∀ {ps : List Document}, (merge shared own).result = .ok ps ↔
      ∃ declared, (identities (own.items?.getD [])).result = .ok declared ∧
        ∃ ids, (identities inherited).result = .ok ids ∧
          (ids.filter fun p => !declared.any fun q => sameIdentity p.2 q.2).map (·.1) ++
            own.items?.getD [] = ps := by
    intro ps
    unfold merge
    rw [h]
    cases inherited with
    | nil => exact absurd rfl hne
    | cons p inherited =>
      dsimp only
      constructor
      · intro hps
        obtain ⟨declared, hdeclared, hps⟩ := Run.bind_eq_ok.mp hps
        obtain ⟨ids, hids, hps⟩ := Run.bind_eq_ok.mp hps
        cases hps
        exact ⟨declared, hdeclared, ids, hids, rfl⟩
      · rintro ⟨declared, hdeclared, ids, hids, rfl⟩
        exact Run.bind_eq_ok.mpr ⟨declared, hdeclared, Run.bind_eq_ok.mpr ⟨ids, hids, rfl⟩⟩
  simp only [List.forall_mem_append, ← identities_isOk_iff, hmerge]
  constructor
  · rintro ⟨ps, declared, hdeclared, ids, hids, _⟩
    exact ⟨⟨ids, hids⟩, declared, hdeclared⟩
  · rintro ⟨⟨ids, hids⟩, declared, hdeclared⟩
    exact ⟨_, declared, hdeclared, ids, hids, rfl⟩

theorem merge_eq_error {f : Failure} (h : (merge shared own).result = .error f) :
    ∃ kind, f = .unhashable kind := by
  unfold merge at h
  split at h
  · cases h
  · cases h
  · rcases Run.bind_eq_error.mp h with h | ⟨_, _, h⟩
    · exact identities_eq_error h
    rcases Run.bind_eq_error.mp h with h | ⟨_, _, h⟩
    · exact identities_eq_error h
    · cases h

theorem merge_own (h : shared.items?.getD [] = []) :
    merge shared own = pure (own.items?.getD []) := by
  unfold merge
  cases hs : shared.items? with
  | none => rfl
  | some inherited =>
    rw [hs, Option.getD_some] at h
    rw [h]

variable (hshared : shared.IsWritableJson) (hown : own.IsWritableJson)
include hshared hown

theorem isWritableJson_merge {ps : List Document} (h : (merge shared own).result = .ok ps) :
    ∀ p ∈ ps, p.IsWritableJson :=
  have hitems := @Document.hereditary_isWritableJson.of_mem_items
  fun p hp => (mem_merge h p hp).elim (hitems hshared p) (hitems hown p)

theorem readAll_isOk_iff : (∃ ps, (readAll shared own).result = .ok ps) ↔ CanRead shared own := by
  have hread : ∀ {ps : List Document}, (merge shared own).result = .ok ps →
      ((∃ qs, (ps.mapM read).result = .ok qs) ↔ ∀ p ∈ ps, IsPlaceable p) := by
    intro ps hps
    have hjson := isWritableJson_merge hshared hown hps
    constructor
    · rintro ⟨qs, hqs⟩ p hp
      exact (read_isOk_iff (hjson p hp)).mp (Run.exists_of_mapM_eq_ok hqs p hp)
    · exact fun h => Run.exists_mapM fun p hp => (read_isOk_iff (hjson p hp)).mpr (h p hp)
  -- reading all is merging first and placing each parameter then
  have hall : (∃ ps, (readAll shared own).result = .ok ps) ↔
      ∃ ps, (merge shared own).result = .ok ps ∧ ∀ p ∈ ps, IsPlaceable p := by
    constructor
    · rintro ⟨_, h⟩
      obtain ⟨ps, hps, h⟩ := Run.bind_eq_ok.mp h
      obtain ⟨qs, hqs, _⟩ := Run.bind_eq_ok.mp h
      exact ⟨ps, hps, (hread hps).mp ⟨qs, hqs⟩⟩
    · rintro ⟨ps, hps, h⟩
      obtain ⟨qs, hqs⟩ := (hread hps).mpr h
      exact ⟨_, Run.bind_eq_ok.mpr ⟨ps, hps, Run.bind_eq_ok.mpr ⟨qs, hqs, rfl⟩⟩⟩
  rw [hall, CanRead]
  by_cases hnil : shared.items?.getD [] = []
  · rw [merge_own hnil, if_pos (List.isEmpty_iff.mpr hnil)]
    constructor
    · rintro ⟨ps, hps, h⟩
      cases hps
      exact h
    · exact fun h => ⟨_, rfl, h⟩
  · rw [if_neg (mt List.isEmpty_iff.mp hnil), ← merge_isOk_iff hnil]
    constructor
    · exact fun ⟨ps, hps, _⟩ => ⟨ps, hps⟩
    · rintro ⟨ps, hps⟩
      -- what can be compared can be placed
      have hcomparable := (merge_isOk_iff hnil).mp ⟨ps, hps⟩
      exact ⟨ps, hps, fun p hp => isPlaceable_of_isComparable
        (hcomparable p (List.mem_append.mpr (mem_merge hps p hp)))⟩

theorem readAll_eq_error {f : Failure} (h : (readAll shared own).result = .error f) :
    ∃ kind, f = .unhashable kind := by
  rcases Run.bind_eq_error.mp h with h | ⟨ps, hps, h⟩
  · exact merge_eq_error h
  rcases Run.bind_eq_error.mp h with h | ⟨_, _, h⟩
  · obtain ⟨p, hp, h⟩ := Run.exists_of_mapM_eq_error h
    exact read_eq_error (isWritableJson_merge hshared hown hps p hp) h
  · cases h

end

end Parameter

/-! ## Operations -/

namespace Operation

section
variable {d : Document} (hd : d.IsWritableJson)
include hd

theorem exists_readSummary (id : String) : ∃ s, (readSummary id d).result = .ok s := by
  obtain ⟨s, hs⟩ := hd.exists_written
  unfold readSummary
  split
  · exact ⟨_, Run.bind_eq_ok.mpr ⟨s, Run.ofWritten_eq_ok.mpr hs, rfl⟩⟩
  · exact ⟨id, rfl⟩

theorem exists_readBody : ∃ b, (readBody d).result = .ok b := by
  have hcontent := Document.hereditary_isWritableJson.field hd "content"
  unfold readBody
  split
  · rename_i contentType media rest hentries
    have hmem : (contentType, media) ∈ (contentType, media) :: rest := List.mem_cons_self
    obtain ⟨key, hkey⟩ := hcontent.exists_key_written hentries hmem
    have hmedia := Document.hereditary_isWritableJson.entries hcontent hentries _ hmem
    obtain ⟨t, ht⟩ := (Document.hereditary_isWritableJson.field hmedia "schema").exists_typeOf
    exact ⟨_, Run.bind_eq_ok.mpr ⟨key, Run.ofWritten_eq_ok.mpr hkey,
      Run.bind_eq_ok.mpr ⟨t, ht, rfl⟩⟩⟩
  · exact ⟨none, rfl⟩

theorem exists_readContent : ∃ c, (readContent d).result = .ok c := by
  unfold readContent
  split
  · exact ⟨none, rfl⟩
  · rename_i entries hentries
    have hmedia : ∀ e ∈ entries.filter fun e => e.2.entries?.isSome, ∃ m, (do
        pure (← Run.ofWritten e.1.written, readMedia e.2) : Run (String × Media)).result = .ok m := by
      intro e he
      obtain ⟨key, hkey⟩ := hd.exists_key_written hentries (List.mem_filter.mp he).1
      exact ⟨_, Run.bind_eq_ok.mpr ⟨key, Run.ofWritten_eq_ok.mpr hkey, rfl⟩⟩
    obtain ⟨media, hmedia⟩ := Run.exists_mapM hmedia
    exact ⟨_, Run.bind_eq_ok.mpr ⟨media, hmedia, rfl⟩⟩

theorem exists_readResponses : ∃ rs, (readResponses d).result = .ok rs := by
  have hresponse : ∀ e ∈ d.entries?.getD [], ∃ r, (do
      let response ← readResponse e.2
      pure (← Run.ofWritten e.1.written, response) : Run (String × Response)).result = .ok r := by
    intro e he
    obtain ⟨es, hes, he⟩ := Document.exists_of_mem_getD he
    obtain ⟨key, hkey⟩ := hd.exists_key_written hes he
    have he' := Document.hereditary_isWritableJson.entries hd hes e he
    obtain ⟨c, hc⟩ :=
      exists_readContent (Document.hereditary_isWritableJson.field he' "content")
    have hresponse : (readResponse e.2).result =
        .ok ⟨e.2.fieldText? "description", e.2.field "headers", c⟩ :=
      Run.bind_eq_ok.mpr ⟨c, hc, rfl⟩
    exact ⟨_, Run.bind_eq_ok.mpr ⟨_, hresponse,
      Run.bind_eq_ok.mpr ⟨key, Run.ofWritten_eq_ok.mpr hkey, rfl⟩⟩⟩
  obtain ⟨rs, hrs⟩ := Run.exists_mapM hresponse
  exact ⟨_, Run.bind_eq_ok.mpr ⟨rs, hrs, rfl⟩⟩

variable {shared : Document} (hshared : shared.IsWritableJson)
include hshared

theorem read_isOk_iff (id path method : String) :
    (∃ op, (read id path method d shared).result = .ok op) ↔
      Parameter.CanRead shared (d.field "parameters") := by
  have hfield := Document.hereditary_isWritableJson.field hd
  rw [← Parameter.readAll_isOk_iff hshared (hfield _)]
  constructor
  · rintro ⟨_, h⟩
    obtain ⟨_, _, h⟩ := Run.bind_eq_ok.mp h
    obtain ⟨ps, hps, _⟩ := Run.bind_eq_ok.mp h
    exact ⟨ps, hps⟩
  · rintro ⟨ps, hps⟩
    obtain ⟨summary, hsummary⟩ := exists_readSummary (hfield "summary") id
    obtain ⟨body, hbody⟩ := exists_readBody (hfield "requestBody")
    obtain ⟨responses, hresponses⟩ := exists_readResponses (hfield "responses")
    exact ⟨_, Run.bind_eq_ok.mpr ⟨summary, hsummary, Run.bind_eq_ok.mpr ⟨ps, hps,
      Run.bind_eq_ok.mpr ⟨body, hbody, Run.bind_eq_ok.mpr ⟨responses, hresponses, rfl⟩⟩⟩⟩⟩

theorem read_eq_error {id path method : String} {f : Failure}
    (h : (read id path method d shared).result = .error f) : ∃ kind, f = .unhashable kind := by
  have hfield := Document.hereditary_isWritableJson.field hd
  have hnone : ∀ {α : Type} {x : Run α}, (∃ a, x.result = .ok a) → x.result ≠ .error f := by
    rintro α x ⟨a, ha⟩ hx
    rw [ha] at hx
    cases hx
  rcases Run.bind_eq_error.mp h with h | ⟨_, _, h⟩
  · exact absurd h (hnone (exists_readSummary (hfield _) id))
  rcases Run.bind_eq_error.mp h with h | ⟨_, _, h⟩
  · exact Parameter.readAll_eq_error hshared (hfield _) h
  rcases Run.bind_eq_error.mp h with h | ⟨_, _, h⟩
  · exact absurd h (hnone (exists_readBody (hfield _)))
  rcases Run.bind_eq_error.mp h with h | ⟨_, _, h⟩
  · exact absurd h (hnone (exists_readResponses (hfield _)))
  · cases h

end

theorem collect_isOk_iff {d : Document} (hd : d.IsWritableJson)
    (haccepted : DocumentFault.of? d = none) (keep : Bool) :
    (∃ ops, (collect d keep).result = .ok ops) ↔ ∀ a ∈ accepted keep (entriesIn d),
      Parameter.CanRead (a.2.item.field "parameters") (a.2.operation.field "parameters") := by
  have hentry : ∀ a ∈ accepted keep (entriesIn d), (∃ op, (readEntry a).result = .ok op) ↔
      Parameter.CanRead (a.2.item.field "parameters") (a.2.operation.field "parameters") := by
    intro a ha
    obtain ⟨hitem, hoperation⟩ := inside_of_mem_accepted ha
    have hshared := Document.hereditary_isWritableJson.field (hd.inside hitem) "parameters"
    exact read_isOk_iff (hd.inside hoperation) hshared _ _ _
  rw [collect_eq haccepted]
  simp only [readEntries_eq_ok]
  constructor
  · rintro ⟨ops, _, hreads⟩ a ha
    have hread : ((accepted keep (entriesIn d)).mapM readEntry).result = .ok ops :=
      Run.mapM_eq_ok.mpr hreads
    exact (hentry a ha).mp (Run.exists_of_mapM_eq_ok hread a ha)
  · intro h
    obtain ⟨ops, hops⟩ := Run.exists_mapM fun a ha => (hentry a ha).mpr (h a ha)
    exact ⟨ops, fun x hx => hd.exists_entry hx, Run.mapM_eq_ok.mp hops⟩

theorem collect_eq_error {d : Document} (hd : d.IsWritableJson)
    (haccepted : DocumentFault.of? d = none) {keep : Bool} {f : Failure}
    (h : (collect d keep).result = .error f) : ∃ kind, f = .unhashable kind := by
  rw [collect_eq haccepted] at h
  rcases readEntries_eq_error h with ⟨fault, hfault⟩ | ⟨a, ha, h⟩
  · obtain ⟨e, he⟩ := hd.exists_entry hfault
    cases he
  · obtain ⟨hitem, hoperation⟩ := inside_of_mem_accepted ha
    have hshared := Document.hereditary_isWritableJson.field (hd.inside hitem) "parameters"
    exact read_eq_error (hd.inside hoperation) hshared h

/-! ## Texts of operations -/

theorem mem_allParameters {op : Operation} {p : Parameter} :
    p ∈ op.allParameters ↔ p ∈ op.parameters := by
  refine ⟨mem_of_mem_allParameters, fun hp => List.mem_flatMap.mpr ⟨p.location, ?_, ?_⟩⟩
  · cases p.location <;> decide
  · exact List.mem_filter.mpr ⟨hp, beq_self_eq_true _⟩

theorem responseAlias_isOk_iff {status : String} {r : Response} :
    (∃ a, (responseAlias status r).result = .ok a) ↔
      ∀ m ∈ r.content.getD [], ∃ s, (mediaText m.2).result = .ok s := by
  constructor
  · rintro ⟨a, h⟩
    obtain ⟨texts, htexts, _⟩ := Run.bind_eq_ok.mp h
    exact Run.exists_of_mapM_eq_ok htexts
  · intro h
    obtain ⟨texts, htexts⟩ := Run.exists_mapM h
    exact ⟨_, Run.bind_eq_ok.mpr ⟨texts, htexts, rfl⟩⟩

theorem pathNamespace_isOk_iff {op : Operation} : (∃ s, (pathNamespace op).result = .ok s) ↔
    (∀ p ∈ op.parameters, p.type.declaredFault? = none) ∧
      (∀ b ∈ op.body, b.type.declaredFault? = none) ∧
      ∀ r ∈ op.responses, ∀ m ∈ r.2.content.getD [], ∃ s, (mediaText m.2).result = .ok s := by
  -- a text is written unless it has a fault
  have hwritten : ∀ {α : Type} {fault : Option WriteFault} {a : α},
      (∃ b, (Run.written fault a).result = .ok b) ↔ fault = none := by
    intro α fault a
    cases fault with
    | none => exact iff_of_true ⟨a, rfl⟩ rfl
    | some f => exact iff_of_false (fun ⟨_, h⟩ => nomatch h) nofun
  have hparameters : (op.allParameters.findSome? fun p => p.type.declaredFault?) = none ↔
      ∀ p ∈ op.parameters, p.type.declaredFault? = none := by
    simp only [List.findSome?_eq_none_iff, mem_allParameters]
  have hbody : (op.body.bind fun b => b.type.declaredFault?) = none ↔
      ∀ b ∈ op.body, b.type.declaredFault? = none := by
    cases op.body <;> simp
  have hresponses : (∀ r ∈ op.responses, ∃ a, (responseAlias r.1 r.2).result = .ok a) ↔
      ∀ r ∈ op.responses, ∀ m ∈ r.2.content.getD [], ∃ s, (mediaText m.2).result = .ok s :=
    forall₂_congr fun _ _ => responseAlias_isOk_iff
  rw [← hparameters, ← hbody, ← hresponses]
  constructor
  · rintro ⟨_, h⟩
    obtain ⟨aliases, haliases, h⟩ := Run.bind_eq_ok.mp h
    obtain ⟨body, hbody, h⟩ := Run.bind_eq_ok.mp h
    obtain ⟨responses, hresponses, _⟩ := Run.bind_eq_ok.mp h
    exact ⟨hwritten.mp ⟨_, haliases⟩, hwritten.mp ⟨_, hbody⟩,
      fun r hr => Run.exists_of_mapM_eq_ok hresponses r hr⟩
  · rintro ⟨hparameters, hbody, hresponses⟩
    obtain ⟨responses, hresponses⟩ := Run.exists_mapM hresponses
    unfold pathNamespace
    dsimp only
    rw [hparameters, hbody]
    exact ⟨_, Run.bind_eq_ok.mpr ⟨_, rfl, Run.bind_eq_ok.mpr ⟨_, rfl,
      Run.bind_eq_ok.mpr ⟨responses, hresponses, rfl⟩⟩⟩⟩

theorem exists_mediaText {m : Media} (h : m.schema.IsWritableJson) :
    ∃ s, (mediaText m).result = .ok s := by
  obtain ⟨t, ht, hwritable⟩ : ∃ t, (mediaType m).result = .ok t ∧ t.declaredFault? = none := by
    unfold mediaType
    split
    · exact ⟨_, rfl, rfl⟩
    · obtain ⟨t, ht⟩ := h.exists_typeOf
      exact ⟨t, ht, (h.writable_typeOf ht).declared⟩
  exact ⟨t.declared, Run.bind_eq_ok.mpr ⟨t, ht, by rw [hwritable]; rfl⟩⟩

theorem exists_pathNamespace {op : Operation} (hop : op.TakenFrom Document.IsWritableJson) :
    ∃ s, (pathNamespace op).result = .ok s := by
  refine pathNamespace_isOk_iff.mpr ⟨fun p hp => ?_, fun b hb => ?_, fun r hr m hm => ?_⟩
  · obtain ⟨s, hs, ht⟩ := hop.parameter p hp
    exact (hs.writable_typeOf ht).declared
  · obtain ⟨s, hs, ht⟩ := hop.body b hb
    exact (hs.writable_typeOf ht).declared
  · exact exists_mediaText (hop.media r hr m hm)

end Operation

/-! ## Modules -/

namespace Component

theorem exists_collect {components : Document} (h : components.IsWritableJson) :
    ∃ cs, (collect components).result = .ok cs := by
  have hschemas := Document.hereditary_isWritableJson.field h "schemas"
  cases hes : (components.field "schemas").entries? with
  | none =>
    rw [collect, hes]
    exact ⟨[], rfl⟩
  | some es =>
    rw [collect, hes]
    refine exists_readEntries (fun e he => hschemas.exists_key_written hes he) fun e he => ?_
    exact (Document.hereditary_isWritableJson.entries hschemas hes e he).exists_typeOf

end Component

namespace Api

theorem exists_typings {api : Api} (hcomponents : ∀ c ∈ api.components, c.type.Writable)
    (hoperations : ∀ op ∈ api.operations, op.TakenFrom Document.IsWritableJson)
    (validators : Bool) : ∃ text, (api.typings validators).result = .ok text := by
  have hdeclared : (api.components.findSome? fun c => c.type.declaredFault?) = none := by
    rw [List.findSome?_eq_none_iff]
    exact fun c hc => (hcomponents c hc).declared
  have hvalidators : Component.validatorsFault? api.components = none := by
    rw [Component.validatorsFault?, List.findSome?_eq_none_iff]
    intro c hc
    obtain ⟨g, hg, hc⟩ := List.mem_flatten.mp hc
    exact (hcomponents c (Component.mem_of_mem_groups hg hc)).validator
  have hfault : Component.declarationsFault? api.components validators = none := by
    rw [Component.declarationsFault?, hdeclared, hvalidators, ite_self]
    rfl
  obtain ⟨parts, hparts⟩ := Run.exists_mapM fun op hop =>
    Operation.exists_pathNamespace (hoperations op (Operation.mem_of_mem_lastPerId hop))
  unfold typings
  rw [hfault]
  exact ⟨_, Run.bind_eq_ok.mpr ⟨(), rfl, Run.bind_eq_ok.mpr ⟨_, rfl,
    Run.bind_eq_ok.mpr ⟨_, Run.bind_eq_ok.mpr ⟨parts, hparts, rfl⟩, rfl⟩⟩⟩⟩

end Api

section
variable {d : Document} (hd : d.IsWritableJson) (haccepted : DocumentFault.of? d = none)
include hd haccepted

theorem Api.exists_read {keep : Bool} {ops : List Operation}
    (hops : (Operation.collect d keep).result = .ok ops) : ∃ cs,
      (Api.read d keep).result = .ok ⟨cs, ops⟩ ∧ ∀ c ∈ cs, c.type.Writable := by
  have hcomponents := Document.hereditary_isWritableJson.field hd "components"
  obtain ⟨cs, hcs⟩ := Component.exists_collect hcomponents
  refine ⟨cs, Api.read_eq_ok.mpr ⟨haccepted, hops, hcs⟩, fun c hc => ?_⟩
  obtain ⟨s, hs, ht⟩ := Component.exists_schema_of_collect Document.hereditary_isWritableJson
    hcs hcomponents c hc
  exact hs.writable_typeOf ht

/-- A document of JSON that is accepted becomes a module if and only if no container stands where a
parameter is looked up, and nothing else ends the run. -/
theorem typings_isOk_iff (options : Options) :
    ((∃ text, (typings d options).result = .ok text) ↔
      ∀ a ∈ Operation.accepted options.keep (Operation.entriesIn d),
        Parameter.CanRead (a.2.item.field "parameters") (a.2.operation.field "parameters")) ∧
    ∀ f, (typings d options).result = .error f → ∃ kind, f = .unhashable kind := by
  have htext : ∀ ops, (Operation.collect d options.keep).result = .ok ops →
      ∃ text, (typings d options).result = .ok text := by
    intro ops hops
    obtain ⟨cs, hread, hwritable⟩ := Api.exists_read hd haccepted hops
    have htaken := Operation.takenFrom_collect Document.hereditary_isWritableJson hops
      fun x hx => hd.inside hx
    obtain ⟨text, htext⟩ := @Api.exists_typings ⟨cs, ops⟩ hwritable htaken options.validators
    exact ⟨text, Run.bind_eq_ok.mpr ⟨_, hread, htext⟩⟩
  constructor
  · rw [← Operation.collect_isOk_iff hd haccepted]
    constructor
    · rintro ⟨text, h⟩
      obtain ⟨api, hread, _⟩ := Run.bind_eq_ok.mp h
      exact ⟨api.operations, (Api.read_eq_ok.mp hread).2.1⟩
    · exact fun ⟨ops, hops⟩ => htext ops hops
  · intro f h
    rcases Run.exists_ok_or_error (Operation.collect d options.keep) with ⟨ops, hops⟩ | ⟨e, he⟩
    · obtain ⟨text, htext⟩ := htext ops hops
      rw [htext] at h
      cases h
    · have hread : (typings d options).result = .error e := by
        refine Run.bind_eq_error.mpr (.inl ?_)
        unfold Api.read
        rw [haccepted]
        exact Run.bind_eq_error.mpr (.inl he)
      rw [hread] at h
      cases h
      exact Operation.collect_eq_error hd haccepted he

end

def malformedDocument : Document :=
  .ofValue (.map [(.text "paths", .map [(.text "/owners", .null), (.text "/pets", .map [
    (.text "parameters", .seq [.scalar (.bool true), .map [(.text "in", .scalar (.text "query"))]]),
    (.text "get", .map [(.text "operationId", .scalar (.text "listPets")),
      (.text "parameters", .map []), (.text "requestBody", .seq []),
      (.text "responses", .map [(.text "200", .scalar (.bool true))])])])])])

theorem typings_isOk_malformed : malformedDocument.IsWritableJson ∧
    DocumentFault.of? malformedDocument = none ∧
    ∃ text, (typings malformedDocument ⟨true, true⟩).result = .ok text := by
  have hjson : malformedDocument.IsWritableJson := by decide
  have haccepted : DocumentFault.of? malformedDocument = none := rfl
  refine ⟨hjson, haccepted, (typings_isOk_iff hjson haccepted _).1.mpr ?_⟩
  decide +kernel

def placelessDocument : Document :=
  .ofValue (.map [(.text "paths", .map [(.text "/pets", .map [(.text "get", .map [
    (.text "operationId", .scalar (.text "listPets")),
    (.text "parameters", .seq [.map [(.text "name", .scalar (.text "limit")),
      (.text "in", .seq [])]])])])])])

theorem typings_placeless : placelessDocument.IsWritableJson ∧
    DocumentFault.of? placelessDocument = none ∧
    ∀ text, (typings placelessDocument ⟨false, false⟩).result ≠ .ok text := by
  have hjson : placelessDocument.IsWritableJson := by decide
  have haccepted : DocumentFault.of? placelessDocument = none := rfl
  refine ⟨hjson, haccepted, fun text h => ?_⟩
  obtain ⟨api, hread, _⟩ := Run.bind_eq_ok.mp h
  have hcan := (Operation.collect_isOk_iff hjson haccepted false).mp
    ⟨api.operations, (Api.read_eq_ok.mp hread).2.1⟩
  exact absurd hcan (by decide +kernel)

end ApiTypes
