import ApiTypes.Typings
import ApiTypes.Proofs.Inside
import ApiTypes.Proofs.Run

/-!
# Operations of a document

Which entries of a document become operations, and where the schemas of an operation stand.
-/

namespace ApiTypes

namespace Operation

theorem mem_of_mem_parametersAt {op : Operation} {l : Location} {p : Parameter}
    (h : p ∈ op.parametersAt l) : p ∈ op.parameters := (List.mem_filter.mp h).1

theorem mem_of_mem_allParameters {op : Operation} {p : Parameter} (h : p ∈ op.allParameters) :
    p ∈ op.parameters := by
  obtain ⟨l, _, hp⟩ := List.mem_flatMap.mp h
  exact mem_of_mem_parametersAt hp

/-! ## Operations with one id -/

theorem mem_of_mem_lastPerId {ops : List Operation} {op : Operation} (h : op ∈ lastPerId ops) :
    op ∈ ops := by
  obtain ⟨e, he, rfl⟩ := List.mem_map.mp h
  exact (Table.mem_ofList_self _ _ e he).2

theorem nodup_ids_lastPerId (ops : List Operation) : ((lastPerId ops).map (·.id)).Nodup :=
  Table.nodup_values_ofList_self _ _

end Operation

/-! ## Components -/

theorem Component.exists_readEntries {taken : List String} {entries : List (Scalar × Document)}
    (hkeys : ∀ e ∈ entries, ∃ key, e.1.written = .ok key)
    (htypes : ∀ e ∈ entries, ∃ t, (Schema.typeOf e.2).result = .ok t) :
    ∃ cs, (readEntries taken entries).result = .ok cs := by
  simp only [readEntries_eq_ok]
  induction entries generalizing taken with
  | nil => exact ⟨[], .nil⟩
  | cons e entries ih =>
    obtain ⟨⟨key, hkey⟩, hkeys⟩ := List.forall_mem_cons.mp hkeys
    obtain ⟨⟨t, ht⟩, htypes⟩ := List.forall_mem_cons.mp htypes
    by_cases hname : Name.sanitize key ∈ taken
    · obtain ⟨cs, hcs⟩ := @ih taken hkeys htypes
      exact ⟨cs, .skip hkey hname hcs⟩
    · obtain ⟨cs, hcs⟩ := @ih (Name.sanitize key :: taken) hkeys htypes
      exact ⟨_, .take (c := ⟨_, t, _⟩) ⟨⟨key, hkey, rfl⟩, ht, rfl⟩ hname hcs⟩

theorem Component.exists_schema_of_collect {Q : Document → Prop} (hQ : Document.Hereditary Q)
    {components : Document} {cs : List Component} (h : (collect components).result = .ok cs)
    (hcomponents : Q components) : ∀ c ∈ cs, ∃ s, Q s ∧ (Schema.typeOf s).result = .ok c.type := by
  intro c hc
  obtain ⟨⟨e, he, hfrom⟩, _⟩ := (readFrom_readEntries h).1 c hc
  exact ⟨e.2, hQ.of_mem_entries (hQ.field hcomponents _) e he, hfrom.type⟩

/-! ## Parameters -/

namespace Parameter

def replaces (own shared : Document) : Bool :=
  match (identity shared).result, (identity own).result with
  | .ok i, .ok j => sameIdentity i j
  | _, _ => false

def unreplaced (shared own : Document) : List Document :=
  ((shared.items?.getD []).filter fun p => p.entries?.isSome).filter fun p =>
    !((own.items?.getD []).filter fun q => q.entries?.isSome).any fun q => replaces q p

theorem identities_spec {ps : List Document} {ids : List (Document × Scalar × Scalar)}
    (h : (identities ps).result = .ok ids) :
    ids.map (·.1) = (ps.filter fun p => p.entries?.isSome) ∧
      ∀ i ∈ ids, (identity i.1).result = .ok i.2 := by
  have hstep := Run.mapM_eq_ok.mp h
  have hparts : List.Forall₂ (fun p (i : Document × Scalar × Scalar) =>
      i.1 = p ∧ (identity i.1).result = .ok i.2) (ps.filter fun p => p.entries?.isSome) ids := by
    refine hstep.imp fun p i hi => ?_
    obtain ⟨_, hid, hi⟩ := Run.bind_eq_ok.mp hi
    cases hi
    exact ⟨rfl, hid⟩
  have hdocuments := map_congr_forall₂ (f := id) (hparts.imp fun _ _ h => h.1.symm)
  rw [List.map_id] at hdocuments
  exact ⟨hdocuments.symm, forall_of_forall₂ (hparts.imp fun _ _ h => h.2)⟩

theorem merge_eq {shared own : Document} {ps : List Document}
    (h : (merge shared own).result = .ok ps) :
    ps = unreplaced shared own ++ own.items?.getD [] := by
  unfold merge at h
  split at h
  · rename_i hshared
    cases h
    rw [unreplaced, hshared]
    rfl
  · rename_i hshared
    cases h
    rw [unreplaced, hshared]
    rfl
  rename_i inherited _ hshared
  obtain ⟨declared, hdeclared, h⟩ := Run.bind_eq_ok.mp h
  obtain ⟨ids, hids, h⟩ := Run.bind_eq_ok.mp h
  cases h
  obtain ⟨hdeclared, hown⟩ := identities_spec hdeclared
  obtain ⟨hids, hinherited⟩ := identities_spec hids
  -- names and places that compare equal are those that replace
  have hsame : ∀ i ∈ ids, (declared.any fun j => sameIdentity i.2 j.2) =
      (declared.map (·.1)).any fun q => replaces q i.1 := by
    intro i hi
    have hpairs : ∀ j ∈ declared, sameIdentity i.2 j.2 = replaces j.1 i.1 := by
      intro j hj
      rw [replaces, hinherited i hi, hown j hj]
    rw [List.any_map, Bool.eq_iff_iff, List.any_eq_true, List.any_eq_true]
    exact exists_congr fun j => and_congr_right fun hj => by rw [hpairs j hj, Function.comp_apply]
  rw [unreplaced, hshared, Option.getD_some, ← hids, ← hdeclared, List.filter_map]
  congr 2
  exact List.filter_congr fun i hi => by rw [Function.comp_apply, hsame i hi]

theorem mem_merge {shared own : Document} {ps : List Document}
    (h : (merge shared own).result = .ok ps) :
    ∀ p ∈ ps, p ∈ shared.items?.getD [] ∨ p ∈ own.items?.getD [] := by
  intro p hp
  rw [merge_eq h] at hp
  refine (List.mem_append.mp hp).imp_left fun hp => ?_
  exact (List.mem_filter.mp (List.mem_filter.mp hp).1).1

variable {Q : Document → Prop}

theorem read_eq_ok_some {p : Document} {q : Parameter} (h : (read p).result = .ok (some q)) :
    (Schema.typeOf (p.field "schema")).result = .ok q.type ∧
      q.typeName = Name.capitalize (Name.sanitize q.name) := by
  unfold read at h
  split at h
  · obtain ⟨_, _, h⟩ := Run.bind_eq_ok.mp h
    cases h
  split at h
  · cases h
  obtain ⟨location, _, h⟩ := Run.bind_eq_ok.mp h
  split at h
  · cases h
  obtain ⟨type, htype, h⟩ := Run.bind_eq_ok.mp h
  cases h
  exact ⟨htype, rfl⟩

theorem exists_read_of_readAll {shared own : Document} {ps : List Parameter}
    (h : (readAll shared own).result = .ok ps) : ∀ p ∈ ps,
      ∃ d, (d ∈ shared.items?.getD [] ∨ d ∈ own.items?.getD []) ∧ (read d).result = .ok (some p) := by
  obtain ⟨merged, hmerged, h⟩ := Run.bind_eq_ok.mp h
  obtain ⟨qs, hqs, h⟩ := Run.bind_eq_ok.mp h
  cases h
  have hall : ∀ q ∈ qs, ∃ d ∈ merged, (read d).result = .ok q :=
    forall_of_forall₂_imp ((Run.mapM_eq_ok.mp hqs).imp fun d q hq hd => ⟨d, hd, hq⟩) fun _ hd => hd
  intro p hp
  obtain ⟨_, hq, rfl⟩ := List.mem_filterMap.mp hp
  obtain ⟨d, hd, hread⟩ := hall _ hq
  exact ⟨d, mem_merge hmerged d hd, hread⟩

theorem exists_schema_of_readAll (hQ : Document.Hereditary Q) {shared own : Document}
    {ps : List Parameter} (h : (readAll shared own).result = .ok ps) (hshared : Q shared)
    (hown : Q own) : ∀ p ∈ ps, ∃ s, Q s ∧ (Schema.typeOf s).result = .ok p.type := by
  intro p hp
  obtain ⟨d, hd, hread⟩ := exists_read_of_readAll h p hp
  have hplace := hd.elim (hQ.of_mem_items hshared d) (hQ.of_mem_items hown d)
  exact ⟨_, hQ.field hplace "schema", (read_eq_ok_some hread).1⟩

end Parameter

namespace Operation

/-! ## Schemas of an operation -/

structure TakenFrom (Q : Document → Prop) (op : Operation) : Prop where
  parameter : ∀ p ∈ op.parameters, ∃ s, Q s ∧ (Schema.typeOf s).result = .ok p.type
  body : ∀ b, op.body = some b → ∃ s, Q s ∧ (Schema.typeOf s).result = .ok b.type
  media : ∀ r ∈ op.responses, ∀ m ∈ r.2.content.getD [], Q m.2.schema

theorem read_eq_ok {id path method : String} {d shared : Document} {op : Operation}
    (h : (read id path method d shared).result = .ok op) :
    op.id = id ∧ op.path = path ∧ op.method = method ∧
      (Parameter.readAll shared (d.field "parameters")).result = .ok op.parameters ∧
      (readBody (d.field "requestBody")).result = .ok op.body ∧
      (readResponses (d.field "responses")).result = .ok op.responses := by
  obtain ⟨summary, _, h⟩ := Run.bind_eq_ok.mp h
  obtain ⟨parameters, hparameters, h⟩ := Run.bind_eq_ok.mp h
  obtain ⟨body, hbody, h⟩ := Run.bind_eq_ok.mp h
  obtain ⟨responses, hresponses, h⟩ := Run.bind_eq_ok.mp h
  cases h
  exact ⟨rfl, rfl, rfl, hparameters, hbody, hresponses⟩

section
variable {Q : Document → Prop} (hQ : Document.Hereditary Q)
include hQ

theorem exists_schema_of_readBody {d : Document} (hd : Q d) {b : Body}
    (h : (readBody d).result = .ok (some b)) :
    ∃ s, Q s ∧ (Schema.typeOf s).result = .ok b.type := by
  unfold readBody at h
  split at h
  · rename_i contentType media rest hentries
    obtain ⟨_, _, h⟩ := Run.bind_eq_ok.mp h
    obtain ⟨type, htype, h⟩ := Run.bind_eq_ok.mp h
    cases h
    have hmedia := hQ.entries (hQ.field hd "content") hentries _ List.mem_cons_self
    exact ⟨_, hQ.field hmedia "schema", htype⟩
  · cases h

theorem schema_of_readContent {d : Document} (hd : Q d) {content : Option (Table String Media)}
    (h : (readContent d).result = .ok content) : ∀ m ∈ content.getD [], Q m.2.schema := by
  unfold readContent at h
  split at h
  · cases h
    simp
  · rename_i entries hentries
    obtain ⟨media, hmedia, h⟩ := Run.bind_eq_ok.mp h
    cases h
    refine @Table.forall_ofList String Media _ _ (fun m => Q m.2.schema) _ ?_
    have hstep : List.Forall₂ (fun (e : Scalar × Document) (m : String × Media) =>
        Q e.2 → Q m.2.schema) (entries.filter fun e => e.2.entries?.isSome) media := by
      refine (Run.mapM_eq_ok.mp hmedia).imp ?_
      rintro e m hm he
      obtain ⟨_, _, hm⟩ := Run.bind_eq_ok.mp hm
      cases hm
      exact hQ.field he "schema"
    exact forall_of_forall₂_imp hstep fun e he => hQ.entries hd hentries e (List.mem_filter.mp he).1

theorem schema_of_readResponses {d : Document} (hd : Q d) {responses : Table String Response}
    (h : (readResponses d).result = .ok responses) :
    ∀ r ∈ responses, ∀ m ∈ r.2.content.getD [], Q m.2.schema := by
  obtain ⟨rs, hrs, h⟩ := Run.bind_eq_ok.mp h
  cases h
  refine @Table.forall_ofList String Response _ _
    (fun r => ∀ m ∈ r.2.content.getD [], Q m.2.schema) _ ?_
  have hstep : List.Forall₂ (fun (e : Scalar × Document) (r : String × Response) =>
      Q e.2 → ∀ m ∈ r.2.content.getD [], Q m.2.schema) (d.entries?.getD []) rs := by
    refine (Run.mapM_eq_ok.mp hrs).imp ?_
    rintro e r hr he
    obtain ⟨response, hresponse, hr⟩ := Run.bind_eq_ok.mp hr
    obtain ⟨_, _, hr⟩ := Run.bind_eq_ok.mp hr
    obtain ⟨content, hcontent, hresponse⟩ := Run.bind_eq_ok.mp hresponse
    cases hr
    cases hresponse
    exact schema_of_readContent hQ (hQ.field he "content") hcontent
  exact forall_of_forall₂_imp hstep (hQ.of_mem_entries hd)

theorem takenFrom_read {id path method : String} {d shared : Document} {op : Operation}
    (h : (read id path method d shared).result = .ok op) (hd : Q d) (hshared : Q shared) :
    op.TakenFrom Q := by
  obtain ⟨_, _, _, hparameters, hbody, hresponses⟩ := read_eq_ok h
  refine ⟨?_, fun b hb => ?_, ?_⟩
  · exact Parameter.exists_schema_of_readAll hQ hparameters hshared (hQ.field hd _)
  · exact exists_schema_of_readBody hQ (hQ.field hd _) (hb ▸ hbody)
  · exact schema_of_readResponses hQ (hQ.field hd _) hresponses

end

/-! ## Entries -/

/-- An entry that becomes an operation, with the id of the operation. -/
def accepted? (keep : Bool) : Except WriteFault Entry → Option (String × Entry)
  | .ok e => (e.id? keep).map fun id => (id, e)
  | .error _ => none

def accepted (keep : Bool) (es : List (Except WriteFault Entry)) : List (String × Entry) :=
  es.filterMap (accepted? keep)

def readEntry (a : String × Entry) : Run Operation :=
  read a.1 a.2.path a.2.method a.2.operation (a.2.item.field "parameters")

theorem readEntry_eq_ok {a : String × Entry} {op : Operation} (h : (readEntry a).result = .ok op) :
    op.id = a.1 ∧ op.path = a.2.path ∧ op.method = a.2.method ∧
      (Parameter.readAll (a.2.item.field "parameters")
        (a.2.operation.field "parameters")).result = .ok op.parameters ∧
      (readBody (a.2.operation.field "requestBody")).result = .ok op.body ∧
      (readResponses (a.2.operation.field "responses")).result = .ok op.responses :=
  read_eq_ok h

theorem accepted_cons_none {keep : Bool} {e : Entry} (h : e.id? keep = none)
    (es : List (Except WriteFault Entry)) : accepted keep (.ok e :: es) = accepted keep es := by
  rw [accepted, List.filterMap_cons, accepted?, h]
  rfl

theorem accepted_cons_some {keep : Bool} {e : Entry} {id : String} (h : e.id? keep = some id)
    (es : List (Except WriteFault Entry)) :
    accepted keep (.ok e :: es) = (id, e) :: accepted keep es := by
  rw [accepted, List.filterMap_cons, accepted?, h]
  rfl

theorem mem_accepted {keep : Bool} {es : List (Except WriteFault Entry)} {a : String × Entry} :
    a ∈ accepted keep es ↔ .ok a.2 ∈ es ∧ a.2.id? keep = some a.1 := by
  rw [accepted, List.mem_filterMap]
  constructor
  · rintro ⟨x, hx, ha⟩
    cases x with
    | error fault => cases ha
    | ok e =>
      obtain ⟨id, hid, rfl⟩ := Option.map_eq_some_iff.mp ha
      exact ⟨hx, hid⟩
  · rintro ⟨hx, hid⟩
    exact ⟨_, hx, by rw [accepted?, hid]; rfl⟩

theorem readEntries_skipped {keep : Bool} {e : Entry} (h : e.id? keep = none)
    (holders : List (String × String)) (es : List (Except WriteFault Entry)) :
    (readEntries keep holders (.ok e :: es)).result = (readEntries keep holders es).result := by
  rw [readEntries, h]
  rfl

theorem readEntries_taken {keep : Bool} {e : Entry} {id : String} (h : e.id? keep = some id)
    (holders : List (String × String)) (es : List (Except WriteFault Entry)) :
    (readEntries keep holders (.ok e :: es)).result = (do
      let op ← readEntry (id, e)
      let ops ← readEntries keep ((id, e.label) :: holders) es
      pure (op :: ops) : Run (List Operation)).result := by
  rw [readEntries, h]
  dsimp only
  split
  · rw [Run.result_bind, Run.result_tell]
    rfl
  · rfl

theorem readEntries_eq_ok {keep : Bool} {holders : List (String × String)}
    {es : List (Except WriteFault Entry)} {ops : List Operation} :
    (readEntries keep holders es).result = .ok ops ↔
      (∀ x ∈ es, ∃ e, x = .ok e) ∧
        List.Forall₂ (fun a op => (readEntry a).result = .ok op) (accepted keep es) ops := by
  induction es generalizing holders ops with
  | nil =>
    have hnil : (readEntries keep holders []).result = .ok [] := rfl
    rw [hnil]
    simp [accepted, eq_comm]
  | cons x es ih =>
    rw [List.forall_mem_cons]
    cases x with
    | error fault =>
      have hfault : (readEntries keep holders (.error fault :: es)).result =
        .error (.unwritable fault) := rfl
      simp [hfault]
    | ok e =>
      -- an entry without an id leaves no operation
      cases hid : e.id? keep with
      | none =>
        rw [readEntries_skipped hid, accepted_cons_none hid, ih]
        simp
      | some id =>
        rw [readEntries_taken hid, accepted_cons_some hid, Run.bind_eq_ok]
        constructor
        · rintro ⟨op, hop, h⟩
          obtain ⟨rest, hrest, h⟩ := Run.bind_eq_ok.mp h
          cases h
          obtain ⟨hall, hreads⟩ := ih.mp hrest
          exact ⟨⟨⟨e, rfl⟩, hall⟩, .cons hop hreads⟩
        · rintro ⟨⟨_, hall⟩, hreads⟩
          cases hreads with
          | cons hop hreads =>
            exact ⟨_, hop, Run.bind_eq_ok.mpr ⟨_, ih.mpr ⟨hall, hreads⟩, rfl⟩⟩

theorem readEntries_eq_error {keep : Bool} {holders : List (String × String)}
    {es : List (Except WriteFault Entry)} {f : Failure}
    (h : (readEntries keep holders es).result = .error f) :
    (∃ fault, .error fault ∈ es) ∨ ∃ a ∈ accepted keep es, (readEntry a).result = .error f := by
  induction es generalizing holders with
  | nil => cases h
  | cons x es ih =>
    cases x with
    | error fault => exact .inl ⟨fault, List.mem_cons_self⟩
    | ok e =>
      cases hid : e.id? keep with
      | none =>
        rw [readEntries_skipped hid] at h
        rw [accepted_cons_none hid]
        exact (ih h).imp_left fun ⟨fault, hf⟩ => ⟨fault, List.mem_cons_of_mem _ hf⟩
      | some id =>
        rw [readEntries_taken hid] at h
        rw [accepted_cons_some hid]
        rcases Run.bind_eq_error.mp h with h | ⟨op, _, h⟩
        · exact .inr ⟨_, List.mem_cons_self, h⟩
        rcases Run.bind_eq_error.mp h with h | ⟨rest, _, h⟩
        · rcases ih h with ⟨fault, hf⟩ | ⟨a, ha, h⟩
          · exact .inl ⟨fault, List.mem_cons_of_mem _ hf⟩
          · exact .inr ⟨a, List.mem_cons_of_mem _ ha, h⟩
        · cases h

/-! ## Entries of a document -/

def entriesIn (d : Document) : List (Except WriteFault Entry) :=
  entriesOf ((d.field "paths").entries?.getD [])

def KeyInside (d : Document) (key : Scalar) : Prop :=
  ∃ x es, d.Inside x ∧ x.entries? = some es ∧ key ∈ es.map (·.1)

theorem mem_entriesOf {paths : List (Scalar × Document)} {x : Except WriteFault Entry}
    (h : x ∈ entriesOf paths) : ∃ p ∈ paths, ∃ es, p.2.entries? = some es ∧
      ((∃ fault, x = .error fault ∧ (p.1.written = .error fault ∨
        ∃ key ∈ es.map (·.1), key.written = .error fault)) ∨
      ∃ e : Entry, x = .ok e ∧ e.item = p.2 ∧ e.operation ∈ es.map (·.2)) := by
  obtain ⟨p, hp, hx⟩ := List.mem_flatMap.mp h
  obtain ⟨hp, hes⟩ := List.mem_filter.mp hp
  obtain ⟨es, hes⟩ := Option.isSome_iff_exists.mp hes
  refine ⟨p, hp, es, hes, ?_⟩
  dsimp only at hx
  split at hx
  · rename_i fault hfault
    exact .inl ⟨fault, List.mem_singleton.mp hx, .inl hfault⟩
  rw [entriesOfItem, hes] at hx
  obtain ⟨e, he, hx⟩ := List.mem_filterMap.mp hx
  dsimp only at hx
  split at hx
  · rename_i fault hfault
    cases hx
    exact .inl ⟨fault, rfl, .inr ⟨e.1, List.mem_map_of_mem he, hfault⟩⟩
  · split at hx
    · cases hx
      exact .inr ⟨_, rfl, rfl, List.mem_map_of_mem he⟩
    · cases hx

theorem mem_entriesIn {d : Document} {x : Except WriteFault Entry} (h : x ∈ entriesIn d) :
    (∃ fault key, x = .error fault ∧ KeyInside d key ∧ key.written = .error fault) ∨
      ∃ e : Entry, x = .ok e ∧ d.Inside e.item ∧ d.Inside e.operation := by
  obtain ⟨p, hp, es, hes, h⟩ := mem_entriesOf h
  cases hf : d.field? "paths" with
  | none =>
    rw [Document.field, hf] at hp
    cases hp
  | some paths =>
    rw [Document.field, hf, Option.getD_some] at hp
    have hpaths := Document.inside_of_field hf
    cases hps : paths.entries? with
    | none =>
      rw [hps] at hp
      cases hp
    | some ps =>
      rw [hps, Option.getD_some] at hp
      have hitem : d.Inside p.2 := .entry hpaths hps hp
      rcases h with ⟨fault, rfl, hkey | ⟨key, hkey, hwritten⟩⟩ | ⟨e, rfl, he, hop⟩
      · exact .inl ⟨fault, p.1, rfl, ⟨paths, ps, hpaths, hps, List.mem_map_of_mem hp⟩, hkey⟩
      · exact .inl ⟨fault, key, rfl, ⟨p.2, es, hitem, hes, hkey⟩, hwritten⟩
      · obtain ⟨e', he', hop⟩ := List.mem_map.mp hop
        exact .inr ⟨e, rfl, he ▸ hitem, hop ▸ .entry hitem hes he'⟩

theorem mappings_of_accepted {d : Document} (h : DocumentFault.of? d = none) :
    (∃ es, d.entries? = some es) ∧
      ((d.field "paths").isNull = true ∨ ∃ es, (d.field "paths").entries? = some es) := by
  unfold DocumentFault.of? at h
  dsimp only at h
  split at h
  · cases h
  rename_i hmapping
  split at h
  · cases h
  rename_i hpaths
  constructor
  · exact Option.ne_none_iff_exists'.mp fun hnone => hmapping (by rw [hnone]; rfl)
  · cases hes : (d.field "paths").entries? with
    | some es => exact .inr ⟨es, rfl⟩
    | none =>
      rw [hes] at hpaths
      exact .inl (by simpa using hpaths)

theorem entries?_of_isTruthy_eq_false {d : Document} (h : d.isTruthy = false) :
    d.entries?.getD [] = [] := by
  rw [Document.entries?]
  split
  · rename_i entries hmap
    rw [Document.isTruthy, hmap, Value.isTruthy] at h
    have hnil : entries = [] := by simpa using h
    rw [hnil]
    rfl
  · rfl

theorem collect_eq {d : Document} (h : DocumentFault.of? d = none) (keep : Bool) :
    collect d keep = readEntries keep [] (entriesIn d) := by
  obtain ⟨⟨es, hes⟩, hpaths⟩ := mappings_of_accepted h
  unfold collect entriesIn
  rw [hes]
  dsimp only
  cases htruthy : (d.field "paths").isTruthy with
  | false =>
    rw [entries?_of_isTruthy_eq_false htruthy, Document.truthy?, htruthy]
    rfl
  | true =>
    rw [Document.truthy?, htruthy]
    rcases hpaths with hnull | ⟨ps, hps⟩
    -- null is falsy, so the table is not null here
    · have hfalse : (d.field "paths").isTruthy = false := by
        rw [Document.isNull] at hnull
        rw [Document.isTruthy]
        unfold Value.isNull at hnull
        split at hnull
        · rename_i hv
          rw [hv]
          rfl
        · cases hnull
      rw [hfalse] at htruthy
      cases htruthy
    · rw [if_pos rfl]
      dsimp only
      rw [hps]
      rfl

theorem collect_eq_readEntries {d : Document} {keep : Bool} {ops : List Operation}
    (h : (collect d keep).result = .ok ops) (keep' : Bool) :
    collect d keep' = readEntries keep' [] (entriesIn d) := by
  unfold collect at h ⊢
  cases hes : d.entries? with
  | none =>
    rw [hes] at h
    cases h
  | some es =>
    rw [hes] at h
    rw [entriesIn, Document.truthy?] at *
    dsimp only at h ⊢
    cases htruthy : (d.field "paths").isTruthy with
    | false =>
      rw [entries?_of_isTruthy_eq_false htruthy]
      rfl
    | true =>
      rw [htruthy, if_pos rfl] at h
      rw [if_pos rfl]
      dsimp only at h ⊢
      cases hps : (d.field "paths").entries? with
      | none =>
        rw [hps] at h
        cases h
      | some ps => rfl

theorem collect_eq_of_ok {d : Document} {keep : Bool} {ops : List Operation}
    (h : (collect d keep).result = .ok ops) : collect d keep = readEntries keep [] (entriesIn d) :=
  collect_eq_readEntries h keep

/-- The operations of a document are read from its accepted entries. -/
theorem forall₂_collect {d : Document} {keep : Bool} {ops : List Operation}
    (h : (collect d keep).result = .ok ops) :
    List.Forall₂ (fun a op => (readEntry a).result = .ok op) (accepted keep (entriesIn d)) ops := by
  rw [collect_eq_of_ok h] at h
  exact (readEntries_eq_ok.mp h).2

theorem inside_of_mem_accepted {d : Document} {keep : Bool} {a : String × Entry}
    (ha : a ∈ accepted keep (entriesIn d)) : d.Inside a.2.item ∧ d.Inside a.2.operation := by
  rcases mem_entriesIn (mem_accepted.mp ha).1 with ⟨_, _, he, _⟩ | ⟨e, he, hinside⟩
  · cases he
  · cases he
    exact hinside

theorem takenFrom_collect {Q : Document → Prop} (hQ : Document.Hereditary Q) {d : Document}
    {keep : Bool} {ops : List Operation} (h : (collect d keep).result = .ok ops)
    (hd : ∀ x, d.Inside x → Q x) : ∀ op ∈ ops, op.TakenFrom Q := by
  refine forall_of_forall₂_imp (p := (· ∈ accepted keep (entriesIn d))) ?_ fun _ ha => ha
  refine (forall₂_collect h).imp fun a op hop ha => ?_
  obtain ⟨hitem, hoperation⟩ := inside_of_mem_accepted ha
  exact takenFrom_read hQ hop (hd _ hoperation) (hQ.field (hd _ hitem) _)

end Operation

theorem Api.read_eq_ok {d : Document} {keep : Bool} {api : Api} :
    (Api.read d keep).result = .ok api ↔ DocumentFault.of? d = none ∧
      (Operation.collect d keep).result = .ok api.operations ∧
      (Component.collect (d.field "components")).result = .ok api.components := by
  unfold Api.read
  cases hfault : DocumentFault.of? d with
  | some fault =>
    refine iff_of_false (fun h => ?_) (by simp)
    cases h
  | none =>
    dsimp only
    constructor
    · intro h
      obtain ⟨ops, hops, h⟩ := Run.bind_eq_ok.mp h
      obtain ⟨cs, hcs, h⟩ := Run.bind_eq_ok.mp h
      cases h
      exact ⟨rfl, hops, hcs⟩
    · rintro ⟨_, hops, hcs⟩
      exact Run.bind_eq_ok.mpr ⟨_, hops, Run.bind_eq_ok.mpr ⟨_, hcs, rfl⟩⟩

end ApiTypes
