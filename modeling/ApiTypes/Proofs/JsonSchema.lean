import ApiTypes.Proofs.Mapping
import ApiTypes.Proofs.WrittenTypes

/-!
# Schemas of JSON

A value of JSON is mapped to a type whatever it holds, and the type can be written unless the value
has an integer of too many digits.
-/

namespace ApiTypes

/-! ## Values -/

namespace Value

inductive IsJson : Value → Prop
  | null : IsJson (.scalar .null)
  | bool (b) : IsJson (.scalar (.bool b))
  | int (n) : IsJson (.scalar (.int n))
  | float (x) : IsJson (.scalar (.float x))
  | nan (origin) : IsJson (.scalar (.nan origin))
  | text (s) : IsJson (.scalar (.text s))
  | seq {items} : (∀ v ∈ items, IsJson v) → IsJson (.seq items)
  | map {entries} : (∀ e ∈ entries, ∃ key, e.1 = .text key) → (∀ e ∈ entries, IsJson e.2) →
      IsJson (.map entries)

/-- `q` goes from a value without links to its parts, and stays when a part of a mapping is replaced
by one that has it. -/
structure Hereditary (q : Value → Prop) : Prop where
  null : q .null
  ne_link : ∀ {v}, q v → ∀ n, v ≠ .link n
  items : ∀ {vs}, q (.seq vs) → ∀ v ∈ vs, q v
  entries : ∀ {es}, q (.map es) → ∀ e ∈ es, q e.2
  replace : ∀ {es : List (Scalar × Value)} {f : Scalar × Value → Value}, q (.map es) →
    (∀ e ∈ es, q (f e)) → q (.map (es.map fun e => (e.1, f e)))

theorem hereditary_isJson : Hereditary IsJson where
  null := .null
  ne_link := by
    rintro v h n rfl
    cases h
  items := by
    intro vs h
    cases h with
    | seq h => exact h
  entries := by
    intro es h
    cases h with
    | map _ h => exact h
  replace := by
    intro es f h hf
    cases h with
    | map hkeys _ =>
      exact .map (List.forall_mem_map.mpr hkeys) (List.forall_mem_map.mpr hf)

theorem itemsFault?_eq_none {vs : List Value} :
    itemsFault? vs = none ↔ ∀ v ∈ vs, v.fault? = none := by
  induction vs with
  | nil => simp [itemsFault?]
  | cons v vs ih => simp [itemsFault?, ih]

theorem entriesFault?_eq_none {es : List (Scalar × Value)} :
    entriesFault? es = none ↔ ∀ e ∈ es, e.1.fault? = none ∧ e.2.fault? = none := by
  induction es with
  | nil => simp [entriesFault?]
  | cons e es ih => simp [entriesFault?, ih, and_assoc]

theorem hereditary_writable : Hereditary fun v => v.IsJson ∧ v.fault? = none where
  null := ⟨.null, rfl⟩
  ne_link := fun h => hereditary_isJson.ne_link h.1
  items := fun h v hv => ⟨hereditary_isJson.items h.1 v hv, itemsFault?_eq_none.mp h.2 v hv⟩
  entries := fun h e he =>
    ⟨hereditary_isJson.entries h.1 e he, (entriesFault?_eq_none.mp h.2 e he).2⟩
  replace := by
    intro es f h hf
    refine ⟨hereditary_isJson.replace h.1 fun e he => (hf e he).1, ?_⟩
    refine entriesFault?_eq_none.mpr (List.forall_mem_map.mpr fun e he => ?_)
    exact ⟨(entriesFault?_eq_none.mp h.2 e he).1, (hf e he).2⟩

/-! ### Written forms -/

theorem jsonItemsFault?_eq_none {vs : List Value} :
    jsonItemsFault? vs = none ↔ ∀ v ∈ vs, v.jsonFault? = none := by
  induction vs with
  | nil => simp [jsonItemsFault?]
  | cons v vs ih => simp [jsonItemsFault?, ih]

theorem jsonEntriesFault?_eq_none {es : List (Scalar × Value)} :
    jsonEntriesFault? es = none ↔ ∀ e ∈ es, e.1.keyFault? = none ∧ e.2.jsonFault? = none := by
  induction es with
  | nil => simp [jsonEntriesFault?]
  | cons e es ih => simp [jsonEntriesFault?, ih, and_assoc]

theorem IsJson.jsonFault?_eq_none {v : Value} (h : v.IsJson) (hv : v.fault? = none) :
    v.jsonFault? = none := by
  induction h with
  | null => exact hv
  | bool b => exact hv
  | int n => exact hv
  | float x => exact hv
  | nan origin => exact hv
  | text s => exact hv
  | seq _ ih =>
    rw [fault?, itemsFault?_eq_none] at hv
    rw [jsonFault?, jsonItemsFault?_eq_none]
    exact fun v hmem => ih v hmem (hv v hmem)
  | map hkeys _ ih =>
    rw [fault?, entriesFault?_eq_none] at hv
    rw [jsonFault?, jsonEntriesFault?_eq_none]
    intro e he
    obtain ⟨key, hkey⟩ := hkeys e he
    exact ⟨by rw [hkey]; rfl, ih e he (hv e he).2⟩

end Value

namespace Document

theorem closeWith_eq {v : Value} (h : v.IsJson) (follow : Nat → List (Option Nat) → Value)
    (cell : Option Nat) (outer : List (Option Nat)) : closeWith follow cell outer v = v := by
  have hitems : ∀ (outer : List (Option Nat)) {vs : List Value},
      (∀ v ∈ vs, ∀ cell outer, closeWith follow cell outer v = v) →
      closeItems follow outer vs = vs := by
    intro outer vs ih
    induction vs with
    | nil => rfl
    | cons v vs ihs =>
      obtain ⟨hv, hvs⟩ := List.forall_mem_cons.mp ih
      rw [closeItems, hv, ihs hvs]
  have hentries : ∀ (outer : List (Option Nat)) {es : List (Scalar × Value)},
      (∀ e ∈ es, ∀ cell outer, closeWith follow cell outer e.2 = e.2) →
      closeEntries follow outer es = es := by
    intro outer es ih
    induction es with
    | nil => rfl
    | cons e es ihs =>
      obtain ⟨he, hes⟩ := List.forall_mem_cons.mp ih
      rw [closeEntries, he, ihs hes]
  induction h generalizing cell outer with
  | seq _ ih => rw [closeWith, hitems _ fun v hv cell outer => ih v hv cell outer]
  | map _ _ ih => rw [closeWith, hentries _ fun e he cell outer => ih e he cell outer]
  | _ => rw [closeWith]

theorem snapshot_eq_here {d : Document} (h : d.here.IsJson) : d.snapshot = d.here :=
  closeWith_eq h _ _ _

section
variable {q : Value → Prop} (hq : Value.Hereditary q) {d : Document}
include hq

theorem value_eq_here (h : q d.here) : d.value = d.here := by
  unfold value
  split
  · rename_i n hlink
    exact absurd hlink (hq.ne_link h n)
  · rfl

theorem here_field (h : q d.here) (key : String) : q (d.field key).here := by
  rw [field, field?, value_eq_here hq h]
  split
  · rename_i entries hmap
    rw [hmap] at h
    cases hfind : entries.find? (isKey key) with
    | none => exact hq.null
    | some e => exact hq.entries h e (List.mem_of_find?_eq_some hfind)
  · exact hq.null

theorem here_items {ds : List Document} (h : q d.here) (hds : d.items? = some ds) :
    ∀ d' ∈ ds, q d'.here := by
  rw [items?, value_eq_here hq h] at hds
  split at hds
  · rename_i vs hseq
    cases hds
    rw [hseq] at h
    exact List.forall_mem_map.mpr (hq.items h)
  · cases hds

theorem here_entries {es : List (Scalar × Document)} (h : q d.here) (hes : d.entries? = some es) :
    ∀ e ∈ es, q e.2.here := by
  rw [entries?, value_eq_here hq h] at hes
  split at hes
  · rename_i vs hmap
    cases hes
    rw [hmap] at h
    exact List.forall_mem_map.mpr (hq.entries h)
  · cases hes

theorem here_setField (h : q d.here) (key : String) {v : Value} (hv : q v) :
    q (d.setField key v).here := by
  rw [setField, value_eq_here hq h]
  split
  · rename_i entries hmap
    rw [hmap] at h
    have hreplaced : q (.map (entries.map fun e => (e.1, if isKey key e then v else e.2))) := by
      refine hq.replace h fun e he => ?_
      split
      · exact hv
      · exact hq.entries h e he
    have hsame : ∀ e : Scalar × Value, (e.1, if isKey key e then v else e.2) =
        if isKey key e then (e.1, v) else e := by
      intro e
      split <;> rfl
    rw [List.map_congr_left fun e _ => hsame e] at hreplaced
    exact hreplaced
  · exact h

end

theorem isJson_keys {d : Document} (h : d.here.IsJson) {es : List (Scalar × Document)}
    (hes : d.entries? = some es) : ∀ e ∈ es, ∃ key, e.1 = .text key := by
  rw [entries?, value_eq_here Value.hereditary_isJson h] at hes
  split at hes
  · rename_i vs hmap
    cases hes
    rw [hmap] at h
    cases h with
    | map hkeys _ => exact List.forall_mem_map.mpr hkeys
  · cases hes

/-! ## Properties that parts inherit -/

/-- `Q` goes from a place to its parts, to an absent field, and to a schema that is one of the kinds
that its `type` lists. -/
structure Hereditary (Q : Document → Prop) : Prop where
  null : ∀ {d}, Q d → Q (d.moveTo .null)
  items : ∀ {d ds}, Q d → d.items? = some ds → ∀ x ∈ ds, Q x
  entries : ∀ {d es}, Q d → d.entries? = some es → ∀ e ∈ es, Q e.2
  retyped : ∀ {d ks}, Q d → (d.field "type").items? = some ks →
    ∀ k ∈ ks, Q (d.setField "type" k.here)

theorem exists_entry_of_field? {d x : Document} {key : String} (h : d.field? key = some x) :
    ∃ es, d.entries? = some es ∧ (Scalar.text key, x) ∈ es := by
  unfold field? at h
  split at h
  · rename_i entries hmap
    obtain ⟨e, he, rfl⟩ := Option.map_eq_some_iff.mp h
    have hkey : e.1 = .text key := by
      have := List.find?_some he
      rw [isKey, beq_iff_eq] at this
      unfold Scalar.text? at this
      split at this
      · rename_i s hs
        cases this
        exact hs
      · cases this
    refine ⟨entries.map fun e => (e.1, d.moveTo e.2), by rw [entries?, hmap], ?_⟩
    rw [← hkey]
    exact List.mem_map_of_mem (List.mem_of_find?_eq_some he)
  · cases h

theorem field?_of_entries?_eq_none {d : Document} (h : d.entries? = none) (key : String) :
    d.field? key = none := by
  cases hx : d.field? key with
  | none => rfl
  | some x =>
    obtain ⟨es, hes, _⟩ := exists_entry_of_field? hx
    rw [h] at hes
    cases hes

theorem exists_of_mem_getD {α : Type} {x : Option (List α)} {a : α} (h : a ∈ x.getD []) :
    ∃ as, x = some as ∧ a ∈ as := by
  cases x with
  | none => cases h
  | some as => exact ⟨as, rfl, h⟩

namespace Hereditary

variable {Q : Document → Prop} (hQ : Hereditary Q) {d : Document}
include hQ

theorem of_mem_items (h : Q d) : ∀ x ∈ d.items?.getD [], Q x := by
  intro x hx
  obtain ⟨ds, hds, hx⟩ := exists_of_mem_getD hx
  exact hQ.items h hds x hx

theorem of_mem_entries (h : Q d) : ∀ e ∈ d.entries?.getD [], Q e.2 := by
  intro e he
  obtain ⟨es, hes, he⟩ := exists_of_mem_getD he
  exact hQ.entries h hes e he

theorem field (h : Q d) (key : String) : Q (d.field key) := by
  unfold Document.field
  cases hx : d.field? key with
  | none => exact hQ.null h
  | some x =>
    obtain ⟨es, hes, hmem⟩ := exists_entry_of_field? hx
    exact hQ.entries h hes _ hmem

theorem parts (h : Q d) {parts : List Document} (hparts : Schema.Parts d parts) :
    ∀ part ∈ parts, Q part := by
  cases hparts with
  | listed hitems => exact hQ.items (hQ.field h _) hitems
  | kinds hkinds => exact List.forall_mem_map.mpr (hQ.retyped h hkinds)

end Hereditary

theorem hereditary_here {q : Value → Prop} (hq : Value.Hereditary q) :
    Hereditary fun d => q d.here where
  null _ := hq.null
  items h hds := here_items hq h hds
  entries h hes := here_entries hq h hes
  retyped h hks k hk := here_setField hq h "type" (here_items hq (here_field hq h "type") hks k hk)

end Document

/-! ## Mapping -/

theorem Run.exists_mapM {α β : Type} {f : α → Run β} {xs : List α}
    (h : ∀ x ∈ xs, ∃ y, (f x).result = .ok y) : ∃ ys, (xs.mapM f).result = .ok ys := by
  simp only [Run.mapM_eq_ok]
  exact exists_forall₂_iff.mpr h

namespace Schema

open Document Value

theorem parts_of_hereditary {Q : Document → Prop} (hQ : Hereditary Q) {s : Document}
    (h : Q s) : ∀ p ∈ (layer s).parts, Q p := by
  intro p hp
  cases isPart_of_mem_parts p hp with
  | listed hitems hmem => exact hQ.items (hQ.field h _) hitems _ hmem
  | items _ => exact hQ.field h _
  | property hentries hmem => exact hQ.entries (hQ.field h _) hentries _ hmem
  | kind hkinds hmem => exact hQ.retyped h hkinds _ hmem

section
variable {Q : Document → Prop} (hQ : Hereditary Q)
  (hkeys : ∀ {d es}, Q d → d.entries? = some es → ∀ e ∈ es, ∃ key, e.1.written = .ok key)
include hQ hkeys

theorem fault?_of_mem_keys {s : Document} (h : Q s) :
    ∀ key ∈ (layer s).keys, key.fault? = none := by
  intro key hkey
  obtain ⟨es, hes, e, he, rfl⟩ := exists_property_of_mem_keys key hkey
  exact Scalar.exists_written_iff.mp (hkeys (hQ.field h "properties") hes e he)

/-- Only a key that cannot be written keeps a schema from becoming a type. -/
theorem exists_typeAt_of_keys {s : Document} (h : Q s) (room : Nat) (depth : Int)
    (outer : List Nat) : ∃ t, (typeAt room depth outer s).result = .ok t := by
  induction room generalizing depth outer s with
  | zero =>
    rw [typeAt_eq_layer]
    split <;> exact ⟨_, rfl⟩
  | succ room ih =>
    rw [typeAt_eq_layer]
    split
    · exact ⟨_, rfl⟩
    dsimp only
    split
    · exact ⟨_, rfl⟩
    · simp only [Layer.build_eq_ok, Layer.exists_built_iff]
      exact ⟨fault?_of_mem_keys hQ hkeys h, fun p hp => ih (parts_of_hereditary hQ h p hp) _ _⟩

end

theorem exists_typeAt {s : Document} (h : s.here.IsJson) (room : Nat) (depth : Int)
    (outer : List Nat) : ∃ t, (typeAt room depth outer s).result = .ok t := by
  refine exists_typeAt_of_keys (hereditary_here hereditary_isJson) ?_ h room depth outer
  intro d es h hes e he
  obtain ⟨key, hkey⟩ := isJson_keys h hes e he
  rw [hkey]
  exact ⟨key, rfl⟩

end Schema

/-! ## Faults -/

namespace TypeExpr

/-- The text of a type can be written, and so can the comment on a property that has it. -/
structure Writable (t : TypeExpr) : Prop where
  sample : t.sampleFault? = none
  declared : t.declaredFault? = none
  validator : t.validatorFault? = none

theorem writable_union {ts : List TypeExpr} (h : ∀ t ∈ ts, t.Writable) :
    (union .none ts).Writable where
  sample := rfl
  declared := (membersFault?_eq ts).trans
    (List.findSome?_eq_none_iff.mpr fun t ht => (h t ht).declared)
  validator := (validatorsFault?_eq ts).trans
    (List.findSome?_eq_none_iff.mpr fun t ht => (h t ht).validator)

theorem writable_intersection {ts : List TypeExpr} (h : ∀ t ∈ ts, t.Writable) :
    (intersection .none ts).Writable where
  sample := rfl
  declared := (membersFault?_eq ts).trans
    (List.findSome?_eq_none_iff.mpr fun t ht => (h t ht).declared)
  validator := (validatorsFault?_eq ts).trans
    (List.findSome?_eq_none_iff.mpr fun t ht => (h t ht).validator)

theorem writable_literal {d : Document} (h : d.jsonFault? = none) : (literal .none d).Writable :=
  ⟨rfl, h, h⟩

theorem writable_ofProperties {i : Info} (hi : i.sample.bind Document.jsonFault? = none)
    {ps : List (String × TypeExpr)} (h : ∀ p ∈ ps, p.2.Writable) (required : List String) :
    (ofProperties i ps required).Writable := by
  have htable : ∀ p ∈ Table.ofList ps, p.2.Writable := Table.forall_ofList h
  refine ⟨hi, (propertiesFault?_eq _).trans (List.findSome?_eq_none_iff.mpr fun p hp => ?_),
    (propertyValidatorsFault?_eq _).trans
      (List.findSome?_eq_none_iff.mpr fun p hp => (htable p hp).validator)⟩
  rw [(htable p hp).sample, (htable p hp).declared]
  rfl

end TypeExpr

namespace Schema

/-- A schema of JSON without integers of too many digits becomes a type that can be written. -/
theorem writable_typeAt {room : Nat} {depth : Int} {outer : List Nat} {s : Document} {t : TypeExpr}
    (h : (typeAt room depth outer s).result = .ok t) (hs : s.here.IsJson)
    (hfault : s.here.fault? = none) : t.Writable := by
  -- a JSON value is its own snapshot
  have hjson : ∀ {d : Document}, d.here.IsJson ∧ d.here.fault? = none → d.jsonFault? = none := by
    intro d hd
    rw [Document.jsonFault?, Document.snapshot_eq_here hd.1]
    exact hd.1.jsonFault?_eq_none hd.2
  have hinfo : ∀ {s : Document}, s.here.IsJson ∧ s.here.fault? = none →
      (info s).sample.bind Document.jsonFault? = none := by
    intro s hs
    unfold info
    dsimp only
    split
    · rfl
    · exact hjson (Document.here_field Value.hereditary_writable hs _)
  refine typeAt_induction (motive := fun s t =>
    s.here.IsJson ∧ s.here.fault? = none → t.Writable) ?_ h ⟨hs, hfault⟩
  intro s t h hs
  cases h with
  | any _ => exact ⟨rfl, rfl, rfl⟩
  | reference _ => exact ⟨rfl, rfl, rfl⟩
  | unopened => exact ⟨hinfo hs, rfl, rfl⟩
  | literals hvalues =>
    apply TypeExpr.writable_union
    refine List.forall_mem_map.mpr fun value hvalue => TypeExpr.writable_literal (hjson ?_)
    exact Document.here_items Value.hereditary_writable
      (Document.here_field Value.hereditary_writable hs _) hvalues value hvalue
  | union hparts hts =>
    -- the parts inherit being JSON from the schema
    have hin := (Document.hereditary_here Value.hereditary_writable).parts hs hparts
    apply TypeExpr.writable_union
    exact forall_of_forall₂_imp hts hin
  | intersection hparts hts =>
    have hin := (Document.hereditary_here Value.hereditary_writable).parts hs hparts
    apply TypeExpr.writable_intersection
    exact forall_of_forall₂_imp hts hin
  | null => exact ⟨hinfo hs, rfl, rfl⟩
  | array ht =>
    have hitem := ht (Document.here_field Value.hereditary_writable hs _)
    exact ⟨rfl, hitem.declared, hitem.validator⟩
  | object required hentries hps =>
    have hin := Document.here_entries Value.hereditary_writable
      (Document.here_field Value.hereditary_writable hs _) hentries
    have hps := hps.imp fun _ _ h => h.2
    exact TypeExpr.writable_ofProperties (hinfo hs) (forall_of_forall₂_imp hps hin) required

end Schema

end ApiTypes
