import ApiTypes.Proofs.Inside

/-!
# What types are made of

A type that a schema is mapped to has identifiers, literals, arrays, unions, intersections and objects. Its
names come from a fixed vocabulary, its literals from the lists of values in the schema, and what it tells
its readers from the mappings that its identifiers and objects are made for.
-/

namespace ApiTypes

structure Info.IsOf (i : Info) (s : Document) : Prop where
  description : ∀ text, i.description = some text ↔
    (s.field "description").value = .scalar (.text text)
  sample : ∀ d, i.sample = some d ↔ d = s.field "example" ∧ d.isNull = false
  nullable : i.nullable = true ↔ (s.field "nullable").value = .scalar (.bool true)

/-- The schema has the fields of the other one, its kind aside. -/
def Document.IsKindOf (s m : Document) : Prop := ∀ key, key ≠ "type" → s.field key = m.field key

def Document.Enumerates (d value : Document) : Prop :=
  ∃ m values, d.Inside m ∧ (m.field "enum").items? = some values ∧ value ∈ values

namespace Document

theorem IsKindOf.setField {s m : Document} (h : s.IsKindOf m) {entries : List (Scalar × Value)}
    (hmap : s.value = .map entries) (v : Value) : (s.setField "type" v).IsKindOf m := by
  intro key hkey
  have hmove : (s.setField "type" v).moveTo = s.moveTo := by
    rw [Document.setField, hmap]
    rfl
  rw [← h key hkey, field, field, field?_setField_of_ne hmap hkey, hmove]

end Document

namespace Schema

/-! ## Names -/

inductive IsMappedName : String → Prop
  | basic {name} : name ∈ ["string", "number", "boolean", "null", "any", TypeExpr.openMap] →
      IsMappedName name
  | component {name} : name ≠ "" → (∀ c ∈ name.toList, Name.isWordChar c = true) →
      IsMappedName (componentPath name)

theorem isMappedName_reference (ref : String) :
    IsMappedName (componentPath (Name.sanitize (Name.lastSegment ref))) :=
  .component (mt sanitize_eq_empty_iff.mp (lastSegment_ne_empty ref)) (isWordChar_sanitize _)

theorem exists_mappedName_unopened (s : Document) :
    ∃ name, IsMappedName name ∧ unopened s = .identifier (info s) name := by
  obtain ⟨name, hname, hs⟩ := exists_unopened s
  have hbasic : ∀ name ∈ ["string", "number", "boolean", "any", TypeExpr.openMap],
      name ∈ ["string", "number", "boolean", "null", "any", TypeExpr.openMap] := by decide
  exact ⟨name, .basic (hbasic name hname), hs⟩

/-! ## What schemas say -/

theorem isOf_info (s : Document) : (info s).IsOf s where
  description := by
    intro text
    show (s.field "description").text? = some text ↔ _
    rw [Document.text?]
    cases (s.field "description").value with
    | scalar v => cases v <;> simp [Value.text?, Scalar.text?]
    | _ => simp [Value.text?]
  sample := by
    intro d
    show (if (s.field "example").isNull then none else some (s.field "example")) = some d ↔ _
    split
    · rename_i hnull
      refine iff_of_false nofun ?_
      rintro ⟨rfl, hd⟩
      rw [hnull] at hd
      cases hd
    · rename_i hnull
      constructor
      · intro h
        cases h
        exact ⟨rfl, by simpa using hnull⟩
      · rintro ⟨rfl, _⟩
        rfl
  nullable := by
    show (s.field "nullable").isTrue = true ↔ _
    rw [Document.isTrue]
    cases (s.field "nullable").value with
    | scalar v => cases v <;> simp
    | _ => simp

/-- A schema that is opened, or met inside itself or too deep, tells what it says; a reference, and what is
no mapping, tells nothing. -/
inductive Tells (s : Document) : Info → Prop
  | nothing : (s.entries? = none ∨ ∃ ref, s.fieldText? "$ref" = some ref) → Tells s .none
  | all {i} : s.entries?.isSome = true → s.fieldText? "$ref" = none → i.IsOf s → Tells s i

theorem tells_of_direct {s : Document} {t : TypeExpr} (h : direct? s = some t) :
    Tells s t.info ∧ ∃ name, t = .identifier .none name ∧ IsMappedName name := by
  unfold direct? at h
  split at h
  · rename_i hs
    cases h
    exact ⟨.nothing (.inl (by simpa using hs)), _, rfl, .basic (by decide)⟩
  · obtain ⟨ref, href, rfl⟩ := Option.map_eq_some_iff.mp h
    exact ⟨.nothing (.inr ⟨ref, href⟩), _, rfl, isMappedName_reference ref⟩

theorem tells_info {s : Document} (h : direct? s = none) : Tells s (info s) := by
  unfold direct? at h
  split at h
  · cases h
  · rename_i hs
    exact .all (by simpa [Option.isSome_iff_ne_none] using hs) (Option.map_eq_none_iff.mp h) (isOf_info s)

/-! ## Parts of a type -/

namespace Call

/-- The type is what a call made for `c` comes to. It tells what the schema of that call says, whose fields,
its kind aside, are those of a mapping inside the schema of `c`. -/
def Makes (c : Call) (t : TypeExpr) : Prop :=
  ∃ c', c.Reaches c' ∧ c'.run.result = .ok t ∧ Tells c'.schema t.info ∧
    (c'.schema.entries?.isSome = true → ∃ m, c.schema.Inside m ∧ c'.schema.IsKindOf m)

/-- What stands in the type that a call comes to. -/
inductive Yields (c : Call) : TypeExpr → Prop
  | identifier {i name} : IsMappedName name → c.Makes (.identifier i name) →
      Yields c (.identifier i name)
  | literal {value} : c.schema.Enumerates value → Yields c (.literal .none value)
  | array {t} : Yields c (.array .none t)
  | union {ts} : Yields c (.union .none ts)
  | intersection {ts} : Yields c (.intersection .none ts)
  | object {i ps required} : (∀ name ∈ required, name ∈ ps.map (·.1)) →
      c.Makes (.object i ps required) → Yields c (.object i ps required)

variable {c c' : Call}

theorem exists_inside_of_reaches (h : c.Reaches c') (hmap : c'.schema.entries?.isSome = true) :
    ∃ m, c.schema.Inside m ∧ c'.schema.IsKindOf m := by
  let found (x : Document) : Prop :=
    x.entries?.isSome = true → ∃ m, c.schema.Inside m ∧ x.IsKindOf m
  have hereditary : Document.Hereditary fun d => ∀ x, d.Inside x → found x := by
    refine Document.hereditary_inside nofun ?_
    intro d entries hentries hd v _
    obtain ⟨m, hm, hkind⟩ := hd (by rw [Document.entries?, hentries]; rfl)
    exact ⟨m, hm, hkind.setField hentries v⟩
  have hall : ∀ x, c'.schema.Inside x → found x := by
    clear hmap
    induction h with
    | refl => exact fun x hx _ => ⟨x, hx, fun _ _ => rfl⟩
    | tail _ hcall ih =>
      obtain ⟨_, p, hp, rfl⟩ := hcall
      exact parts_of_hereditary hereditary ih p hp
  exact hall _ .self hmap

theorem makes_of_reaches (h : c.Reaches c') {t : TypeExpr} (ht : c'.run.result = .ok t)
    (htells : Tells c'.schema t.info) : c.Makes t :=
  ⟨c', h, ht, htells, exists_inside_of_reaches h⟩

theorem enumerates_of_reaches (h : c.Reaches c') {values : List Document}
    (hvalues : (c'.schema.field "enum").items? = some values) :
    ∀ value ∈ values, c.schema.Enumerates value := by
  intro value hvalue
  have hmap : c'.schema.entries?.isSome = true := by
    obtain ⟨entries, hentries⟩ := Document.exists_map_of_items? hvalues
    rw [Document.entries?, hentries]
    rfl
  obtain ⟨m, hm, hkind⟩ := exists_inside_of_reaches h hmap
  rw [hkind "enum" (by decide)] at hvalues
  exact ⟨m, values, hm, hvalues, hvalue⟩

end Call

theorem leaf_cases {s : Document} {t : TypeExpr} (h : layer s = .leaf t) :
    (∃ values, (s.field "enum").items? = some values ∧ t = .union .none (values.map (.literal .none))) ∨
      ∃ name, IsMappedName name ∧ t = .identifier (info s) name := by
  unfold layer at h
  split at h
  · rename_i values hvalues
    cases h
    exact .inl ⟨values, hvalues, rfl⟩
  right
  split at h
  · cases h
  split at h
  · cases h
  split at h
  · cases h
  split at h
  · cases h
    exact ⟨_, .basic (by decide), rfl⟩
  · cases h
  · split at h
    · cases h
      exact exists_mappedName_unopened s
    · cases h
  · cases h
    exact exists_mappedName_unopened s

theorem info_of_layer_eq_object {s : Document} {i : Info} {entries : List (Scalar × Document)}
    {required : List String} (h : layer s = .object i entries required) : i = info s := by
  unfold layer at h
  split at h
  · cases h
  split at h
  · cases h
  split at h
  · cases h
  split at h
  · cases h
  split at h
  · cases h
  · cases h
  · split at h
    · cases h
    · cases h
      rfl
  · cases h

namespace Call

variable {c c' : Call} {u : TypeExpr}

theorem every_yields_of_not_opens (hreaches : c.Reaches c') (hopens : ¬ c'.Opens)
    (hu : c'.run.result = .ok u) : u.Every c.Yields := by
  cases hdirect : direct? c'.schema with
  | some v =>
    have hv : c'.run.result = .ok v := by
      rw [run_direct hdirect]
      rfl
    obtain rfl : u = v := Except.ok.inj (hu.symm.trans hv)
    obtain ⟨htells, name, rfl, hname⟩ := tells_of_direct hdirect
    exact .identifier hname (makes_of_reaches hreaches hu htells)
  | none =>
    have hv : c'.run.result = .ok (unopened c'.schema) := by
      rw [run_bounded hdirect hopens]
      rfl
    obtain ⟨name, hname, hunopened⟩ := exists_mappedName_unopened c'.schema
    obtain rfl : u = .identifier (info c'.schema) name :=
      (Except.ok.inj (hu.symm.trans hv)).trans hunopened
    exact .identifier hname (makes_of_reaches hreaches hu (tells_info hdirect))

theorem every_yields_of_opens (hreaches : c.Reaches c') (hopens : c'.Opens)
    (hu : c'.run.result = .ok u) (hinner : ∀ p ∈ (layer c'.schema).parts, ∀ v,
      (c'.inner p).run.result = .ok v → v.Every c.Yields) : u.Every c.Yields := by
  have hbuilt := Layer.build_eq_ok.mp (run_opens hopens ▸ hu)
  have htells := tells_info hopens.direct
  -- the parts of a layer are the next calls of the mapper
  have hmembers : ∀ {ps ts}, List.Forall₂ (fun p v => (c'.inner p).run.result = .ok v) ps ts →
      (∀ p ∈ ps, p ∈ (layer c'.schema).parts) → ∀ t ∈ ts, t.Every c.Yields := fun hts hps =>
    forall_of_forall₂_imp (hts.imp fun p v hv hp => hinner p hp v hv) hps
  generalize hlayer : layer c'.schema = l at hbuilt hinner hmembers
  cases hbuilt with
  | leaf t =>
    rcases leaf_cases hlayer with ⟨values, hvalues, rfl⟩ | ⟨name, hname, rfl⟩
    · refine ⟨.union, TypeExpr.everyMember_iff.mpr (List.forall_mem_map.mpr fun value hvalue => ?_)⟩
      exact .literal (enumerates_of_reaches hreaches hvalues value hvalue)
    · exact .identifier hname (makes_of_reaches hreaches hu htells)
  | union hts => exact ⟨.union, TypeExpr.everyMember_iff.mpr (hmembers hts fun _ hp => hp)⟩
  | intersection hts =>
    exact ⟨.intersection, TypeExpr.everyMember_iff.mpr (hmembers hts fun _ hp => hp)⟩
  | array hp => exact ⟨.array, hinner _ (List.mem_singleton_self _) _ hp⟩
  | @object i entries ps required hps =>
    -- the call that built the object is one that `c` reaches
    have hmakes : c.Makes (.ofProperties i ps required) := by
      refine makes_of_reaches hreaches hu ?_
      show Tells c'.schema i
      rwa [info_of_layer_eq_object hlayer]
    have hrequired : ∀ name ∈ required.filter (Table.has (Table.ofList ps)),
        name ∈ (Table.ofList ps).map (·.1) := by
      intro name hname
      obtain ⟨p, hp, heq⟩ := List.any_eq_true.mp (List.mem_filter.mp hname).2
      exact List.mem_map.mpr ⟨p, hp, eq_of_beq heq⟩
    refine ⟨.object hrequired hmakes, TypeExpr.everyProperty_iff.mpr (Table.forall_ofList ?_)⟩
    exact forall_of_forall₂_imp (hps.imp fun e p hp he => hinner e.2 he p.2 hp.2)
      fun e he => List.mem_map_of_mem he

/-- Whatever a schema is mapped to, and wherever that stands, each part of the type is one of those that
the call yields: there are no generics, names are those of basic types or of components, required names are
names of properties, literals are listed in the schema, and only identifiers and objects tell anything,
which is what the mapping says that they are made for. -/
theorem every_yields_run {c : Call} {t : TypeExpr} (h : c.run.result = .ok t) : t.Every c.Yields := by
  suffices hall : ∀ c', c.Reaches c' → ∀ u, c'.run.result = .ok u → u.Every c.Yields from
    hall c Relation.ReflTransGen.refl t h
  intro c'
  induction c' using Call.induction with
  | step c' ih =>
    intro hreaches u hu
    by_cases hopens : c'.Opens
    · exact every_yields_of_opens hreaches hopens hu fun p hp =>
        ih hopens p hp (hreaches.tail ⟨hopens, p, hp, rfl⟩)
    · exact every_yields_of_not_opens hreaches hopens hu

end Call

/-- A schema that stands inside itself, with a list of kinds, listed values of several sorts, and a
reference; it requires a name that no property has. -/
def personSchema : Document where
  cells := #[.map [(.text "type", .scalar (.text "object")),
    (.text "description", .scalar (.text "A person")), (.text "properties", .map [(.text "parent", .link 0),
      (.text "name", .map [(.text "type", .seq [.scalar (.text "string"), .scalar (.text "null")]),
        (.text "nullable", .scalar (.bool true)), (.text "example", .scalar (.text "Ada"))]),
      (.text "state", .map [(.text "enum", .seq [.scalar (.int 1), .scalar .null, .map []])]),
      (.text "home", .map [(.text "$ref", .scalar (.text "#/components/schemas/Home address"))])]),
    (.text "required", .seq [.scalar (.text "name"), .scalar (.int 3), .scalar (.text "ghost")])]]
  here := .link 0

def personCall : Call := ⟨2, [7], personSchema⟩

def personText : String :=
  "\x7b\n/**\n * A person\n */\n    parent?: \x7b [key: string]: any \x7d;\n    name: string | null;\n" ++
    "    state?: 1 | null | \x7b\x7d;\n    home?: Components.Schemas.Home_address;\n\x7d"

theorem every_yields_person : ∃ t, personCall.run.result = .ok t ∧ t.declared = personText ∧
    t.Every personCall.Yields := by
  have htext : personCall.run.result.map TypeExpr.declared = .ok personText := by decide +kernel
  obtain ⟨t, h⟩ : ∃ t, personCall.run.result = .ok t := Run.exists_of_isOk (by decide +kernel)
  rw [h] at htext
  exact ⟨t, h, Except.ok.inj htext, Call.every_yields_run h⟩

end Schema

end ApiTypes
