import ApiTypes.Proofs.ModuleMentions

/-!
# Resolution of references

Components and references to them agree on names. A reference whose last segment is the key of a schema
names the component of that key, so where all references of a document are of this form, a module
mentions no component that it does not declare, unless a text of the document breaks out of its place.
-/

namespace ApiTypes

/-! ## Types of schemas -/

namespace TypeExpr

theorem refers_identifier {D : String → Prop} {i : Info} {name : String}
    (h : ∀ n, name = componentPath n → D n) : (identifier i name).Refers D := by
  intro j n hn
  cases hn
  exact h n rfl

theorem refers_basic {D : String → Prop} {i : Info} {name : String}
    (h : name ∈ primitives ∨ name = openMap) : (identifier i name).Refers D := by
  refine refers_identifier fun n hn => ?_
  subst hn
  rcases h with h | h
  · exact absurd h (componentPath_notMem n)
  · exact absurd h (componentPath_ne_openMap n)

end TypeExpr

namespace Schema

theorem refers_unopened (D : String → Prop) (s : Document) : (unopened s).Refers D := by
  obtain ⟨name, hname, hs⟩ := exists_unopened s
  have hbasic : ∀ name ∈ ["string", "number", "boolean", "any", TypeExpr.openMap],
      name ∈ TypeExpr.primitives ∨ name = TypeExpr.openMap := by decide
  rw [hs]
  exact TypeExpr.refers_basic (hbasic name hname)

theorem refers_typeAt {Q : Document → Prop} (hQ : Document.Hereditary Q) {D : String → Prop}
    (href : ∀ {d ref}, Q d → d.fieldText? "$ref" = some ref →
      D (Name.sanitize (Name.lastSegment ref))) {room : Nat} {depth : Int} {outer : List Nat}
    {s : Document} {t : TypeExpr} (h : (typeAt room depth outer s).result = .ok t) (hs : Q s) :
    t.Refers D := by
  -- `Q` is inherited by every part that is opened
  refine typeAt_induction (motive := fun s t => Q s → t.Refers D) ?_ h hs
  intro s t h hs
  cases h with
  | any _ => exact TypeExpr.refers_basic (.inl (by decide))
  | reference hr =>
    refine TypeExpr.refers_identifier fun n hn => ?_
    rw [← componentName_path n, ← hn, componentName_path]
    exact href hs hr
  | unopened => exact refers_unopened D s
  | literals _ =>
    refine ⟨by simp, TypeExpr.everyMember_iff.mpr ?_⟩
    intro t ht
    obtain ⟨value, _, rfl⟩ := List.mem_map.mp ht
    intro i name hname
    cases hname
  | union hparts hts =>
    exact ⟨by simp, TypeExpr.everyMember_iff.mpr (forall_of_forall₂_imp hts (hQ.parts hs hparts))⟩
  | intersection hparts hts =>
    exact ⟨by simp, TypeExpr.everyMember_iff.mpr (forall_of_forall₂_imp hts (hQ.parts hs hparts))⟩
  | null => exact TypeExpr.refers_basic (.inl (by decide))
  | array ht => exact ⟨by simp, ht (hQ.field hs _)⟩
  | object required hentries hps =>
    refine ⟨by simp, TypeExpr.everyProperty_iff.mpr (Table.forall_ofList ?_)⟩
    have hin := hQ.entries (hQ.field hs _) hentries
    exact forall_of_forall₂_imp (hps.imp fun _ _ h => h.2) hin

end Schema

/-! ## Documents -/

namespace Component

def IsReferenceTo (components : Document) (ref : String) : Prop :=
  ∃ front key, ref = front ++ "/" ++ key ∧ key ≠ "" ∧ '/' ∉ key.toList ∧
    Scalar.text key ∈ (schemaEntries components).map (·.1)

theorem mem_names_of_isReferenceTo {components : Document} {cs : List Component}
    (htext : ∀ e ∈ schemaEntries components, ∃ k, e.1 = .text k)
    (h : (collect components).result = .ok cs) {ref : String} (href : IsReferenceTo components ref) :
    Name.sanitize (Name.lastSegment ref) ∈ cs.map (·.name) := by
  obtain ⟨front, key, rfl, hne, hslash, hkey⟩ := href
  obtain ⟨e, he, hkey⟩ := List.mem_map.mp hkey
  rw [Name.lastSegment_append hne hslash]
  have hname := mem_names_collect htext h he
  rwa [hkey] at hname

end Component

namespace Document

def RefersTo (d components : Document) : Prop :=
  ∀ x, d.Inside x → ∀ ref, x.fieldText? "$ref" = some ref → Component.IsReferenceTo components ref

theorem hereditary_refersTo (components : Document) :
    Hereditary fun d => d.RefersTo components := by
  refine hereditary_inside (fun d ref href => by cases href) ?_
  intro d entries hmap h v ref href
  have hcells : (d.setField "type" v).moveTo = d.moveTo := by
    rw [setField, hmap]
    rfl
  rw [fieldText?, field, field?_setField_of_ne hmap (by decide), hcells] at href
  exact h ref href

section
variable {components : Document}

theorem refersTo_scalar (s : Scalar) : (ofValue (.scalar s)).RefersTo components :=
  forall_inside_scalar rfl fun _ href => by cases href

theorem refersTo_map {entries : List (Scalar × Value)}
    (hnone : (ofValue (.map entries)).fieldText? "$ref" = none)
    (hentries : ∀ e ∈ entries, (ofValue e.2).RefersTo components) :
    (ofValue (.map entries)).RefersTo components := by
  refine forall_inside_map rfl (fun ref href => ?_) hentries
  rw [hnone] at href
  cases href

theorem refersTo_entry {key : String} {v : Value}
    (hnone : (ofValue (.map [(.text key, v)])).fieldText? "$ref" = none)
    (hv : (ofValue v).RefersTo components) :
    (ofValue (.map [(.text key, v)])).RefersTo components :=
  refersTo_map hnone (List.forall_mem_singleton.mpr hv)

theorem refersTo_reference {ref : String} (h : Component.IsReferenceTo components ref) :
    (ofValue (.map [(.text "$ref", .scalar (.text ref))])).RefersTo components := by
  refine forall_inside_map rfl (fun ref href => ?_)
    (List.forall_mem_singleton.mpr (refersTo_scalar _))
  cases href
  exact h

end

end Document

/-! ## Modules -/

namespace Api

/-- Every component that a text of the module mentions is declared in the module, and so is the constant
of every component that a validator mentions. Texts of the document that are put between them mention
nothing as long as they stay where they are put. -/
structure Resolves (api : Api) : Prop where
  type : ∀ t, api.Writes t →
    ∀ n ∈ Lexeme.mentions (Lexeme.ofText t.declared), n ∈ api.components.map (·.name)
  rootAlias : ∀ c ∈ api.components,
    ∀ n ∈ Lexeme.mentions (Lexeme.ofText c.rootAlias), n ∈ api.components.map (·.name)
  validator : ∀ n ∈ Lexeme.mentions (Lexeme.ofText (Component.validatorsText api.components)),
    n ∈ Component.constants api.components
  response : ∀ n ∈ Lexeme.mentions (Lexeme.ofText
    (Operation.validatorTableText (Operation.lastPerId api.operations))),
      n ∈ Component.constants api.components
  module : api.StaysInPlace → ∀ validators text, (api.typings validators).result = .ok text →
    ∀ n ∈ Lexeme.mentions (Lexeme.ofText text),
      n ∈ api.components.map (·.name) ∨ validators = true ∧ n ∈ Component.constants api.components

theorem mem_constants {cs : List Component} (hnodup : (cs.map (·.name)).Nodup) {n : String}
    (h : TypeExpr.IsConstantOf (· ∈ cs.map (·.name)) n) : n ∈ Component.constants cs := by
  obtain ⟨name, hname, rfl⟩ := h
  obtain ⟨c, hc, rfl⟩ := List.mem_map.mp hname
  exact (Component.constants_perm hnodup).mem_iff.mpr (List.mem_map_of_mem hc)

section
variable {d : Document} {keep : Bool} {api : Api}
  (htext : ∀ e ∈ Component.schemaEntries (d.field "components"), ∃ k, e.1 = .text k)
  (hrefers : d.RefersTo (d.field "components"))
  (h : (Api.read d keep).result = .ok api)
include htext hrefers h

theorem closed_read : api.Closed (· ∈ api.components.map (·.name)) := by
  obtain ⟨_, hops, hcs⟩ := read_eq_ok.mp h
  have hQ := Document.hereditary_refersTo (d.field "components")
  have href : ∀ {x : Document} {ref}, x.RefersTo (d.field "components") →
      x.fieldText? "$ref" = some ref →
        Name.sanitize (Name.lastSegment ref) ∈ api.components.map (·.name) :=
    fun hx href => Component.mem_names_of_isReferenceTo htext hcs (hx _ .self _ href)
  -- every schema of the document gives a type whose names are components
  have htype : ∀ {s : Document} {t}, s.RefersTo (d.field "components") →
      (Schema.typeOf s).result = .ok t →
        t.HasTypeNames ∧ t.Refers (· ∈ api.components.map (·.name)) :=
    fun hs ht => ⟨Schema.hasTypeNames_typeAt ht, Schema.refers_typeAt hQ href ht hs⟩
  have htaken := Operation.takenFrom_collect hQ hops
    fun x hx y hy => hrefers y (hx.trans hy)
  refine ⟨fun c hc => List.mem_map_of_mem hc, fun t ht => ?_, fun op hop name hname => ?_⟩
  · cases ht with
    | component hc =>
      obtain ⟨s, hs, ht⟩ := Component.exists_schema_of_collect hQ hcs (hQ.field hrefers _) _ hc
      exact htype hs ht
    | operation hop ht =>
      have htaken := htaken _ (Operation.mem_of_mem_lastPerId hop)
      cases ht with
      | parameter hp =>
        obtain ⟨s, hs, ht⟩ := htaken.parameter _ hp
        exact htype hs ht
      | body hb =>
        obtain ⟨s, hs, ht⟩ := htaken.body _ hb
        exact htype hs ht
      | media hr hm ht =>
        unfold Operation.mediaType at ht
        split at ht
        · cases ht
          exact ⟨Schema.hasTypeNames_identifier (.primitive (by decide)),
            TypeExpr.refers_basic (.inl (by decide))⟩
        · exact htype (htaken.media _ hr _ hm) ht
  · obtain ⟨r, hr, m, hm, ref, hmref, rfl⟩ := Operation.exists_of_successComponent? hname
    exact href ((htaken op (Operation.mem_of_mem_lastPerId hop)).media r hr m hm) hmref

theorem resolves_read : api.Resolves := by
  have hclosed := closed_read htext hrefers h
  obtain ⟨_, hops, hcs⟩ := read_eq_ok.mp h
  obtain ⟨hread, hnodup⟩ := Component.readFrom_readEntries hcs
  have hfrom : ∀ c ∈ api.components, ∃ e, Component.ReadFrom e c := by
    intro c hc
    obtain ⟨⟨e, _, he⟩, _⟩ := hread c hc
    exact ⟨e, he⟩
  have hcomponents : ∀ c ∈ api.components, c.HasNames := by
    intro c hc
    obtain ⟨e, he⟩ := hfrom c hc
    exact Component.hasNames_readFrom he
  have hnames := Operation.hasNames_collect hops
  refine ⟨fun t ht => ?_, fun c hc => ?_, fun n hn => ?_, fun n hn => ?_,
    fun hplace validators text htext n hn => ?_⟩
  · obtain ⟨hnames, hrefers⟩ := hclosed.type t ht
    exact (TypeExpr.resolved_declared hnames hrefers).mentions
  · exact (Component.resolved_rootAlias (D := (· ∈ api.components.map (·.name)))
      (hcomponents c hc).1 (hclosed.component c hc)).mentions
  · have hresolved := Component.resolved_validatorsText hcomponents
      fun c hc => (hclosed.type _ (.component hc)).2
    exact mem_constants hnodup (hresolved.mentions n hn)
  · have hresolved := Operation.resolved_validatorTableText
      (fun op hop => hnames op (Operation.mem_of_mem_lastPerId hop)) hclosed.success
    exact mem_constants hnodup (hresolved.mentions n hn)
  · have hresolved := resolved_typings hfrom hnames hclosed hplace htext
    exact (hresolved.mentions n hn).imp_right (And.imp_right (mem_constants hnodup))

end

end Api

/-- Components are collected unless a key inside them has too many digits, and they agree on names with the
references to them: in the types of schemas, in the table of response validators, and so in a module as a
whole. -/
theorem Component.references_resolve {components : Document}
    (htext : ∀ e ∈ schemaEntries components, ∃ k, e.1 = .text k) :
    ((∃ cs, (collect components).result = .ok cs) ↔ ∀ e, IsFirst (schemaEntries components) e →
      (Schema.Call.mk 0 [] e.2).KeysFit) ∧
    (∀ f, (collect components).result = .error f → f = .unwritable .tooLong) ∧
    (∀ cs, (collect components).result = .ok cs → Registered components cs ∧
      ∀ ref, IsReferenceTo components ref → ∃ name ∈ cs.map (·.name),
        (∀ s : Document, s.fieldText? "$ref" = some ref → ∀ room depth outer,
          (Schema.typeAt room depth outer s).result =
            .ok (.identifier .none (componentPath name))) ∧
        ∀ (op : Operation) r m rest,
          op.responses.find? (fun r => Operation.isSuccess r.1) = some r →
          r.2.content = some (m :: rest) → m.2.schema.fieldText? "$ref" = some ref →
          op.successComponent? = some name) ∧
    ∀ d keep api, d.field "components" = components → d.RefersTo components →
      (Api.read d keep).result = .ok api → api.Resolves := by
  refine ⟨exists_collect_iff htext, fun f h => collect_eq_error htext h,
    fun cs h => ⟨registered_collect htext h, fun ref href => ?_⟩, ?_⟩
  · refine ⟨_, mem_names_of_isReferenceTo htext h href, fun s hs room depth outer => ?_,
      fun op r m rest hr hm href => Operation.successComponent?_eq hr hm href⟩
    rw [Schema.typeAt_reference hs]
    rfl
  · rintro d keep api rfl hrefers h
    exact Api.resolves_read htext hrefers h

def ownersDocument : Document :=
  let owners : Value := .map [(.text "$ref", .scalar (.text "#/components/schemas/Pet Owner"))]
  .ofValue (.map [
    (.text "components", .map [(.text "schemas", .map [
      (.text "Pet Owner", .map [(.text "type", .scalar (.text "array")), (.text "items", owners)]),
      (.text "Pet_Owner", .map [])])]),
    (.text "paths", .map [(.text "/owners", .map [(.text "get", .map [
      (.text "operationId", .scalar (.text "listOwners")),
      (.text "responses", .map [(.text "200", .map [
        (.text "content", .map [(.text "json", .map [(.text "schema", owners)])])])])])])])])

theorem refersTo_owners : ownersDocument.RefersTo (ownersDocument.field "components") := by
  have howners : (Document.ofValue (.map [(.text "$ref",
      .scalar (.text "#/components/schemas/Pet Owner"))])).RefersTo
        (ownersDocument.field "components") :=
    Document.refersTo_reference ⟨"#/components/schemas", "Pet Owner", by decide, by decide,
      by decide, List.mem_cons_self⟩
  have hschema : (Document.ofValue (.map [(.text "schema", .map [(.text "$ref",
      .scalar (.text "#/components/schemas/Pet Owner"))])])).RefersTo
        (ownersDocument.field "components") := Document.refersTo_entry rfl howners
  refine Document.refersTo_map rfl (List.forall_mem_cons.mpr ⟨?_, List.forall_mem_singleton.mpr ?_⟩)
  · refine Document.refersTo_entry rfl (Document.refersTo_map rfl (List.forall_mem_cons.mpr
      ⟨Document.refersTo_map rfl (List.forall_mem_cons.mpr ⟨Document.refersTo_scalar _, ?_⟩),
        List.forall_mem_singleton.mpr (Document.refersTo_map rfl (List.forall_mem_nil _))⟩))
    exact List.forall_mem_singleton.mpr howners
  · refine Document.refersTo_entry rfl (Document.refersTo_entry rfl (Document.refersTo_map rfl
      (List.forall_mem_cons.mpr ⟨Document.refersTo_scalar _, List.forall_mem_singleton.mpr ?_⟩)))
    exact Document.refersTo_entry rfl (Document.refersTo_entry rfl
      (Document.refersTo_entry rfl hschema))

theorem references_resolve_owners : ∃ api,
    (Api.read ownersDocument false).result = .ok api ∧
    api.components.map (·.name) = ["Pet_Owner"] ∧
    Component.Registered (ownersDocument.field "components") api.components ∧ api.Resolves := by
  let owner : Component :=
    ⟨"Pet_Owner", .array .none (.identifier .none "Components.Schemas.Pet_Owner"), none⟩
  have hcomponents : (Component.collect (ownersDocument.field "components")).result =
      .ok [owner] := by cbv
  let blank : Document := .ofValue .null
  let owners : Document :=
    .ofValue (.map [(.text "$ref", .scalar (.text "#/components/schemas/Pet Owner"))])
  let response : Response := ⟨none, blank, some [("json", ⟨owners, blank, blank, blank⟩)]⟩
  let op : Operation :=
    ⟨"listOwners", "/owners", "get", "listOwners", none, [], none, [("200", response)]⟩
  have hoperations : (Operation.collect ownersDocument false).result = .ok [op] := by cbv
  have h : (Api.read ownersDocument false).result = .ok ⟨[owner], [op]⟩ :=
    Api.read_eq_ok.mpr ⟨rfl, hoperations, hcomponents⟩
  have htext : ∀ e ∈ Component.schemaEntries (ownersDocument.field "components"),
      ∃ k, e.1 = .text k :=
    List.forall_mem_cons.mpr ⟨⟨_, rfl⟩, List.forall_mem_singleton.mpr ⟨_, rfl⟩⟩
  obtain ⟨_, _, hregistered, hresolves⟩ := Component.references_resolve htext
  exact ⟨_, h, rfl, (hregistered _ hcomponents).1, hresolves _ _ _ rfl refersTo_owners h⟩

def longKeyedComponents : Document :=
  .ofValue (.map [(.text "schemas", .map [(.text "Pet", Schema.Call.longKeyed.schema.here)])])

/-- A description that ends its comment, and behind that end a type of no component. -/
def piercedComponents : Document :=
  .ofValue (.map [(.text "schemas", .map [(.text "Pet", .map [
    (.text "description", .scalar (.text "*/ Components.Schemas.Owner | /*"))])])])

theorem refersTo_pierced : piercedComponents.RefersTo piercedComponents :=
  Document.refersTo_entry rfl (Document.refersTo_entry rfl (Document.refersTo_entry rfl
    (Document.refersTo_scalar _)))

theorem Component.not_references_resolve :
    ((∀ e ∈ schemaEntries longKeyedComponents, ∃ k, e.1 = .text k) ∧
      ¬ ∃ cs, (collect longKeyedComponents).result = .ok cs) ∧
    piercedComponents.RefersTo piercedComponents ∧
      ∃ cs, (collect piercedComponents).result = .ok cs ∧ cs.map (·.name) = ["Pet"] ∧
        "Owner" ∈ Lexeme.mentions (Lexeme.ofText (declarationsText cs false)) := by
  constructor
  · have htext : ∀ e ∈ schemaEntries longKeyedComponents, ∃ k, e.1 = .text k :=
      List.forall_mem_singleton.mpr ⟨_, rfl⟩
    have hentries : schemaEntries longKeyedComponents =
      [(.text "Pet", Schema.Call.longKeyed.schema)] := rfl
    refine ⟨htext, fun h => Schema.Call.not_keysFit_longKeyed ?_⟩
    exact (exists_collect_iff htext).mp h _ (hentries ▸ isFirst_cons.mpr (.inl rfl))
  · have hcollect : (collect piercedComponents).result = .ok [⟨"Pet",
      .identifier ⟨some "*/ Components.Schemas.Owner | /*", none, false⟩ "any",
      some "*/ Components.Schemas.Owner | /*"⟩] := by cbv
    exact ⟨refersTo_pierced, _, hcollect, rfl, by decide +kernel⟩

end ApiTypes
