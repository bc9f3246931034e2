import Mathlib.Data.List.Nodup
import ApiTypes.Proofs.ComponentNames
import ApiTypes.Proofs.Declarations
import ApiTypes.Proofs.DeclaredNames
import ApiTypes.Proofs.Keyed
import ApiTypes.Proofs.ParameterKeys

/-!
# Names that clash

No scope of a module declares one name twice, apart from four ways in which names of a document become
one: a component has the name of a fixed type, two ids differ in the case of their first letter, two
statuses differ behind a character that no name has, or two parameters of an operation have one key.
-/

namespace ApiTypes

/-! ## Ids -/

namespace Name

def SameButFirstCase (s t : String) : Prop :=
  s.toList.head?.map Char.toUpper = t.toList.head?.map Char.toUpper ∧ s.toList.tail = t.toList.tail

instance (s t : String) : Decidable (SameButFirstCase s t) := inferInstanceAs (Decidable (_ ∧ _))

theorem capitalize_eq_iff {s t : String} (hs : ∀ c ∈ s.toList, isWordChar c = true)
    (ht : ∀ c ∈ t.toList, isWordChar c = true) :
    capitalize s = capitalize t ↔ SameButFirstCase s t := by
  have hlist : ∀ {s : String}, (∀ c ∈ s.toList, isWordChar c = true) → (capitalize s).toList =
      (s.toList.head?.map Char.toUpper).toList ++ s.toList.tail := by
    intro s hs
    cases h : s.toList with
    | nil =>
      unfold capitalize
      rw [h]
      rfl
    | cons c cs =>
      rw [h] at hs
      exact capitalize_toList h (hs c List.mem_cons_self)
  rw [← String.toList_inj, hlist hs, hlist ht, SameButFirstCase]
  cases s.toList <;> cases t.toList <;> simp

end Name

/-! ## Scopes of a module -/

namespace Api

def fixedTypes : List String :=
  ["OperationMethods", "PathsDictionary", "ImplicitParamValue", "UnknownParamsObject", "SingleParam",
    "Parameters", "OperationResponse", "AxiosRequestConfig"]

def fixedTexts (ops : List Operation) : List String :=
  [Operation.methodsText ops, Operation.dictionaryText ops] ++
    (Text.pieces (· == '\n') tailText.toList).map String.ofList

theorem declaredName?_interface {opening name : String}
    (hopening : opening = "export interface " ++ name ++ " \x7b\n")
    (hname : ∀ c ∈ name.toList, Lexeme.isNameChar c = true) (body : String) :
    declaredName? (opening ++ body) = some name := by
  rw [hopening, String.append_assoc, String.append_assoc]
  exact declaredName?_of_name "interface" (by decide) rfl hname (by simp [Lexeme.isNameChar])

theorem declaredNames_fixedTexts (ops : List Operation) :
    declaredNames (fixedTexts ops) = fixedTypes := by
  have hmethods : declaredName? (Operation.methodsText ops) = some "OperationMethods" := by
    unfold Operation.methodsText
    rw [String.append_assoc]
    exact declaredName?_interface (by decide) (by simp [Lexeme.isNameChar]) _
  have hdictionary : declaredName? (Operation.dictionaryText ops) = some "PathsDictionary" := by
    unfold Operation.dictionaryText
    rw [String.append_assoc]
    exact declaredName?_interface (by decide) (by simp [Lexeme.isNameChar]) _
  have htail : ((Text.pieces (· == '\n') tailText.toList).map String.ofList).filterMap declaredName? =
      fixedTypes.drop 2 := by
    have hread : declaredName? ∘ String.ofList = nameDeclared? :=
      funext fun cs => congrArg nameDeclared? String.toList_ofList
    rw [List.filterMap_map, hread, tailText, String.toList_intercalate]
    decide +kernel
  rw [declaredNames, fixedTexts, List.filterMap_append, htail, List.filterMap_cons_some hmethods,
    List.filterMap_cons_some hdictionary]
  rfl

/-- No two declarations of one scope are read to declare one name. -/
structure NoClash (api : Api) : Prop where
  rootTypes : (declaredNames (api.components.map Component.rootAlias ++
    fixedTexts (Operation.lastPerId api.operations))).Nodup
  componentTypes : (declaredNames (api.components.map Component.uncommented)).Nodup
  constants : (declaredNames ((Component.validatorDeclarations api.components).map
    Component.ValidatorDeclaration.text)).Nodup
  namespaces : ∀ texts,
    ((Operation.lastPerId api.operations).mapM Operation.pathNamespace).result = .ok texts →
      (declaredNames texts).Nodup
  parameterAliases : ∀ op ∈ Operation.lastPerId api.operations,
    (declaredNames ((Parameter.aliases op.allParameters).map Parameter.Alias.text)).Nodup
  responseAliases : ∀ op ∈ Operation.lastPerId api.operations, ∀ aliases,
    (op.responses.mapM fun r => Operation.responseAlias r.1 r.2).result = .ok aliases →
      (declaredNames (aliases.map Operation.ResponseAlias.declaration)).Nodup
  members : ((Operation.lastPerId api.operations).map fun op =>
    (Lexeme.ofText op.uncommented).head?).Nodup
  fields : ∀ op ∈ Operation.lastPerId api.operations, ∀ r ∈ op.parameterRecords,
    (r.2.map fun p => (Lexeme.ofText p.field).head?).Nodup

end Api

/-! ## Names of a document -/

namespace Operation

def writtenEntries (keep : Bool) (d : Document) : List (String × Entry) :=
  (Table.ofList ((accepted keep (entriesIn d)).map fun a => (a.1, a))).map (·.2)

structure ReadFrom (a : String × Entry) (op : Operation) : Prop where
  id : op.id = a.1
  parameters : (Parameter.readAll (a.2.item.field "parameters")
    (a.2.operation.field "parameters")).result = .ok op.parameters
  responses : (readResponses (a.2.operation.field "responses")).result = .ok op.responses

theorem readFrom_readEntry {a : String × Entry} {op : Operation}
    (h : (readEntry a).result = .ok op) : ReadFrom a op := by
  obtain ⟨hid, _, _, hparameters, _, hresponses⟩ := readEntry_eq_ok h
  exact ⟨hid, hparameters, hresponses⟩

theorem readFrom_collect {d : Document} {keep : Bool} {ops : List Operation}
    (h : (collect d keep).result = .ok ops) :
    List.Forall₂ ReadFrom (writtenEntries keep d) (lastPerId ops) := by
  have hkeyed : Table.Matches ReadFrom
      ((accepted keep (entriesIn d)).map fun a => (a.1, a)) (ops.map fun op => (op.id, op)) := by
    rw [Table.Matches, List.forall₂_map_left_iff, List.forall₂_map_right_iff]
    refine (forall₂_collect h).imp fun a op hop => ?_
    have hfrom := readFrom_readEntry hop
    exact ⟨hfrom.id.symm, hfrom⟩
  rw [writtenEntries, lastPerId, List.forall₂_map_left_iff, List.forall₂_map_right_iff]
  exact hkeyed.ofList.imp fun _ _ h => h.2

end Operation

def Document.keyTexts (d : Document) : List String :=
  (d.entries?.getD []).filterMap fun e => e.1.written.toOption

theorem Operation.mem_statuses_iff {d : Document} {responses : Table String Response}
    (h : (readResponses d).result = .ok responses) (s : String) :
    s ∈ responses.map (·.1) ↔ s ∈ d.keyTexts := by
  obtain ⟨rs, hrs, h⟩ := Run.bind_eq_ok.mp h
  cases h
  have hkeys : d.keyTexts = rs.filterMap fun r => some r.1 := by
    refine filterMap_congr_forall₂ ((Run.mapM_eq_ok.mp hrs).imp fun e r her => ?_)
    obtain ⟨response, _, her⟩ := Run.bind_eq_ok.mp her
    obtain ⟨key, hkey, her⟩ := Run.bind_eq_ok.mp her
    cases her
    rw [Run.ofWritten_eq_ok.mp hkey]
    rfl
  rw [Table.mem_keys_ofList, hkeys, ← List.filterMap_eq_map]
  rfl

/-- Names of a document that must differ do so in the module, too. -/
structure Document.NamesApart (d : Document) (keep : Bool) : Prop where
  components : ∀ e ∈ Component.schemaEntries (d.field "components"),
    Component.keyName e.1 ∉ Api.fixedTypes
  ids : ∀ a ∈ Operation.writtenEntries keep d, ∀ b ∈ Operation.writtenEntries keep d,
    Name.SameButFirstCase a.1 b.1 → a.1 = b.1
  statuses : ∀ a ∈ Operation.writtenEntries keep d,
    ∀ s ∈ (a.2.operation.field "responses").keyTexts,
      ∀ t ∈ (a.2.operation.field "responses").keyTexts, leadingName s = leadingName t → s = t
  parameters : ∀ a ∈ Operation.writtenEntries keep d,
    Parameter.Apart (a.2.item.field "parameters") (a.2.operation.field "parameters")

/-! ## Clashes by scope -/

namespace Component

theorem exists_of_mem_validatorDeclarations {cs : List Component} {v : ValidatorDeclaration}
    (h : v ∈ validatorDeclarations cs) : ∃ c ∈ cs, c.name = v.component := by
  obtain ⟨g, hg, hv⟩ := List.mem_flatMap.mp h
  obtain ⟨c, hc, rfl⟩ := List.mem_map.mp hv
  exact ⟨c, mem_of_mem_groups hg hc, rfl⟩

variable {cs : List Component} (hchars : ∀ c ∈ cs, ∀ d ∈ c.name.toList, Lexeme.isNameChar d = true)
include hchars

theorem nodup_rootTypes_iff (hnodup : (cs.map (·.name)).Nodup) (ops : List Operation) :
    (declaredNames (cs.map rootAlias ++ Api.fixedTexts ops)).Nodup ↔
      ∀ c ∈ cs, c.name ∉ Api.fixedTypes := by
  have hfixed : Api.fixedTypes.Nodup := by decide
  rw [declaredNames, List.filterMap_append, ← declaredNames, ← declaredNames,
    declaredNames_map fun c hc => declaredName?_rootAlias (hchars c hc), Api.declaredNames_fixedTexts,
    List.nodup_append, and_iff_right hnodup, and_iff_right hfixed]
  simp only [List.forall_mem_map]
  exact forall₂_congr fun c _ => ⟨fun h hc => h _ hc rfl, fun h n hn hne => h (hne ▸ hn)⟩

theorem nodup_componentTypes (hnodup : (cs.map (·.name)).Nodup) :
    (declaredNames (cs.map uncommented)).Nodup := by
  rwa [declaredNames_map fun c hc => declaredName?_uncommented (hchars c hc)]

theorem nodup_constants (hnodup : (cs.map (·.name)).Nodup) :
    (declaredNames ((validatorDeclarations cs).map ValidatorDeclaration.text)).Nodup := by
  have hdeclared : ∀ v ∈ validatorDeclarations cs, ∀ d ∈ v.component.toList,
      Lexeme.isNameChar d = true := by
    intro v hv
    obtain ⟨c, hc, hname⟩ := exists_of_mem_validatorDeclarations hv
    exact hname ▸ hchars c hc
  have hinjective : Function.Injective TypeExpr.validatorName := by
    intro s t h
    have hlist := congrArg String.toList h
    rw [TypeExpr.validatorName, TypeExpr.validatorName, String.toList_append,
      String.toList_append] at hlist
    exact String.toList_inj.mp (List.append_cancel_right hlist)
  rw [declaredNames_map fun v hv => declaredName?_constant (hdeclared v hv)]
  refine (constants_perm hnodup).nodup_iff.mpr ?_
  have hnames : (cs.map fun c => TypeExpr.validatorName c.name) =
      (cs.map (·.name)).map TypeExpr.validatorName := by
    rw [List.map_map]
    rfl
  exact hnames ▸ hnodup.map hinjective

end Component

namespace Operation

theorem nodup_namespaces_iff {ops : List Operation} (hops : ∀ op ∈ ops, op.HasNames)
    (hnodup : (ops.map (·.id)).Nodup) {texts : List String}
    (h : (ops.mapM pathNamespace).result = .ok texts) :
    (declaredNames texts).Nodup ↔
      ∀ s ∈ ops.map (·.id), ∀ t ∈ ops.map (·.id), Name.SameButFirstCase s t → s = t := by
  have hnames : declaredNames texts = (ops.map (·.id)).map Name.capitalize := by
    have hread := (List.forall₂_and_left ops texts).mpr ⟨hops, Run.mapM_eq_ok.mp h⟩
    have hscopes : ops.filterMap (fun op => some op.scope) = declaredNames texts :=
      filterMap_congr_forall₂ (hread.imp fun op s hop =>
        (declaredName?_pathNamespace hop.1 hop.2).symm)
    rw [← hscopes, List.map_map, ← List.filterMap_eq_map]
    rfl
  have hchars : ∀ s ∈ ops.map (·.id), ∀ c ∈ s.toList, Name.isWordChar c = true :=
    List.forall_mem_map.mpr fun op hop => (hops op hop).isWordChar_id
  rw [hnames, List.nodup_map_iff_inj_on hnodup]
  exact forall₂_congr fun s hs => forall₂_congr fun t ht => by
    rw [Name.capitalize_eq_iff (hchars s hs) (hchars t ht)]

theorem nodup_parameterAliases {op : Operation} (hop : op.HasNames) :
    (declaredNames ((Parameter.aliases op.allParameters).map Parameter.Alias.text)).Nodup := by
  have hchars : ∀ a ∈ Parameter.aliases op.allParameters, ∀ c ∈ a.name.toList,
      Lexeme.isNameChar c = true := by
    intro a ha
    obtain ⟨p, hp, hname⟩ := Parameter.exists_aliasName_of_mem_aliases ha
    exact hname ▸ hop.isNameChar_aliasName (mem_of_mem_allParameters hp)
  rw [declaredNames_map fun a ha =>
    Parameter.Alias.declaredName?_text (Parameter.ne_nil_of_mem_aliases ha) (hchars a ha)]
  have hkeys := Table.nodup_keys_group (op.allParameters.map fun p =>
    (p.aliasName, p.name, p.type.declared))
  rwa [Parameter.aliases, List.map_map]

theorem nodup_responseAliases_iff {op : Operation} (hop : op.HasNames) {aliases : List ResponseAlias}
    (h : (op.responses.mapM fun r => responseAlias r.1 r.2).result = .ok aliases) :
    (declaredNames (aliases.map ResponseAlias.declaration)).Nodup ↔
      ∀ s ∈ op.responses.map (·.1), ∀ t ∈ op.responses.map (·.1),
        leadingName s = leadingName t → s = t := by
  have hstatuses := statuses_responseAliases h
  have hnames : declaredNames (aliases.map ResponseAlias.declaration) =
      (op.responses.map (·.1)).map fun s => leadingName ("$" ++ s) := by
    rw [declaredNames_map fun a _ => a.declaredName?_declaration, ← hstatuses, List.map_map]
    rfl
  have hdollar : ∀ s t, leadingName ("$" ++ s) = leadingName ("$" ++ t) ↔
      leadingName s = leadingName t := by
    have hcons : ∀ s, leadingName ("$" ++ s) = String.ofList ('$' :: (leadingName s).toList) := by
      intro s
      have hsplit : ("$" ++ s).toList = '$' :: s.toList := String.toList_append
      rw [leadingName, leadingName, hsplit, String.toList_ofList, List.takeWhile_cons_of_pos rfl]
    intro s t
    rw [hcons, hcons, String.ofList_inj, List.cons.injEq, and_iff_right rfl, String.toList_inj]
  rw [hnames, List.nodup_map_iff_inj_on hop.status]
  simp only [hdollar]

theorem nodup_members {ops : List Operation} (hops : ∀ op ∈ ops, op.HasNames)
    (hnodup : (ops.map (·.id)).Nodup) :
    (ops.map fun op => (Lexeme.ofText op.uncommented).head?).Nodup := by
  -- without an id a member starts with its colon, which is no word
  have hheads : (ops.map fun op => (Lexeme.ofText op.uncommented).head?) = (ops.map (·.id)).map
      fun id => some (if id = "" then Lexeme.mark ':' else .word id.toList) := by
    rw [List.map_map]
    exact List.map_congr_left fun op hop => head?_uncommented (hops op hop)
  rw [hheads]
  refine hnodup.map fun s t h => ?_
  have h := Option.some.inj h
  split at h <;> split at h <;> simp_all [String.toList_inj]

theorem forall_parameterRecords_iff {op : Operation} {p : List Parameter → Prop} (hnil : p []) :
    (∀ r ∈ op.parameterRecords, p r.2) ↔ ∀ l, p (op.parametersAt l) := by
  have hoptional : ∀ (name : String) (ps : List Parameter),
      (∀ r ∈ (if ps.isEmpty then [] else [(name, ps)]), p r.2) ↔ p ps := by
    intro name ps
    cases ps with
    | nil => exact iff_of_true (List.forall_mem_nil _) hnil
    | cons q ps => exact List.forall_mem_singleton
  unfold parameterRecords
  simp only [List.forall_mem_append, List.forall_mem_cons, hoptional]
  constructor
  · rintro ⟨⟨⟨hpath, hquery, _⟩, hheader⟩, hcookie⟩ (_ | _ | _ | _)
    · exact hpath
    · exact hquery
    · exact hheader
    · exact hcookie
  · exact fun h => ⟨⟨⟨h _, h _, List.forall_mem_nil _⟩, h _⟩, h _⟩

theorem nodup_keys_iff {op : Operation} : (op.parameters.map Parameter.key).Nodup ↔
    ∀ l, ((op.parametersAt l).map (·.name)).Nodup := by
  simp only [List.Nodup, List.pairwise_map]
  constructor
  · intro h l
    refine (h.sublist List.filter_sublist).imp_of_mem fun hp hq hne hname => hne ?_
    have hlocation : ∀ {r : Parameter}, r ∈ op.parametersAt l → r.location = l :=
      fun hr => eq_of_beq (List.mem_filter.mp hr).2
    exact Prod.ext hname ((hlocation hp).trans (hlocation hq).symm)
  · intro h
    -- two parameters with one key are both passed at its location, in the same order
    refine List.pairwise_iff_forall_sublist.mpr fun {p q} hpq hkey => ?_
    obtain ⟨hname, hlocation⟩ := Prod.mk.inj hkey
    have hat := hpq.filter fun r => r.location == p.location
    rw [List.filter_cons_of_pos (by simp), List.filter_cons_of_pos (by simp [hlocation])] at hat
    exact List.pairwise_iff_forall_sublist.mp (h p.location) hat hname

theorem nodup_fields_iff {op : Operation} :
    (∀ r ∈ op.parameterRecords, (r.2.map fun p => (Lexeme.ofText p.field).head?).Nodup) ↔
      (op.parameters.map Parameter.key).Nodup := by
  have hinjective : Function.Injective fun name => some (TypeSyntax.keyLexeme name) :=
    (Option.some_injective _).comp TypeSyntax.keyLexeme_injective
  rw [forall_parameterRecords_iff (p := fun ps =>
    (ps.map fun p => (Lexeme.ofText p.field).head?).Nodup) List.nodup_nil, nodup_keys_iff]
  refine forall_congr' fun l => ?_
  have hheads : ((op.parametersAt l).map fun p => (Lexeme.ofText p.field).head?) =
      ((op.parametersAt l).map (·.name)).map fun name => some (TypeSyntax.keyLexeme name) := by
    rw [List.map_map]
    exact List.map_congr_left fun p _ => p.head?_field
  rw [hheads]
  exact List.nodup_map_iff hinjective

end Operation

/-! ## Modules -/

namespace Api

theorem texts_of_typings {api : Api} {validators : Bool} {text : String}
    (h : (api.typings validators).result = .ok text) : ∃ texts,
      ((Operation.lastPerId api.operations).mapM Operation.pathNamespace).result = .ok texts := by
  obtain ⟨_, _, h⟩ := Run.bind_eq_ok.mp h
  obtain ⟨_, _, h⟩ := Run.bind_eq_ok.mp h
  obtain ⟨_, hpaths, _⟩ := Run.bind_eq_ok.mp h
  obtain ⟨texts, htexts, _⟩ := Run.bind_eq_ok.mp hpaths
  exact ⟨texts, htexts⟩

theorem aliases_of_pathNamespace {op : Operation} {s : String}
    (h : (Operation.pathNamespace op).result = .ok s) : ∃ aliases,
      (op.responses.mapM fun r => Operation.responseAlias r.1 r.2).result = .ok aliases := by
  obtain ⟨_, _, h⟩ := Run.bind_eq_ok.mp h
  obtain ⟨_, _, h⟩ := Run.bind_eq_ok.mp h
  obtain ⟨aliases, haliases, _⟩ := Run.bind_eq_ok.mp h
  exact ⟨aliases, haliases⟩

section
variable {d : Document} {keep : Bool} {api : Api} (hread : (Api.read d keep).result = .ok api)
include hread

theorem hasNames_read : ∀ op ∈ Operation.lastPerId api.operations, op.HasNames := by
  obtain ⟨_, hops, _⟩ := read_eq_ok.mp hread
  exact fun op hop => Operation.hasNames_collect hops op (Operation.mem_of_mem_lastPerId hop)

theorem readFrom_read : List.Forall₂ Operation.ReadFrom (Operation.writtenEntries keep d)
    (Operation.lastPerId api.operations) := by
  obtain ⟨_, hops, _⟩ := read_eq_ok.mp hread
  exact Operation.readFrom_collect hops

theorem isNameChar_read :
    ∀ c ∈ api.components, ∀ x ∈ c.name.toList, Lexeme.isNameChar x = true := by
  obtain ⟨_, _, hcs⟩ := read_eq_ok.mp hread
  intro c hc
  obtain ⟨⟨e, _, he⟩, _⟩ := (Component.readFrom_readEntries hcs).1 c hc
  exact (Component.hasNames_readFrom he).1

theorem nodup_names_read : (api.components.map (·.name)).Nodup :=
  (Component.readFrom_readEntries (read_eq_ok.mp hread).2.2).2

theorem nodup_rootTypes_read_iff
    (htext : ∀ e ∈ Component.schemaEntries (d.field "components"), ∃ k, e.1 = .text k) :
    (declaredNames (api.components.map Component.rootAlias ++
      fixedTexts (Operation.lastPerId api.operations))).Nodup ↔
        ∀ e ∈ Component.schemaEntries (d.field "components"),
          Component.keyName e.1 ∉ fixedTypes := by
  obtain ⟨_, _, hcs⟩ := read_eq_ok.mp hread
  have hnames := (Component.registered_collect htext hcs).names
  rw [Component.nodup_rootTypes_iff (isNameChar_read hread) (nodup_names_read hread)]
  have hmem : (∀ n ∈ api.components.map (·.name), n ∉ fixedTypes) ↔
      ∀ e ∈ Component.schemaEntries (d.field "components"), Component.keyName e.1 ∉ fixedTypes := by
    rw [hnames]
    simp only [List.mem_eraseDups, List.forall_mem_map]
  rwa [List.forall_mem_map] at hmem

theorem nodup_namespaces_read_iff {texts : List String}
    (htexts : ((Operation.lastPerId api.operations).mapM Operation.pathNamespace).result = .ok texts) :
    (declaredNames texts).Nodup ↔ ∀ a ∈ Operation.writtenEntries keep d,
      ∀ b ∈ Operation.writtenEntries keep d, Name.SameButFirstCase a.1 b.1 → a.1 = b.1 := by
  have hids : (Operation.writtenEntries keep d).map (·.1) =
      (Operation.lastPerId api.operations).map (·.id) :=
    map_congr_forall₂ ((readFrom_read hread).imp fun _ _ h => h.id.symm)
  rw [Operation.nodup_namespaces_iff (hasNames_read hread) (Operation.nodup_ids_lastPerId _) htexts,
    ← hids]
  simp only [List.forall_mem_map]

theorem nodup_responseAliases_read_iff {texts : List String}
    (htexts : ((Operation.lastPerId api.operations).mapM Operation.pathNamespace).result = .ok texts) :
    (∀ a ∈ Operation.writtenEntries keep d,
      ∀ s ∈ (a.2.operation.field "responses").keyTexts,
        ∀ t ∈ (a.2.operation.field "responses").keyTexts, leadingName s = leadingName t → s = t) ↔
    ∀ op ∈ Operation.lastPerId api.operations, ∀ aliases,
      (op.responses.mapM fun r => Operation.responseAlias r.1 r.2).result = .ok aliases →
        (declaredNames (aliases.map Operation.ResponseAlias.declaration)).Nodup := by
  refine forall_iff_of_forall₂ (readFrom_read hread) fun a op hop hfrom => ?_
  obtain ⟨_, hs⟩ := Run.exists_of_mapM_eq_ok htexts op hop
  obtain ⟨aliases, haliases⟩ := aliases_of_pathNamespace hs
  have hiff : ∀ {as}, (op.responses.mapM fun r => Operation.responseAlias r.1 r.2).result = .ok as →
      _ := fun h => Operation.nodup_responseAliases_iff (hasNames_read hread op hop) h
  simp only [Operation.mem_statuses_iff hfrom.responses] at hiff
  exact ⟨fun h as has => (hiff has).mpr h, fun h => (hiff haliases).mp (h aliases haliases)⟩

theorem nodup_fields_read_iff :
    (∀ a ∈ Operation.writtenEntries keep d,
      Parameter.Apart (a.2.item.field "parameters") (a.2.operation.field "parameters")) ↔
    ∀ op ∈ Operation.lastPerId api.operations, ∀ r ∈ op.parameterRecords,
      (r.2.map fun p => (Lexeme.ofText p.field).head?).Nodup :=
  forall_iff_of_forall₂ (readFrom_read hread) fun _ _ _ hfrom =>
    (Operation.nodup_fields_iff.trans (Parameter.nodup_keys_readAll_iff hfrom.parameters)).symm

/-- A module that is written has no clash if and only if the names of the document stay apart. -/
theorem noClash_iff {validators : Bool} {text : String}
    (htext : ∀ e ∈ Component.schemaEntries (d.field "components"), ∃ k, e.1 = .text k)
    (htypings : (api.typings validators).result = .ok text) :
    api.NoClash ↔ d.NamesApart keep := by
  obtain ⟨texts, htexts⟩ := texts_of_typings htypings
  have hroot := nodup_rootTypes_read_iff hread htext
  have hscopes := nodup_namespaces_read_iff hread htexts
  have hstatuses := nodup_responseAliases_read_iff hread htexts
  have hfields := nodup_fields_read_iff hread
  have hchars := isNameChar_read hread
  have hnodup := nodup_names_read hread
  have hnames := hasNames_read hread
  constructor
  · intro h
    exact ⟨hroot.mp h.rootTypes, hscopes.mp (h.namespaces _ htexts), hstatuses.mpr h.responseAliases,
      hfields.mpr h.fields⟩
  · intro h
    refine ⟨hroot.mpr h.components, Component.nodup_componentTypes hchars hnodup,
      Component.nodup_constants hchars hnodup, fun texts' htexts' => ?_,
      fun op hop => Operation.nodup_parameterAliases (hnames op hop), hstatuses.mp h.statuses,
      Operation.nodup_members hnames (Operation.nodup_ids_lastPerId _), hfields.mp h.parameters⟩
    exact (nodup_namespaces_read_iff hread htexts').mpr h.ids

end

def pagedDocument : Document :=
  let limit (location : String) : Value :=
    .map [(.text "name", .scalar (.text "limit")), (.text "in", .scalar (.text location))]
  .ofValue (.map [
    (.text "components", .map [(.text "schemas", .map [(.text "Pet", .map [])])]),
    (.text "paths", .map [(.text "/pets", .map [
      (.text "parameters", .seq [limit "query"]),
      (.text "get", .map [(.text "operationId", .scalar (.text "listPets")),
        (.text "parameters", .seq [limit "query", limit "header"]),
        (.text "responses", .map [(.text "200", .null), (.text "404", .null)])]),
      (.text "head", .map [(.text "operationId", .scalar (.text "countPets"))])])])])

theorem noClash_paged : ∃ api text, (Api.read pagedDocument false).result = .ok api ∧
    (api.typings false).result = .ok text ∧ api.NoClash := by
  obtain ⟨text, h⟩ : ∃ text, (ApiTypes.typings pagedDocument ⟨false, false⟩).result = .ok text :=
    Run.exists_of_isOk (by decide +kernel)
  obtain ⟨api, hread, htypings⟩ := Run.bind_eq_ok.mp h
  have htext : ∀ e ∈ Component.schemaEntries (pagedDocument.field "components"),
      ∃ k, e.1 = .text k := List.forall_mem_singleton.mpr ⟨_, rfl⟩
  have hapart : pagedDocument.NamesApart false :=
    ⟨by decide +kernel, by decide +kernel, by decide +kernel, by decide +kernel⟩
  exact ⟨api, text, hread, htypings, (noClash_iff hread htext htypings).mpr hapart⟩

/-- The own parameter says where it is passed, the one of the path item leaves it out. -/
def limitDocument : Document :=
  .ofValue (.map [(.text "paths", .map [(.text "/pets", .map [
    (.text "parameters", .seq [.map [(.text "name", .scalar (.text "limit"))]]),
    (.text "get", .map [(.text "operationId", .scalar (.text "listPets")),
      (.text "parameters", .seq [.map [(.text "name", .scalar (.text "limit")),
        (.text "in", .scalar (.text "query"))]])])])])])

theorem not_noClash_limit : ∃ api text, (Api.read limitDocument false).result = .ok api ∧
    (api.typings false).result = .ok text ∧ ¬ api.NoClash := by
  obtain ⟨text, h⟩ : ∃ text, (ApiTypes.typings limitDocument ⟨false, false⟩).result = .ok text :=
    Run.exists_of_isOk (by decide +kernel)
  obtain ⟨api, hread, htypings⟩ := Run.bind_eq_ok.mp h
  refine ⟨api, text, hread, htypings, fun hclash => ?_⟩
  exact absurd ((nodup_fields_read_iff hread).mpr hclash.fields) (by decide +kernel)

end Api

end ApiTypes
