import ApiTypes.Proofs.Clashes
import ApiTypes.Proofs.MadeIds
import ApiTypes.Proofs.WrittenOperations

/-!
# Legal names

Which names of a module are legal where they stand without quotes. Names of components and ids of
operations keep a digit in front, a component may have no name at all, and statuses are written as they
are; all other names are made legal.
-/

namespace ApiTypes

/-! ## Legal names -/

namespace Name

def startsWithDigit (s : String) : Bool := s.toList.head?.any Char.isDigit

theorem isBareStart_of_isWordChar {c : Char} : isWordChar c = true → isBareStart c = !c.isDigit :=
  forall_of_isWordChar (p := fun c => isBareStart c = !c.isDigit) (by decide)

theorem isBarePart_of_isWordChar {c : Char} (h : isWordChar c = true) : isBarePart c = true := by
  rw [isBarePart, isBareStart_of_isWordChar h, Bool.not_or_self]

theorem isBareStart_toUpper {c : Char} :
    isWordChar c = true → isBareStart c = true → isBareStart c.toUpper = true :=
  forall_of_isWordChar (p := fun c => isBareStart c = true → isBareStart c.toUpper = true)
    (by decide)

theorem all_isBarePart {cs : List Char} (h : ∀ c ∈ cs, isWordChar c = true) :
    cs.all isBarePart = true :=
  List.all_eq_true.mpr fun c hc => isBarePart_of_isWordChar (h c hc)

theorem isBare_iff {s : String} : isBare s = true ↔
    ∃ c cs, s.toList = c :: cs ∧ isBareStart c = true ∧ cs.all isBarePart = true := by
  unfold isBare
  cases s.toList with
  | nil => simp
  | cons c cs => simp

theorem isBare_iff_of_isWordChar {s : String} (h : ∀ c ∈ s.toList, isWordChar c = true) :
    isBare s = true ↔ s ≠ "" ∧ startsWithDigit s = false := by
  rw [isBare_iff, startsWithDigit, ne_eq, ← String.toList_eq_nil_iff]
  cases hs : s.toList with
  | nil => simp
  | cons c cs =>
    rw [hs] at h
    obtain ⟨hc, hcs⟩ := List.forall_mem_cons.mp h
    have hstart := isBareStart_of_isWordChar hc
    constructor
    · rintro ⟨_, _, heq, hbare, _⟩
      cases heq
      simpa [hbare] using hstart.symm
    · rintro ⟨_, hdigit⟩
      exact ⟨c, cs, rfl, by simpa [hstart] using hdigit, all_isBarePart hcs⟩

theorem isBare_append_iff {s t : String} (hs : isBare s = true) :
    isBare (s ++ t) = true ↔ t.toList.all isBarePart = true := by
  obtain ⟨c, cs, hlist, hc, hcs⟩ := isBare_iff.mp hs
  rw [isBare_iff, String.toList_append, hlist, List.cons_append]
  constructor
  · rintro ⟨_, _, heq, _, hparts⟩
    cases heq
    rw [List.all_append, Bool.and_eq_true] at hparts
    exact hparts.2
  · exact fun ht => ⟨c, cs ++ t.toList, rfl, hc, by rw [List.all_append, hcs, ht, Bool.and_self]⟩

theorem startsWithDigit_sanitize (s : String) :
    startsWithDigit (sanitize s) = startsWithDigit s := by
  unfold startsWithDigit sanitize
  rw [String.toList_map, List.head?_map]
  cases s.toList.head? with
  | none => rfl
  | some c =>
    show (if isWordChar c then c else '_').isDigit = c.isDigit
    split
    · rfl
    · rename_i hc
      have hdigit : c.isDigit = false := by simp_all [isWordChar, Char.isAlphanum]
      rw [hdigit]
      rfl

theorem isBare_sanitize_iff {s : String} :
    isBare (sanitize s) = true ↔ s ≠ "" ∧ startsWithDigit s = false := by
  rw [isBare_iff_of_isWordChar (Schema.isWordChar_sanitize s), startsWithDigit_sanitize, ne_eq,
    Schema.sanitize_eq_empty_iff]

theorem isBare_capitalize {s : String} (hchars : ∀ c ∈ s.toList, isWordChar c = true)
    (h : isBare s = true) : isBare (capitalize s) = true := by
  obtain ⟨c, cs, hlist, hc, hcs⟩ := isBare_iff.mp h
  have hword : isWordChar c = true := hchars c (by simp [hlist])
  exact isBare_iff.mpr ⟨c.toUpper, cs, capitalize_toList hlist hword, isBareStart_toUpper hword hc, hcs⟩

end Name

/-! ### Names of operations -/

namespace Operation

theorem isBare_madeId {method : String} (h : isMethod method = true) (path : String) :
    Name.isBare (madeId method path) = true := by
  have hchars : ∀ c ∈ (madeId method path).toList, Name.isWordChar c = true := fun c hc =>
    Name.isWordChar_of_isAlphanum (isAlphanum_madeId method path c hc)
  obtain ⟨c, cs, hlist, hsmall⟩ := exists_madeId_cons h path
  refine (Name.isBare_iff_of_isWordChar hchars).mpr ⟨fun hempty => ?_, ?_⟩
  · rw [hempty] at hlist
    cases hlist
  · rw [Name.startsWithDigit, hlist, List.head?_cons, Option.any_some]
    exact Name.isDigit_of_isLower hsmall

theorem isBare_id?_iff {e : Entry} {keep : Bool} {id : String} (hmethod : isMethod e.method = true)
    (h : e.id? keep = some id) : Name.isBare id = true ↔
      ∀ s ∈ e.operation.fieldText? "operationId", Name.startsWithDigit s = false := by
  rw [Entry.id?, Option.orElse_eq_orElse, Option.orElse_eq_or, Option.or_eq_some_iff,
    declaredId?] at h
  rcases h with h | ⟨hnone, h⟩
  · split at h
    · rename_i s hs
      split at h
      · cases h
      · rename_i hne
        cases h
        rw [Name.isBare_sanitize_iff, hs]
        simpa using fun _ => hne
    · cases h
  · split at h
    · cases h
      refine iff_of_true (isBare_madeId hmethod e.path) fun s hs => ?_
      have hempty : s = "" := by
        by_contra hne
        simp [Option.mem_def.mp hs, hne] at hnone
      rw [hempty]
      rfl
    · cases h

theorem HasNames.isBare_aliasName {op : Operation} (h : op.HasNames) {p : Parameter}
    (hp : p ∈ op.parameters) : Name.isBare p.aliasName = true := by
  have hchars := Schema.isWordChar_sanitize p.name
  unfold Parameter.aliasName
  rw [h.parameter p hp]
  split
  · rename_i hbare
    obtain ⟨c, cs, hlist, hc, _⟩ := Name.isBare_iff.mp hbare
    refine Name.isBare_capitalize hchars (Name.isBare_sanitize_iff.mpr ⟨?_, ?_⟩)
    · rintro hempty
      rw [hempty] at hlist
      cases hlist
    · rw [Name.startsWithDigit, hlist]
      exact (Lexeme.isNameChar_of_isBareStart hc).2
  · exact (Name.isBare_append_iff (by decide)).mpr
      (Name.all_isBarePart (Name.isWordChar_capitalize hchars))

end Operation

/-! ## Names in texts -/

def StandsIn (s t : String) : Prop := s.toList <:+: t.toList

namespace StandsIn

variable {s t u : String}

theorem refl (s : String) : StandsIn s s := List.infix_refl _

theorem trans (h : StandsIn s t) (h' : StandsIn t u) : StandsIn s u := List.IsInfix.trans h h'

theorem behind (h : StandsIn s t) (u : String) : StandsIn s (u ++ t) := by
  rw [StandsIn, String.toList_append]
  exact List.IsInfix.trans h (List.suffix_append _ _).isInfix

theorem before (h : StandsIn s t) (u : String) : StandsIn s (t ++ u) := by
  rw [StandsIn, String.toList_append]
  exact List.IsInfix.trans h (List.prefix_append _ _).isInfix

theorem between (h : StandsIn s t) (front back : String) : StandsIn s (front ++ t ++ back) :=
  (h.behind front).before back

theorem intercalate {ts : List String} (h : s ∈ ts) (sep : String) :
    StandsIn s (String.intercalate sep ts) := by
  induction ts with
  | nil => cases h
  | cons t ts ih =>
    cases ts with
    | nil =>
      rw [List.mem_singleton.mp h, String.intercalate_singleton]
      exact .refl t
    | cons u ts =>
      rw [String.intercalate_cons_cons]
      rcases List.mem_cons.mp h with rfl | h
      · exact ((refl s).before sep).before _
      · exact (ih h).behind _

end StandsIn

/-- The text starts with the name, behind the words of a declaration or as the key of a member. -/
inductive Heads (name : String) : String → Prop
  | declared {text : String} (h : Declares name text) : Heads name text
  | constant (rest : String) : Heads name ("export const " ++ (name ++ (": " ++ rest)))
  | key (rest : String) : Heads name (name ++ (": " ++ rest))

namespace Api

/-- A name that stands without quotes in a module, with the text that it starts. -/
inductive Names (api : Api) (validators : Bool) : String → String → Prop
  | component {c : Component} (hc : c ∈ api.components) : Names api validators c.name c.uncommented
  | rootAlias {c : Component} (hc : c ∈ api.components) : Names api validators c.name c.rootAlias
  | constant {v : Component.ValidatorDeclaration} (hvalidators : validators = true)
      (hv : v ∈ Component.validatorDeclarations api.components) :
      Names api validators (TypeExpr.validatorName v.component) v.text
  | scope {op : Operation} {s : String} (hop : op ∈ Operation.lastPerId api.operations)
      (hs : op.pathNamespace.result = .ok s) : Names api validators op.scope s
  | member {op : Operation} (hop : op ∈ Operation.lastPerId api.operations) :
      Names api validators op.id op.uncommented
  | row {op : Operation} (hvalidators : validators = true)
      (hop : op ∈ Operation.lastPerId api.operations) :
      Names api validators op.id (op.id ++ ": " ++ op.responseValidator ++ ",")
  | parameter {op : Operation} {a : Parameter.Alias} (hop : op ∈ Operation.lastPerId api.operations)
      (ha : a ∈ Parameter.aliases op.allParameters) : Names api validators a.name a.text
  | response {op : Operation} {r : String × Response} {a : Operation.ResponseAlias}
      (hop : op ∈ Operation.lastPerId api.operations) (hr : r ∈ op.responses)
      (ha : (Operation.responseAlias r.1 r.2).result = .ok a) : Names api validators a.name a.text

variable {api : Api} {validators : Bool}

theorem heads_of_names {name text : String} (h : api.Names validators name text) :
    Heads name text := by
  -- all but keys and constants are declared by a keyword and a name
  have hplain : ∀ {kind rest : String}, kind ∈ declarationKinds →
      Heads name ("export " ++ kind ++ " " ++ (name ++ (" " ++ rest))) :=
    fun hkind => .declared (.plain _ hkind)
  cases h with
  | component hc =>
    unfold Component.uncommented
    split
    · simp only [String.append_assoc]
      exact @hplain "interface" _ (by decide)
    · simp only [String.append_assoc]
      exact @hplain "type" ("= " ++ _) (by decide)
  | rootAlias hc =>
    delta Component.rootAlias
    simp only [String.append_assoc]
    exact @hplain "type" ("= " ++ _) (by decide)
  | constant hvalidators hv =>
    delta Component.ValidatorDeclaration.text
    simp only [String.append_assoc]
    exact .constant ("z.ZodType<any> = " ++ _)
  | scope hop hs =>
    obtain ⟨_, _, rfl⟩ := Operation.pathNamespace_eq_ok hs
    simp only [String.append_assoc]
    exact @hplain "namespace" ("\x7b\n" ++ _) (by decide)
  | member hop =>
    unfold Operation.uncommented
    simp only [String.append_assoc]
    exact .key _
  | row hvalidators hop =>
    simp only [String.append_assoc]
    exact .key _
  | parameter hop ha =>
    unfold Parameter.Alias.text
    split
    · exact absurd ‹_› (Parameter.ne_nil_of_mem_aliases ha)
    dsimp only
    split
    · simp only [String.append_assoc]
      exact @hplain "type" ("= " ++ _) (by decide)
    · simp only [String.append_assoc]
      exact @hplain "interface" ("\x7b\n" ++ _) (by decide)
  | response hop hr ha => exact .declared (Operation.declares_alias _)

theorem standsIn_block {s block : String} {blocks : List String} (hblock : block ∈ blocks)
    (h : StandsIn s block) :
    StandsIn s (String.intercalate "\n\n" (blocks.filter (!·.isEmpty)) ++ "\n") := by
  -- an empty block is left out, but only the empty text stands in it
  by_cases hempty : block = ""
  · have hs : s = "" := by
      rw [hempty] at h
      exact String.toList_eq_nil_iff.mp (List.infix_nil.mp h)
    rw [hs]
    exact List.nil_infix
  · have hkept : block ∈ blocks.filter (!·.isEmpty) := by simp [hblock, hempty]
    exact h.trans ((StandsIn.intercalate hkept _).before _)

end Api

/-! ### Parts of a module -/

namespace Component

variable {cs : List Component}

theorem standsIn_uncommented {c : Component} (hc : c ∈ cs) (withValidators : Bool) :
    StandsIn c.uncommented (declarationsText cs withValidators) := by
  have hdeclaration : StandsIn c.uncommented c.declaration := (StandsIn.refl _).behind c.comment
  have hall := hdeclaration.trans (StandsIn.intercalate (List.mem_map_of_mem hc) "\n\n")
  exact ((hall.behind _).before _).before _

theorem standsIn_rootAlias {c : Component} (hc : c ∈ cs) (withValidators : Bool) :
    StandsIn c.rootAlias (declarationsText cs withValidators) :=
  (StandsIn.intercalate (List.mem_map_of_mem hc) "\n").behind _

theorem standsIn_constant {v : ValidatorDeclaration} (hv : v ∈ validatorDeclarations cs) :
    StandsIn v.text (declarationsText cs true) := by
  have hall : StandsIn v.text (validatorsText cs) := .intercalate (List.mem_map_of_mem hv) "\n\n"
  exact ((((hall.behind _).before _).before _).before _).before _

end Component

namespace Operation

theorem standsIn_uncommented (op : Operation) : StandsIn op.uncommented op.member := by
  unfold member uncommented
  simp only [String.append_assoc]
  exact (StandsIn.refl _).behind _

theorem standsIn_namespaceText {line : String} {lines : List String} (h : line ∈ lines)
    (name : String) : StandsIn line (namespaceText name lines) :=
  (StandsIn.intercalate h "\n").between _ _

theorem standsIn_pathNamespace {op : Operation} {s : String}
    (h : (pathNamespace op).result = .ok s) : ∃ responses,
      (op.responses.mapM fun r => responseAlias r.1 r.2).result = .ok responses ∧
      StandsIn (namespaceText "Parameters"
        ((Parameter.aliases op.allParameters).map Parameter.Alias.text)) s ∧
      StandsIn (namespaceText "Responses" (responses.map ResponseAlias.text)) s := by
  obtain ⟨responses, hresponses, rfl⟩ := pathNamespace_eq_ok h
  have hparts : ∀ part ∈ op.namespaceParts responses, StandsIn part _ :=
    fun part hpart => (StandsIn.intercalate hpart "\n\n").between
      ("export namespace " ++ op.scope ++ " \x7b\n") "\n\x7d"
  exact ⟨responses, hresponses, hparts _ (by simp [namespaceParts]),
    hparts _ (by simp [namespaceParts])⟩

end Operation

namespace Api

variable {api : Api} {validators : Bool}

theorem standsIn_of_names {text s name : String} (h : (api.typings validators).result = .ok text)
    (hname : api.Names validators name s) : StandsIn s text := by
  obtain ⟨namespaces, hnamespaces, rfl⟩ := typings_eq_ok h
  let ops := Operation.lastPerId api.operations
  let components := Component.declarationsText api.components validators
  -- a name stands in a block, and each block stands in the module
  have hcomponents : ∀ {t}, StandsIn t components →
      StandsIn t (moduleText validators components namespaces ops) :=
    fun ht => standsIn_block (by simp) ht
  have hscope : ∀ op ∈ ops, ∃ t, op.pathNamespace.result = .ok t ∧
      StandsIn t (moduleText validators components namespaces ops) := by
    intro op hop
    obtain ⟨t, hmem, ht⟩ :=
      Run.exists_mem_of_mapM_eq_ok (Run.mapM_eq_ok.mpr hnamespaces) op hop
    have hblock := (StandsIn.intercalate hmem "\n\n").between "export namespace Paths \x7b\n" "\n\x7d"
    exact ⟨t, ht, standsIn_block (by simp) hblock⟩
  cases hname with
  | component hc => exact hcomponents (Component.standsIn_uncommented hc validators)
  | rootAlias hc => exact hcomponents (Component.standsIn_rootAlias hc validators)
  | constant hvalidators hv =>
    subst hvalidators
    exact hcomponents (Component.standsIn_constant hv)
  | scope hop hs =>
    obtain ⟨t, ht, hstands⟩ := hscope _ hop
    cases hs.symm.trans ht
    exact hstands
  | @member op hop =>
    have hmember := StandsIn.intercalate (List.mem_map_of_mem (f := Operation.member) hop) "\n"
    have hblock := (op.standsIn_uncommented.trans hmember).between
      "export interface OperationMethods \x7b\n" "\n\x7d"
    exact standsIn_block (by simp) hblock
  | row hvalidators hop =>
    subst hvalidators
    have hrow := StandsIn.intercalate (List.mem_map_of_mem
      (f := fun op : Operation => op.id ++ ": " ++ op.responseValidator ++ ",") hop) "\n"
    have hblock := hrow.between "export const apiResponseValidators = \x7b\n" "\n\x7d as const"
    exact standsIn_block (by simp) hblock
  | parameter hop ha =>
    obtain ⟨t, ht, hstands⟩ := hscope _ hop
    obtain ⟨_, _, hparameters, _⟩ := Operation.standsIn_pathNamespace ht
    have hline := Operation.standsIn_namespaceText
      (List.mem_map_of_mem (f := Parameter.Alias.text) ha) "Parameters"
    exact (hline.trans hparameters).trans hstands
  | response hop hr ha =>
    obtain ⟨t, ht, hstands⟩ := hscope _ hop
    obtain ⟨responses, hresponses, _, haliases⟩ := Operation.standsIn_pathNamespace ht
    obtain ⟨b, hb, hread⟩ := Run.exists_mem_of_mapM_eq_ok hresponses _ hr
    cases ha.symm.trans hread
    have hline := Operation.standsIn_namespaceText
      (List.mem_map_of_mem (f := Operation.ResponseAlias.text) hb) "Responses"
    exact (hline.trans haliases).trans hstands

end Api

/-! ## Names of a document -/

/-- No name of a component or an id starts with a digit, all components have names, and statuses are
made of characters of names. -/
structure Document.HasLegalNames (d : Document) (keep : Bool) : Prop where
  components : ∀ key ∈ ((d.field "components").field "schemas").keyTexts,
    key ≠ "" ∧ Name.startsWithDigit key = false
  ids : ∀ a ∈ Operation.writtenEntries keep d, ∀ s ∈ a.2.operation.fieldText? "operationId",
    Name.startsWithDigit s = false
  statuses : ∀ a ∈ Operation.writtenEntries keep d,
    ∀ s ∈ (a.2.operation.field "responses").keyTexts, s.toList.all Name.isBarePart = true

theorem Operation.id?_of_mem_writtenEntries {d : Document} {keep : Bool} {a : String × Entry}
    (h : a ∈ writtenEntries keep d) : isMethod a.2.method = true ∧ a.2.id? keep = some a.1 := by
  obtain ⟨e, he, rfl⟩ := List.mem_map.mp h
  obtain ⟨hentry, hid⟩ := mem_accepted.mp (Table.mem_ofList_self _ _ e he).2
  exact ⟨isMethod_of_mem_entriesOf hentry, hid⟩

namespace Api

section
variable {d : Document} {keep : Bool} {api : Api} (hread : (Api.read d keep).result = .ok api)
include hread

theorem isBare_components_read_iff : (∀ c ∈ api.components, Name.isBare c.name = true) ↔
    ∀ key ∈ ((d.field "components").field "schemas").keyTexts,
      key ≠ "" ∧ Name.startsWithDigit key = false := by
  obtain ⟨_, _, hcs⟩ := read_eq_ok.mp hread
  have hnames : api.components.map (·.name) =
      (((d.field "components").field "schemas").keyTexts.map Name.sanitize).eraseDups := by
    have hall : ∀ n : String, (!([] : List String).contains n) = true := fun _ => rfl
    rw [Component.names_readEntries hcs, List.filter_eq_self.mpr fun n _ => hall n]
    rfl
  rw [← List.forall_mem_map (P := fun name => Name.isBare name = true), hnames]
  simp only [List.mem_eraseDups, List.forall_mem_map, Name.isBare_sanitize_iff]

theorem isBare_ids_read_iff : (∀ a ∈ Operation.writtenEntries keep d,
    ∀ s ∈ a.2.operation.fieldText? "operationId", Name.startsWithDigit s = false) ↔
      ∀ op ∈ Operation.lastPerId api.operations, Name.isBare op.id = true := by
  have hentries := fun a => @Operation.id?_of_mem_writtenEntries d keep a
  refine forall_iff_of_forall₂ ((List.forall₂_and_left _ _).mpr ⟨hentries, readFrom_read hread⟩)
    fun a op _ ⟨⟨hmethod, hid⟩, hfrom⟩ => ?_
  rw [hfrom.id]
  exact (Operation.isBare_id?_iff hmethod hid).symm

theorem all_isBarePart_read_iff : (∀ a ∈ Operation.writtenEntries keep d,
    ∀ s ∈ (a.2.operation.field "responses").keyTexts, s.toList.all Name.isBarePart = true) ↔
      ∀ op ∈ Operation.lastPerId api.operations, ∀ r ∈ op.responses,
        r.1.toList.all Name.isBarePart = true := by
  refine forall_iff_of_forall₂ (readFrom_read hread) fun a op _ hfrom => ?_
  simp only [← Operation.mem_statuses_iff hfrom.responses, List.forall_mem_map]

/-- The names that stand without quotes in a module are legal if and only if those of the document
are. -/
theorem legalNames_iff {validators : Bool} {text : String}
    (htypings : (api.typings validators).result = .ok text) :
    (∀ name s, api.Names validators name s → Heads name s ∧ StandsIn s text) ∧
    ((∀ name s, api.Names validators name s → Name.isBare name = true) ↔ d.HasLegalNames keep) := by
  have hcomponents := isBare_components_read_iff hread
  have hids := isBare_ids_read_iff hread
  have hstatuses := all_isBarePart_read_iff hread
  have hnames := hasNames_read hread
  have hresponse : ∀ {status : String} {r : Response} {a : Operation.ResponseAlias},
      (Operation.responseAlias status r).result = .ok a →
        (Name.isBare a.name = true ↔ status.toList.all Name.isBarePart = true) := by
    intro status r a ha
    rw [← Operation.status_responseAlias ha]
    exact Name.isBare_append_iff (by decide)
  refine ⟨fun name s h => ⟨heads_of_names h, standsIn_of_names htypings h⟩, ?_, ?_⟩
  · intro h
    refine ⟨hcomponents.mp fun c hc => h _ _ (.component hc),
      hids.mpr fun op hop => h _ _ (.member hop), hstatuses.mpr fun op hop r hr => ?_⟩
    obtain ⟨texts, htexts⟩ := texts_of_typings htypings
    obtain ⟨s, hs⟩ := Run.exists_of_mapM_eq_ok htexts op hop
    obtain ⟨aliases, haliases⟩ := aliases_of_pathNamespace hs
    obtain ⟨a, ha⟩ := Run.exists_of_mapM_eq_ok haliases r hr
    exact (hresponse ha).mp (h _ _ (.response hop hr ha))
  · intro h name s hname
    have hids := hids.mp h.ids
    -- constants and scopes are made of names and ids, parameters are legal in any document
    cases hname with
    | component hc => exact hcomponents.mpr h.components _ hc
    | rootAlias hc => exact hcomponents.mpr h.components _ hc
    | constant hvalidators hv =>
      obtain ⟨c, hc, hname⟩ := Component.exists_of_mem_validatorDeclarations hv
      have hbare := hname ▸ hcomponents.mpr h.components c hc
      exact (Name.isBare_append_iff hbare).mpr (by decide)
    | scope hop hs => exact Name.isBare_capitalize (hnames _ hop).isWordChar_id (hids _ hop)
    | member hop => exact hids _ hop
    | row hvalidators hop => exact hids _ hop
    | parameter hop ha =>
      obtain ⟨p, hp, hname⟩ := Parameter.exists_aliasName_of_mem_aliases ha
      exact hname ▸ (hnames _ hop).isBare_aliasName (Operation.mem_of_mem_allParameters hp)
    | response hop hr ha => exact (hresponse ha).mpr (hstatuses.mp h.statuses _ hop _ hr)

end

def shelterDocument : Document :=
  .ofValue (.map [
    (.text "components", .map [(.text "schemas", .map [(.text "pet.dog", .map [])])]),
    (.text "paths", .map [(.text "/pets", .map [
      (.text "get", .map [(.text "operationId", .scalar (.text "list-pets")),
        (.text "parameters", .seq [.map [(.text "name", .scalar (.text "2nd-page"))]]),
        (.text "responses", .map [(.text "200", .null), (.text "default", .null)])])])])])

theorem legalNames_shelter : ∃ api text, (Api.read shelterDocument false).result = .ok api ∧
    (api.typings true).result = .ok text ∧
    ∀ name s, api.Names true name s → Name.isBare name = true := by
  obtain ⟨text, h⟩ : ∃ text, (ApiTypes.typings shelterDocument ⟨false, true⟩).result = .ok text :=
    Run.exists_of_isOk (by decide +kernel)
  obtain ⟨api, hread, htypings⟩ := Run.bind_eq_ok.mp h
  have hlegal : shelterDocument.HasLegalNames false :=
    ⟨by decide +kernel, by decide +kernel, by decide +kernel⟩
  exact ⟨api, text, hread, htypings, (legalNames_iff hread htypings).2.mpr hlegal⟩

def factorDocument : Document :=
  .ofValue (.map [
    (.text "components", .map [(.text "schemas", .map [(.text "2fa", .map [])])]),
    (.text "paths", .map [(.text "/login", .map [
      (.text "post", .map [(.text "operationId", .scalar (.text "2ndFactor")),
        (.text "responses", .map [(.text "x-ratelimit", .null)])])])])])

theorem exists_illegal_names : ∃ api text, (Api.read factorDocument false).result = .ok api ∧
    (api.typings false).result = .ok text ∧ ∀ name ∈ ["2fa", "2ndFactor", "$x-ratelimit"],
      (∃ s, api.Names false name s) ∧ Name.isBare name = false := by
  obtain ⟨text, h⟩ : ∃ text, (ApiTypes.typings factorDocument ⟨false, false⟩).result = .ok text :=
    Run.exists_of_isOk (by decide +kernel)
  obtain ⟨api, hread, htypings⟩ := Run.bind_eq_ok.mp h
  obtain ⟨texts, htexts⟩ := texts_of_typings htypings
  -- the document evaluates to these names, the texts follow from them
  have hnames : (Api.read factorDocument false).result.map (fun api =>
      (api.components.map (·.name), (Operation.lastPerId api.operations).map fun op =>
        (op.id, op.responses.map (·.1)))) = .ok (["2fa"], [("2ndFactor", ["x-ratelimit"])]) := by
    decide +kernel
  rw [hread] at hnames
  obtain ⟨hcomponents, hops⟩ := Prod.mk.inj (Except.ok.inj hnames)
  obtain ⟨c, hcs, hname⟩ := List.map_eq_singleton_iff.mp hcomponents
  obtain ⟨op, hwritten, hop⟩ := List.map_eq_singleton_iff.mp hops
  obtain ⟨hid, hresponses⟩ := Prod.mk.inj hop
  obtain ⟨r, hrs, hstatus⟩ := List.map_eq_singleton_iff.mp hresponses
  have hop : op ∈ Operation.lastPerId api.operations := by simp [hwritten]
  obtain ⟨s, hs⟩ := Run.exists_of_mapM_eq_ok htexts op hop
  obtain ⟨aliases, haliases⟩ := aliases_of_pathNamespace hs
  obtain ⟨a, ha⟩ := Run.exists_of_mapM_eq_ok haliases r (by simp [hrs])
  have halias : a.name = "$x-ratelimit" := by
    rw [Operation.ResponseAlias.name, Operation.status_responseAlias ha, hstatus]
    rfl
  have hbare : ∀ name ∈ ["2fa", "2ndFactor", "$x-ratelimit"], Name.isBare name = false := by decide
  have hcomponent : api.Names false c.name c.uncommented := .component (by simp [hcs])
  have hmember : api.Names false op.id op.uncommented := .member hop
  have hresponse : api.Names false a.name a.text := .response hop (by simp [hrs]) ha
  rw [hname] at hcomponent
  rw [hid] at hmember
  rw [halias] at hresponse
  have hall : ∀ name ∈ ["2fa", "2ndFactor", "$x-ratelimit"], ∃ s, api.Names false name s := by
    simp only [List.forall_mem_cons]
    exact ⟨⟨_, hcomponent⟩, ⟨_, hmember⟩, ⟨_, hresponse⟩, List.forall_mem_nil _⟩
  exact ⟨api, text, hread, htypings, fun name hmem => ⟨hall name hmem, hbare name hmem⟩⟩

end Api

end ApiTypes
