import ApiTypes.Proofs.Clashes
import ApiTypes.Proofs.Keyed
import ApiTypes.Proofs.Signatures

/-!
# References to parameters

The field of a parameter refers to a type of the namespace of parameters, or to a quoted key of an
interface in it. Which of the two an alias is depends on the first parameter that has it, so the
references resolve unless a bare name and one that needs quotes share an alias.
-/

namespace ApiTypes

namespace Parameter

/-! ## Declarations -/

def typeText (name type : String) : String := "export type " ++ name ++ " = " ++ type ++ ";"

def interfaceText (name : String) (fields : Table String String) : String :=
  "export interface " ++ name ++ " \x7b\n" ++ String.intercalate "\n"
    (fields.map fun e => "    " ++ Text.quoted e.1 ++ ": " ++ e.2 ++ ";") ++ "\n\x7d"

def declarations (ps : List Parameter) : List String := (aliases ps).map Alias.text

def declaring (lines : List String) (name : String) : List String :=
  lines.filter fun line => declaredName? line == some name

def sharing (ps : List Parameter) (name : String) : List Parameter :=
  ps.filter fun p => p.aliasName == name

def keysOf (ps : List Parameter) (name : String) : Table String String :=
  Table.ofListNew ((sharing ps name).map fun p => (p.name, p.type.declared))

theorem aliases_eq (ps : List Parameter) :
    aliases ps = (ps.map aliasName).eraseDups.map fun name => ⟨name, keysOf ps name⟩ := by
  have hkeys : (ps.map fun p => (p.aliasName, p.name, p.type.declared)).map (·.1) =
      ps.map aliasName := List.map_map
  rw [aliases, Table.group_eq, hkeys, List.map_map]
  refine List.map_congr_left fun name _ => ?_
  rw [Function.comp_apply, Table.under_map, keysOf, sharing]

def firstSharing? (ps : List Parameter) (name : String) : Option Parameter :=
  ps.find? fun p => p.aliasName == name

theorem text_alias {ps : List Parameter} {name : String} {first : Parameter}
    (h : firstSharing? ps name = some first) : Alias.text ⟨name, keysOf ps name⟩ =
      if Name.isBare first.name then typeText name first.type.declared
      else interfaceText name (keysOf ps name) := by
  have hhead : (keysOf ps name).head? = some (first.name, first.type.declared) := by
    rw [keysOf, Table.head?_ofListNew, List.head?_map, sharing, List.head?_filter, ← firstSharing?, h]
    rfl
  obtain ⟨rest, hrest⟩ := List.head?_eq_some_iff.mp hhead
  rw [hrest, Alias.text]
  rfl

variable {ps : List Parameter}

theorem declaring_declarations (hchars : ∀ p ∈ ps, ∀ c ∈ p.aliasName.toList, Lexeme.isNameChar c = true)
    {p : Parameter} (hp : p ∈ ps) : declaring (declarations ps) p.aliasName =
      [Alias.text ⟨p.aliasName, keysOf ps p.aliasName⟩] := by
  have hname : ∀ a ∈ aliases ps, declaredName? a.text = some a.name := by
    intro a ha
    obtain ⟨q, hq, hqa⟩ := exists_aliasName_of_mem_aliases ha
    exact Alias.declaredName?_text (ne_nil_of_mem_aliases ha) (hqa ▸ hchars q hq)
  have hfilter : (aliases ps).filter (fun a => declaredName? a.text == some p.aliasName) =
      (aliases ps).filter fun a => a.name == p.aliasName :=
    List.filter_congr fun a ha => by rw [hname a ha]; rfl
  have honce : (ps.map aliasName).eraseDups.filter (· == p.aliasName) = [p.aliasName] := by
    rw [List.filter_beq, List.count_eq_one_of_mem (Table.nodup_eraseDups _)]
    · rfl
    · exact List.mem_eraseDups.mpr (List.mem_map_of_mem hp)
  rw [declaring, declarations, List.filter_map]
  show ((aliases ps).filter fun a => declaredName? a.text == some p.aliasName).map Alias.text = _
  rw [hfilter, aliases_eq, List.filter_map]
  show (((ps.map aliasName).eraseDups.filter (· == p.aliasName)).map _).map _ = _
  rw [honce]
  rfl

theorem typeText_ne_interfaceText (name other type : String) (fields : Table String String) :
    typeText name type ≠ interfaceText other fields := by
  have htype : (typeText name type).toList[7]? = some 't' := by
    unfold typeText
    rw [String.append_assoc, String.append_assoc, String.append_assoc, String.toList_append,
      List.getElem?_append_left (by decide)]
    simp
  have hinterface : (interfaceText other fields).toList[7]? = some 'i' := by
    unfold interfaceText
    rw [String.append_assoc, String.append_assoc, String.append_assoc, String.toList_append,
      List.getElem?_append_left (by decide)]
    simp
  intro h
  rw [h, hinterface] at htype
  cases htype

/-! ## References -/

/-- The reference is a name, declared as the type of the first parameter with a bare name that has
the alias. -/
structure ResolvesToType (lines : List String) (ps : List Parameter) (p : Parameter) : Prop where
  reference : p.reference = "Parameters." ++ p.aliasName
  declared : ∃ first, ps.find? (fun q => Name.isBare q.name && q.aliasName == p.aliasName) =
      some first ∧
    declaring lines p.aliasName = [typeText p.aliasName first.type.declared]

/-- The reference is a quoted key of a name, declared as an interface in which the key has the type
of the first parameter of its name. -/
structure ResolvesToKey (lines : List String) (ps : List Parameter) (p : Parameter) : Prop where
  reference : p.reference = "Parameters." ++ p.aliasName ++ "[" ++ Text.quoted p.name ++ "]"
  declared : ∃ first fields, ps.find? (fun q => q.name == p.name) = some first ∧
    declaring lines p.aliasName = [interfaceText p.aliasName fields] ∧
    (fields.map (·.1)).Nodup ∧ fields.get? p.name = some first.type.declared

def Resolves (lines : List String) (ps : List Parameter) (p : Parameter) : Prop :=
  ResolvesToType lines ps p ∨ ResolvesToKey lines ps p

theorem reference_of_isBare {p : Parameter} (h : Name.isBare p.name = true) :
    p.reference = "Parameters." ++ p.aliasName := by
  rw [reference, if_pos h, String.append_empty]

theorem reference_of_not_isBare {p : Parameter} (h : ¬ Name.isBare p.name = true) :
    p.reference = "Parameters." ++ p.aliasName ++ "[" ++ Text.quoted p.name ++ "]" := by
  rw [reference, if_neg h]
  simp only [String.append_assoc]

theorem reference_inj_of_quoted {name : String} (key : String) :
    "Parameters." ++ name ++ "[" ++ Text.quoted key ++ "]" ≠ "Parameters." ++ name := by
  intro h
  have hclosing : "]".length = 1 := rfl
  have h := congrArg String.length h
  simp only [String.length_append] at h
  omega

theorem exists_firstSharing? {p : Parameter} (hp : p ∈ ps) :
    ∃ first ∈ ps, firstSharing? ps p.aliasName = some first ∧ first.aliasName = p.aliasName := by
  have hsome : (firstSharing? ps p.aliasName).isSome :=
    List.find?_isSome.mpr ⟨p, hp, beq_self_eq_true _⟩
  obtain ⟨first, hfirst⟩ := Option.isSome_iff_exists.mp hsome
  exact ⟨first, List.mem_of_find?_eq_some hfirst, hfirst,
    eq_of_beq (List.find?_eq_some_iff_append.mp hfirst).1⟩

theorem find?_isBare {name : String} {first : Parameter} (h : firstSharing? ps name = some first)
    (hbare : Name.isBare first.name = true) :
    ps.find? (fun q => Name.isBare q.name && q.aliasName == name) = some first := by
  obtain ⟨hname, front, back, rfl, hfront⟩ := List.find?_eq_some_iff_append.mp h
  refine List.find?_eq_some_iff_append.mpr ⟨by rw [hbare, hname]; rfl, front, back, rfl, ?_⟩
  intro q hq
  rw [Bool.not_and, hfront q hq, Bool.or_true]

variable (htypes : ∀ p ∈ ps, p.typeName = Name.capitalize (Name.sanitize p.name))
include htypes

theorem aliasName_congr {p q : Parameter} (hp : p ∈ ps) (hq : q ∈ ps) (h : q.name = p.name) :
    q.aliasName = p.aliasName := by
  rw [aliasName, aliasName, htypes p hp, htypes q hq, h]

theorem get?_keysOf {p : Parameter} (hp : p ∈ ps) : (keysOf ps p.aliasName).get? p.name =
    (ps.find? fun q => q.name == p.name).map fun q => q.type.declared := by
  have hfind : (sharing ps p.aliasName).find? (fun q => q.name == p.name) =
      ps.find? fun q => q.name == p.name := by
    rw [sharing, List.find?_filter]
    refine List.find?_congr fun q hq => ?_
    by_cases hname : q.name = p.name
    · simp [hname, aliasName_congr htypes hp hq hname]
    · simp [hname]
  rw [keysOf, Table.get?_ofListNew, Table.get?, List.find?_map, Option.map_map]
  show ((sharing ps p.aliasName).find? fun q => q.name == p.name).map _ = _
  rw [hfind]
  rfl

/-- A bare name has the alias of a name that needs quotes. -/
def SharesAlias (bare quoted : Parameter) : Prop :=
  Name.isBare bare.name = true ∧ Name.isBare quoted.name = false ∧
    Name.capitalize (Name.sanitize bare.name) =
      "Param_" ++ Name.capitalize (Name.sanitize quoted.name)

instance (p q : Parameter) : Decidable (SharesAlias p q) := inferInstanceAs (Decidable (_ ∧ _ ∧ _))

theorem sharesAlias_iff {p q : Parameter} (hp : p ∈ ps) (hq : q ∈ ps) : SharesAlias p q ↔
    Name.isBare p.name = true ∧ Name.isBare q.name = false ∧ p.aliasName = q.aliasName := by
  refine and_congr_right fun hbare => and_congr_right fun hquoted => ?_
  rw [aliasName, aliasName, if_pos hbare, hquoted, if_neg Bool.false_ne_true, htypes p hp, htypes q hq]

variable (hchars : ∀ p ∈ ps, ∀ c ∈ p.aliasName.toList, Lexeme.isNameChar c = true)
include hchars

omit htypes in
theorem resolvesToType_iff {p first : Parameter} (hp : p ∈ ps)
    (hfirst : firstSharing? ps p.aliasName = some first) :
    ResolvesToType (declarations ps) ps p ↔
      Name.isBare p.name = true ∧ Name.isBare first.name = true := by
  have hdeclaring := declaring_declarations hchars hp
  rw [text_alias hfirst] at hdeclaring
  constructor
  · rintro ⟨hreference, q, _, hq⟩
    refine ⟨?_, ?_⟩ <;> by_contra hbare
    · rw [reference_of_not_isBare hbare] at hreference
      exact reference_inj_of_quoted _ hreference
    · rw [if_neg hbare, hq] at hdeclaring
      exact typeText_ne_interfaceText _ _ _ _ (List.singleton_inj.mp hdeclaring)
  · rintro ⟨hbare, hbareFirst⟩
    rw [if_pos hbareFirst] at hdeclaring
    exact ⟨reference_of_isBare hbare, first, find?_isBare hfirst hbareFirst, hdeclaring⟩

theorem resolvesToKey_iff {p first : Parameter} (hp : p ∈ ps)
    (hfirst : firstSharing? ps p.aliasName = some first) :
    ResolvesToKey (declarations ps) ps p ↔
      ¬ Name.isBare p.name = true ∧ ¬ Name.isBare first.name = true := by
  have hdeclaring := declaring_declarations hchars hp
  rw [text_alias hfirst] at hdeclaring
  constructor
  · rintro ⟨hreference, q, fields, _, hq, _⟩
    refine ⟨?_, ?_⟩ <;> intro hbare
    · rw [reference_of_isBare hbare] at hreference
      exact reference_inj_of_quoted _ hreference.symm
    · rw [if_pos hbare, hq] at hdeclaring
      exact typeText_ne_interfaceText _ _ _ _ (List.singleton_inj.mp hdeclaring).symm
  · rintro ⟨hbare, hbareFirst⟩
    rw [if_neg hbareFirst] at hdeclaring
    have hsome : (ps.find? fun q => q.name == p.name).isSome :=
      List.find?_isSome.mpr ⟨p, hp, beq_self_eq_true _⟩
    obtain ⟨q, hq⟩ := Option.isSome_iff_exists.mp hsome
    refine ⟨reference_of_not_isBare hbare, q, keysOf ps p.aliasName, hq, hdeclaring,
      Table.nodup_keys_ofListNew _, ?_⟩
    rw [get?_keysOf htypes hp, hq]
    rfl

theorem resolves_iff {p first : Parameter} (hp : p ∈ ps)
    (hfirst : firstSharing? ps p.aliasName = some first) :
    Resolves (declarations ps) ps p ↔ Name.isBare first.name = Name.isBare p.name := by
  rw [Resolves, resolvesToType_iff hchars hp hfirst, resolvesToKey_iff htypes hchars hp hfirst]
  cases Name.isBare p.name <;> cases Name.isBare first.name <;> decide

theorem forall_resolves_iff : (∀ p ∈ ps, Resolves (declarations ps) ps p) ↔
    ∀ p ∈ ps, ∀ q ∈ ps, ¬ SharesAlias p q := by
  constructor
  · intro h p hp q hq hshares
    obtain ⟨hbare, hquoted, halias⟩ := (sharesAlias_iff htypes hp hq).mp hshares
    obtain ⟨first, _, hfirst, _⟩ := exists_firstSharing? hp
    have hfirstBare := (resolves_iff htypes hchars hp hfirst).mp (h p hp)
    have hfirstQuoted := (resolves_iff htypes hchars hq (halias ▸ hfirst)).mp (h q hq)
    rw [hfirstBare, hbare, hquoted] at hfirstQuoted
    cases hfirstQuoted
  · intro h p hp
    obtain ⟨first, hin, hfirst, halias⟩ := exists_firstSharing? hp
    refine (resolves_iff htypes hchars hp hfirst).mpr ?_
    have hpq := h first hin p hp
    have hqp := h p hp first hin
    rw [sharesAlias_iff htypes hin hp] at hpq
    rw [sharesAlias_iff htypes hp hin] at hqp
    cases hone : Name.isBare first.name <;> cases hother : Name.isBare p.name
    · rfl
    · exact absurd ⟨hother, hone, halias.symm⟩ hqp
    · exact absurd ⟨hone, hother, halias⟩ hpq
    · rfl

end Parameter

namespace Operation

open Parameter

theorem mem_allParameters_iff {op : Operation} {p : Parameter} :
    p ∈ op.allParameters ↔ ∃ l, p ∈ op.parametersAt l := by
  have hall : ∀ l, l ∈ Location.all := by
    intro l
    cases l <;> decide
  simp [allParameters, List.mem_flatMap, hall]

theorem exists_record {op : Operation} {l : Location} {p : Parameter} (hp : p ∈ op.parametersAt l) :
    ∃ r ∈ op.parameterRecords, p ∈ r.2 := by
  by_contra hnone
  have hnot := (@forall_parameterRecords_iff op (p ∉ ·) List.not_mem_nil).mp fun r hr hmem =>
    hnone ⟨r, hr, hmem⟩
  exact hnot l hp

/-- The types of the parameters of an operation and the records that refer to them stand together in
its namespace. A reference resolves if and only if the first parameter with its alias is quoted as its
own one is; all of them do if and only if no bare name has the alias of a quoted one. -/
theorem resolves_collect {d : Document} {keep : Bool} {ops : List Operation}
    (h : (collect d keep).result = .ok ops) : ∀ op ∈ ops,
    (∀ text, (pathNamespace op).result = .ok text →
      Within text [op.scope] (namespaceText "Parameters" (declarations op.allParameters)) ∧
      ∀ l, ∀ p ∈ op.parametersAt l, ∃ r ∈ op.parameterRecords, p ∈ r.2 ∧
        Within text [op.scope] (recordText r.1 r.2)) ∧
    (∀ l, ∀ p ∈ op.parametersAt l, ∃ first,
      firstSharing? op.allParameters p.aliasName = some first ∧
      (Resolves (declarations op.allParameters) op.allParameters p ↔
        Name.isBare first.name = Name.isBare p.name)) ∧
    ((∀ l, ∀ p ∈ op.parametersAt l,
        Resolves (declarations op.allParameters) op.allParameters p) ↔
      ∀ p ∈ op.allParameters, ∀ q ∈ op.allParameters, ¬ SharesAlias p q) := by
  intro op hop
  have hnames := hasNames_collect h op hop
  have hchars : ∀ p ∈ op.allParameters, ∀ c ∈ p.aliasName.toList, Lexeme.isNameChar c = true :=
    fun p hp => hnames.isNameChar_aliasName (mem_of_mem_allParameters hp)
  have htypes : ∀ p ∈ op.allParameters, p.typeName = Name.capitalize (Name.sanitize p.name) :=
    fun p hp => hnames.parameter p (mem_of_mem_allParameters hp)
  -- every place lists parameters of the operation
  have hin : ∀ {l p}, p ∈ op.parametersAt l → p ∈ op.allParameters :=
    fun hp => mem_allParameters_iff.mpr ⟨_, hp⟩
  refine ⟨fun text htext => ⟨?_, fun l p hp => ?_⟩, fun l p hp => ?_, ?_⟩
  · obtain ⟨responses, _, hwithin⟩ := exists_within_pathNamespace htext
    exact hwithin _ (by simp [namespaceParts, declarations]) [] _ (.here _)
  · obtain ⟨r, hr, hmem⟩ := exists_record hp
    exact ⟨r, hr, hmem, within_record htext hr⟩
  · obtain ⟨first, _, hfirst, _⟩ := exists_firstSharing? (hin hp)
    exact ⟨first, hfirst, resolves_iff htypes hchars (hin hp) hfirst⟩
  · rw [← forall_resolves_iff htypes hchars]
    constructor
    · intro hall p hp
      obtain ⟨l, hl⟩ := mem_allParameters_iff.mp hp
      exact hall l p hl
    · exact fun hall l p hp => hall p (hin hp)

def queryDocument (names : List String) : Document :=
  .ofValue (.map [(.text "paths", .map [(.text "/pets", .map [
    (.text "get", .map [(.text "operationId", .scalar (.text "listPets")),
      (.text "parameters", .seq (names.map fun name =>
        .map [(.text "name", .scalar (.text name)), (.text "in", .scalar (.text "query"))]))])])])])

def idDocument : Document := queryDocument ["X_Id", "X-Id", "X.Id", "x_Id"]

theorem resolves_ids :
    ∃ ops, (collect idDocument false).result = .ok ops ∧
      ops.map (fun op => op.allParameters.map reference) = [["Parameters.X_Id",
        "Parameters.Param_X_Id[\"X-Id\"]", "Parameters.Param_X_Id[\"X.Id\"]", "Parameters.X_Id"]] ∧
      ∀ op ∈ ops, ∀ l, ∀ p ∈ op.parametersAt l,
        Resolves (declarations op.allParameters) op.allParameters p := by
  obtain ⟨ops, h⟩ : ∃ ops, (collect idDocument false).result = .ok ops :=
    Run.exists_of_isOk (by decide +kernel)
  have hreferences : (collect idDocument false).result.map
      (fun ops => ops.map fun op => op.allParameters.map reference) = .ok [["Parameters.X_Id",
        "Parameters.Param_X_Id[\"X-Id\"]", "Parameters.Param_X_Id[\"X.Id\"]", "Parameters.X_Id"]] := by
    decide +kernel
  have hshares : (collect idDocument false).result.map
      (fun ops => decide (∀ op ∈ ops, ∀ p ∈ op.allParameters, ∀ q ∈ op.allParameters,
        ¬ SharesAlias p q)) = .ok true := by decide +kernel
  rw [h] at hreferences hshares
  refine ⟨ops, h, Except.ok.inj hreferences, fun op hop => ?_⟩
  exact (resolves_collect h op hop).2.2.mpr (of_decide_eq_true (Except.ok.inj hshares) op hop)

/-- The alias of a bare name starts as those of quoted names do. -/
def guardDocument : Document := queryDocument ["param_2fa", "2fa"]

theorem exists_not_resolves :
    ∃ ops, (collect guardDocument false).result = .ok ops ∧
      ∃ op ∈ ops, ∃ p ∈ op.parametersAt .query,
        p.reference = "Parameters.Param_2fa[\"2fa\"]" ∧
        declarations op.allParameters = ["export type Param_2fa = any;"] ∧
        ¬ Resolves (declarations op.allParameters) op.allParameters p := by
  obtain ⟨ops, h⟩ : ∃ ops, (collect guardDocument false).result = .ok ops :=
    Run.exists_of_isOk (by decide +kernel)
  have hfacts : (collect guardDocument false).result.map (fun ops =>
      decide (∃ op ∈ ops, ∃ p ∈ op.parametersAt .query,
        p.reference = "Parameters.Param_2fa[\"2fa\"]" ∧ p.aliasName = "Param_2fa" ∧
        declarations op.allParameters = [typeText "Param_2fa" "any"])) = .ok true := by decide +kernel
  rw [h] at hfacts
  obtain ⟨op, hop, p, hp, hreference, hname, hlines⟩ := of_decide_eq_true (Except.ok.inj hfacts)
  refine ⟨ops, h, op, hop, p, hp, hreference, hlines, ?_⟩
  rintro (⟨hbare, _⟩ | ⟨_, _, fields, _, hdeclaring, _⟩)
  · rw [hreference, hname] at hbare
    revert hbare
    decide
  · have hmem : interfaceText p.aliasName fields ∈ declaring (declarations op.allParameters)
        p.aliasName := hdeclaring ▸ List.mem_singleton_self _
    have hline := (List.mem_filter.mp hmem).1
    rw [hlines, List.mem_singleton] at hline
    exact typeText_ne_interfaceText _ _ _ _ hline.symm

end Operation

end ApiTypes
