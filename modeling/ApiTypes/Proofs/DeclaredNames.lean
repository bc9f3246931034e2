import ApiTypes.Proofs.Closing
import ApiTypes.Proofs.OperationNames
import ApiTypes.Proofs.TypeSyntax

/-!
# Names of declarations

The name that a declaration is read to declare, of every kind of declaration in a module. It is the name
that the declaration was made for, but that a status ends where it has no more characters of names.
-/

namespace ApiTypes

/-! ## Reading -/

def declarationKinds : List String := ["type", "interface", "namespace", "const"]

def declarationOpening (kind : String) : List Char := ("export " ++ kind ++ " ").toList

def leadingName (s : String) : String := String.ofList (s.toList.takeWhile Lexeme.isNameChar)

/-- The name that a text declares first, if it starts with a declaration. -/
def nameDeclared? (cs : List Char) : Option String :=
  (declarationKinds.find? fun kind => (declarationOpening kind).isPrefixOf cs).map fun kind =>
    String.ofList ((cs.drop (declarationOpening kind).length).takeWhile Lexeme.isNameChar)

def declaredName? (s : String) : Option String := nameDeclared? s.toList

def declaredNames (texts : List String) : List String := texts.filterMap declaredName?

theorem takeWhile_append_stop {p : Char → Bool} (cs : List Char) {ds : List Char}
    (h : ∀ c ∈ ds.head?, p c = false) : (cs ++ ds).takeWhile p = cs.takeWhile p := by
  induction cs with
  | nil =>
    cases ds with
    | nil => rfl
    | cons d ds => exact List.takeWhile_cons_of_neg (by rw [h d rfl]; decide)
  | cons c cs ih => rw [List.cons_append, List.takeWhile_cons, ih, List.takeWhile_cons]

theorem leadingName_append (name : String) {rest : String}
    (h : ∀ c ∈ rest.toList.head?, Lexeme.isNameChar c = false) :
    leadingName (name ++ rest) = leadingName name := by
  rw [leadingName, String.toList_append, takeWhile_append_stop _ h, ← leadingName]

theorem leadingName_eq {name : String} (h : ∀ c ∈ name.toList, Lexeme.isNameChar c = true) :
    leadingName name = name := by
  rw [leadingName, List.takeWhile_eq_self_iff.mpr h, String.ofList_toList]

theorem declaredName?_opening (kind : String) (hkind : kind ∈ declarationKinds) (rest : String) :
    declaredName? ("export " ++ kind ++ " " ++ rest) = some (leadingName rest) := by
  have hfind : (declarationKinds.find? fun k =>
      (declarationOpening k).isPrefixOf ("export " ++ kind ++ " " ++ rest).toList) = some kind := by
    simp only [declarationKinds, List.mem_cons, List.not_mem_nil, or_false] at hkind
    rcases hkind with rfl | rfl | rfl | rfl <;> rw [String.toList_append] <;> rfl
  rw [declaredName?, nameDeclared?, hfind, Option.map_some, String.toList_append, declarationOpening,
    List.drop_left, leadingName]

theorem declaredName?_eq (kind : String) (hkind : kind ∈ declarationKinds) {s name rest : String}
    (hs : s = "export " ++ kind ++ " " ++ (name ++ rest))
    (hrest : ∀ c ∈ rest.toList.head?, Lexeme.isNameChar c = false) :
    declaredName? s = some (leadingName name) := by
  rw [hs, declaredName?_opening kind hkind, leadingName_append name hrest]

theorem declaredName?_of_name (kind : String) (hkind : kind ∈ declarationKinds)
    {s name rest : String} (hs : s = "export " ++ kind ++ " " ++ (name ++ rest))
    (hname : ∀ c ∈ name.toList, Lexeme.isNameChar c = true)
    (hrest : ∀ c ∈ rest.toList.head?, Lexeme.isNameChar c = false) : declaredName? s = some name := by
  rw [declaredName?_eq kind hkind hs hrest, leadingName_eq hname]

theorem declaredNames_map {α : Type} {text name : α → String} {items : List α}
    (h : ∀ a ∈ items, declaredName? (text a) = some (name a)) :
    declaredNames (items.map text) = items.map name := by
  rw [declaredNames, List.filterMap_map, ← List.filterMap_eq_map]
  exact List.filterMap_congr h

/-! ### Components -/

namespace Component

section
variable {c : Component} (h : ∀ d ∈ c.name.toList, Lexeme.isNameChar d = true)
include h

theorem declaredName?_rootAlias : declaredName? c.rootAlias = some c.name := by
  delta rootAlias
  simp only [String.append_assoc]
  exact declaredName?_of_name "type" (by decide) rfl h (by simp [Lexeme.isNameChar])

theorem declaredName?_uncommented : declaredName? c.uncommented = some c.name := by
  unfold uncommented
  split
  · simp only [String.append_assoc]
    exact declaredName?_of_name "interface" (by decide) rfl h (by simp [Lexeme.isNameChar])
  · simp only [String.append_assoc]
    exact declaredName?_of_name "type" (by decide) rfl h (by simp [Lexeme.isNameChar])

end

theorem declaredName?_constant {d : ValidatorDeclaration}
    (h : ∀ c ∈ d.component.toList, Lexeme.isNameChar c = true) :
    declaredName? d.text = some (TypeExpr.validatorName d.component) := by
  have hname : ∀ c ∈ (TypeExpr.validatorName d.component).toList, Lexeme.isNameChar c = true := by
    rw [TypeExpr.validatorName, String.toList_append]
    exact List.forall_mem_append.mpr ⟨h, List.all_eq_true.mp rfl⟩
  delta ValidatorDeclaration.text
  simp only [String.append_assoc]
  exact declaredName?_of_name "const" (by decide) rfl hname (by simp [Lexeme.isNameChar])

end Component

/-! ### Operations -/

namespace Parameter

theorem Alias.declaredName?_text {a : Alias} (hkeys : a.keys ≠ [])
    (h : ∀ c ∈ a.name.toList, Lexeme.isNameChar c = true) : declaredName? a.text = some a.name := by
  unfold text
  split
  · exact absurd ‹_› hkeys
  dsimp only
  split
  · simp only [String.append_assoc]
    exact declaredName?_of_name "type" (by decide) rfl h (by simp [Lexeme.isNameChar])
  · simp only [String.append_assoc]
    exact declaredName?_of_name "interface" (by decide) rfl h (by simp [Lexeme.isNameChar])

theorem ne_nil_of_mem_aliases {ps : List Parameter} {a : Alias} (h : a ∈ aliases ps) :
    a.keys ≠ [] := by
  obtain ⟨e, he, rfl⟩ := List.mem_map.mp h
  exact Table.ofListNew_ne_nil (Table.ne_nil_of_mem_group e he)

theorem exists_aliasName_of_mem_aliases {ps : List Parameter} {a : Alias} (h : a ∈ aliases ps) :
    ∃ p ∈ ps, p.aliasName = a.name := by
  obtain ⟨e, he, rfl⟩ := List.mem_map.mp h
  obtain ⟨x, hx⟩ := List.exists_mem_of_ne_nil _ (Table.ne_nil_of_mem_group e he)
  exact @Table.forall_group _ _ _ _ (fun name _ => ∃ p ∈ ps, p.aliasName = name)
    (ps.map fun p => (p.aliasName, p.name, p.type.declared))
    (List.forall_mem_map.mpr fun p hp => ⟨p, hp, rfl⟩) e he x hx

theorem head?_field (p : Parameter) :
    (Lexeme.ofText p.field).head? = some (TypeSyntax.keyLexeme p.name) := by
  have hindent : Lexeme.Spells Lexeme.never "    ".toList [] := fun _ _ => rfl
  have hkey := hindent.append_never (TypeSyntax.spells_key p.name)
  have hrest : ∀ c ∈ ((if p.required then "" else "?") ++ (": " ++ (p.reference ++ ";"))).toList.head?,
      Lexeme.isNameChar c = false := by
    split <;> simp [Lexeme.isNameChar]
  have htext : p.field.toList = "    ".toList ++ (Name.propertyKey p.name).toList ++
      ((if p.required then "" else "?") ++ (": " ++ (p.reference ++ ";"))).toList := by
    simp only [field, String.toList_append, List.append_assoc]
  rw [Lexeme.ofText, htext, hkey _ hrest]
  rfl

end Parameter

namespace Operation

theorem declaredName?_pathNamespace {op : Operation} (hop : op.HasNames) {s : String}
    (h : (pathNamespace op).result = .ok s) : declaredName? s = some op.scope := by
  obtain ⟨_, _, h⟩ := Run.bind_eq_ok.mp h
  obtain ⟨_, _, h⟩ := Run.bind_eq_ok.mp h
  obtain ⟨_, _, h⟩ := Run.bind_eq_ok.mp h
  cases h
  simp only [String.append_assoc]
  exact declaredName?_of_name "namespace" (by decide) rfl hop.isNameChar_scope
    (by simp [Lexeme.isNameChar])

def ResponseAlias.declaration (a : ResponseAlias) : String :=
  if a.media.isEmpty then a.text else "export type " ++ a.uncommented

theorem ResponseAlias.declaredName?_declaration (a : ResponseAlias) :
    declaredName? a.declaration = some (leadingName a.name) := by
  unfold declaration
  split
  · rename_i hmedia
    rw [text, if_pos hmedia]
    simp only [String.append_assoc]
    exact declaredName?_eq "type" (by decide) rfl (by simp [Lexeme.isNameChar])
  · simp only [uncommented, String.append_assoc]
    exact declaredName?_eq "type" (by decide) rfl (by simp [Lexeme.isNameChar])

theorem status_responseAlias {status : String} {r : Response} {a : ResponseAlias}
    (h : (responseAlias status r).result = .ok a) : a.status = status := by
  obtain ⟨_, _, h⟩ := Run.bind_eq_ok.mp h
  cases h
  rfl

theorem statuses_responseAliases {responses : Table String Response} {aliases : List ResponseAlias}
    (h : (responses.mapM fun r => responseAlias r.1 r.2).result = .ok aliases) :
    aliases.map (·.status) = responses.map (·.1) :=
  (map_congr_forall₂ ((Run.mapM_eq_ok.mp h).imp fun _ _ ha => (status_responseAlias ha).symm)).symm

theorem head?_uncommented {op : Operation} (hop : op.HasNames) :
    (Lexeme.ofText op.uncommented).head? =
      some (if op.id = "" then .mark ':' else .word op.id.toList) := by
  have hchars : ∀ c ∈ op.id.toList, Lexeme.isNameChar c = true := fun c hc =>
    Schema.isNameChar_of_isWordChar (hop.isWordChar_id c hc)
  have htext : op.uncommented.toList =
      op.id.toList ++ (": ".toList ++ (op.signature.text ++ ";").toList) := by
    simp only [uncommented, String.toList_append, List.append_assoc]
  rw [Lexeme.ofText, htext]
  split
  · rename_i hid
    rw [hid]
    rfl
  · rename_i hid
    have hword := Lexeme.Spells.word hchars (mt String.toList_eq_nil_iff.mp hid)
    rw [hword _ (by intro c hc; cases hc; decide)]
    rfl

end Operation

end ApiTypes
