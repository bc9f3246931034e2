import ApiTypes.Proofs.Balanced
import ApiTypes.Proofs.JsonSchema

/-!
# Delimiters of types

The text of a type, declared or as a validator, is balanced, whatever a document puts into its keys,
literals, descriptions and examples.
-/

namespace ApiTypes

open Delimiter

namespace TypeExpr

/-! ## Names and keys -/

theorem balanced_path {name : String} (h : IsComponentName name) :
    Balanced (componentPath name).toList := by
  have hscope : Balanced "Components.Schemas".toList := balanced_fixed fun _ => rfl
  have hpoint : Balanced ['.'] := balanced_fixed fun _ => rfl
  rw [componentPath_toList]
  exact hscope.append (hpoint.append (balanced_name h.2))

theorem balanced_typeName {name : String} (h : IsTypeName name) : Balanced name.toList := by
  cases h with
  | primitive h =>
    have hall : ∀ s ∈ primitives, s.toList.all isPlain = true := by decide
    exact balanced_of_plain (List.all_eq_true.mp (hall name h))
  | openMap => exact balanced_fixed fun _ => rfl
  | component h => exact balanced_path h

theorem balanced_propertyKey (name : String) : Balanced (Name.propertyKey name).toList := by
  unfold Name.propertyKey
  split
  · exact balanced_name (Lexeme.isNameChar_of_isName (Lexeme.isName_of_isBare ‹_›))
  · exact balanced_quoted name

theorem balanced_blockComment (entries : List String) :
    Balanced (Prose.blockComment entries Prose.commentLead).toList := by
  rw [Prose.toList_blockComment]
  exact fun _ => .comment (Prose.staysOpen_commentBody entries)

/-! ## Declared types -/

theorem balanced_parenthesized {s : String} (h : Balanced s.toList) :
    Balanced (parenthesized s).toList := h.between ['('] (fun _ => rfl) fun _ => rfl

theorem balanced_joined {operator empty : String} {operands : List String}
    (hoperator : Balanced operator.toList) (hempty : Balanced empty.toList)
    (h : ∀ s ∈ operands, Balanced s.toList) : Balanced (joined operator empty operands).toList := by
  unfold joined
  dsimp only
  split
  · exact hempty
  · exact balanced_intercalate hoperator h

theorem balanced_propertyText (name : String) (required : Bool) (t : TypeExpr)
    (h : Balanced t.declared.toList) :
    Balanced (propertyText name required t t.declared).toList := by
  obtain ⟨comment, hcomment, htext⟩ := exists_propertyText_eq name required t t.declared
  have hfront : Balanced comment.toList := by
    rcases hcomment with rfl | ⟨lines, rfl⟩
    · exact .nil
    · exact (balanced_blockComment _).text_append (balanced_fixed fun _ => rfl)
  have hmark : Balanced (if required then "" else "?").toList := by
    cases required with
    | true => exact .nil
    | false => exact balanced_fixed fun _ => rfl
  have htype : Balanced (if t.lacksNull then t.declared ++ " | null" else t.declared).toList := by
    split
    · exact h.text_append (balanced_fixed fun _ => rfl)
    · exact h
  have hindent : Balanced "    ".toList := balanced_fixed fun _ => rfl
  have hcolon : Balanced ": ".toList := balanced_fixed fun _ => rfl
  have hend : Balanced ";".toList := balanced_fixed fun _ => rfl
  have hkey := (hfront.text_append hindent).text_append (balanced_propertyKey name)
  rw [htext]
  exact (((hkey.text_append hmark).text_append hcolon).text_append htype).text_append hend

theorem balanced_declared {t : TypeExpr} (h : t.HasTypeNames) : Balanced t.declared.toList := by
  induction t with
  | identifier i name => exact balanced_typeName (h i name rfl)
  | literal i value => exact value.snapshot.balanced_json
  | array i t ih =>
    -- parentheses around an operand balance as it does
    have hoperand : Balanced (arrayOperand t t.declared).toList := by
      unfold arrayOperand
      split
      · exact balanced_parenthesized (ih h.2)
      · exact balanced_parenthesized (ih h.2)
      · exact ih h.2
    exact hoperand.text_append (balanced_fixed fun _ => rfl)
  | union i ts ih =>
    rw [declared, declaredMembers_eq_map]
    apply balanced_joined (balanced_fixed fun _ => rfl) (balanced_fixed fun _ => rfl)
    exact List.forall_mem_map.mpr fun t ht => ih t ht (everyMember_iff.mp h.2 t ht)
  | intersection i ts ih =>
    rw [declared, declaredOperands_eq_map]
    apply balanced_joined (balanced_fixed fun _ => rfl) (balanced_fixed fun _ => rfl)
    refine List.forall_mem_map.mpr fun t ht => ?_
    have htype := ih t ht (everyMember_iff.mp h.2 t ht)
    unfold intersectionOperand
    split
    · exact balanced_parenthesized htype
    · exact htype
  | generic i base ts ihb ih =>
    rw [declared, declaredMembers_eq_map]
    have hparams : Balanced (String.intercalate ", " (ts.map declared)).toList := by
      apply balanced_intercalate (balanced_fixed fun _ => rfl)
      exact List.forall_mem_map.mpr fun t ht => ih t ht (everyMember_iff.mp h.2.2 t ht)
    have hopen : Balanced "<".toList := balanced_fixed fun _ => rfl
    have hclose : Balanced ">".toList := balanced_fixed fun _ => rfl
    exact (((ihb h.2.1).text_append hopen).text_append hparams).text_append hclose
  | object i ps required ih =>
    rw [declared, declaredProperties_eq_map]
    have hproperties : Balanced (String.intercalate "\n" (ps.map fun p =>
        propertyText p.1 (required.contains p.1) p.2 p.2.declared)).toList := by
      apply balanced_intercalate (balanced_fixed fun _ => rfl)
      exact List.forall_mem_map.mpr fun p hp =>
        balanced_propertyText _ _ _ (ih p hp (everyProperty_iff.mp h.2 p hp))
    exact hproperties.between ['\x7b'] (fun _ => rfl) fun _ => rfl

/-! ## Validators -/

theorem balanced_identifierValidator (deferred : List String) {name : String}
    (h : IsTypeName name) : Balanced (identifierValidator deferred name).toList := by
  have hname := balanced_typeName h
  have hconstant : Balanced (validatorName name).toList :=
    hname.text_append (balanced_fixed fun _ => rfl)
  unfold identifierValidator
  split
  · exact hname.between [] (fun _ => rfl) fun _ => rfl
  split
  · exact balanced_fixed fun _ => rfl
  split
  · exact hconstant.between ['('] (fun _ => rfl) fun _ => rfl
  · exact hconstant

theorem balanced_unionValidator {vs : List String} (h : ∀ v ∈ vs, Balanced v.toList) :
    Balanced (unionValidator vs).toList := by
  unfold unionValidator
  split
  · exact balanced_fixed fun _ => rfl
  · exact h _ (List.mem_singleton_self _)
  · have hcomma : Balanced ", ".toList := balanced_fixed fun _ => rfl
    have hlist := balanced_intercalate hcomma h
    exact hlist.between ['[', '('] (fun _ => rfl) fun _ => rfl

theorem balanced_intersectionValidator {vs : List String} (h : ∀ v ∈ vs, Balanced v.toList) :
    Balanced (intersectionValidator vs).toList := by
  have hcomma : Balanced ", ".toList := balanced_fixed fun _ => rfl
  cases vs with
  | nil => exact balanced_fixed fun _ => rfl
  | cons v vs =>
    obtain ⟨hv, hvs⟩ := List.forall_mem_cons.mp h
    show Balanced (vs.foldl _ v).toList
    clear h
    induction vs generalizing v with
    | nil => exact hv
    | cons w vs ih =>
      obtain ⟨hw, hvs⟩ := List.forall_mem_cons.mp hvs
      have hpair : Balanced ("z.intersection(" ++ v ++ ", " ++ w ++ ")").toList := by
        intro os
        have hopen : Turns os "z.intersection(".toList ('(' :: os) := turns_of_openBehind rfl
        have hfirst := (hopen.text_append (hv _)).text_append (hcomma _)
        exact (hfirst.text_append (hw _)).text_append (turns_of_openBehind rfl)
      exact ih _ hpair hvs

theorem balanced_propertyValidator (name : String) (required : Bool) (t : TypeExpr) {v : String}
    (h : Balanced v.toList) : Balanced (propertyValidator name required t v).toList := by
  have hnullable : Balanced (if t.lacksNull then ".nullable()" else "").toList := by
    split
    · exact balanced_fixed fun _ => rfl
    · exact .nil
  have hoptional : Balanced (if required then "" else ".optional()").toList := by
    cases required with
    | true => exact .nil
    | false => exact balanced_fixed fun _ => rfl
  have hcolon : Balanced ": ".toList := balanced_fixed fun _ => rfl
  have hvalue := ((balanced_quoted name).text_append hcolon).text_append h
  exact (hvalue.text_append hnullable).text_append hoptional

theorem balanced_objectValidator {entries : List String} (h : ∀ e ∈ entries, Balanced e.toList) :
    Balanced (objectValidator entries).toList := by
  unfold objectValidator
  split
  · exact balanced_fixed fun _ => rfl
  · have hcomma : Balanced ", ".toList := balanced_fixed fun _ => rfl
    have hlist := balanced_intercalate hcomma h
    exact hlist.between ['\x7b', '('] (fun _ => rfl) fun _ => rfl

theorem balanced_validator (deferred : List String) {t : TypeExpr} (h : t.HasTypeNames) :
    Balanced (t.validator deferred).toList := by
  induction t with
  | identifier i name => exact balanced_identifierValidator deferred (h i name rfl)
  | literal i value =>
    have hjson : Balanced value.json.toList := value.snapshot.balanced_json
    exact hjson.between ['('] (fun _ => rfl) fun _ => rfl
  | array i t ih => exact (ih h.2).between ['('] (fun _ => rfl) fun _ => rfl
  | union i ts ih =>
    rw [validator, validators_eq_map]
    apply balanced_unionValidator
    exact List.forall_mem_map.mpr fun t ht => ih t ht (everyMember_iff.mp h.2 t ht)
  | intersection i ts ih =>
    rw [validator, validators_eq_map]
    apply balanced_intersectionValidator
    exact List.forall_mem_map.mpr fun t ht => ih t ht (everyMember_iff.mp h.2 t ht)
  | generic i base ts ihb _ => exact ihb h.2.1
  | object i ps required ih =>
    rw [validator, propertyValidators_eq_map]
    apply balanced_objectValidator
    exact List.forall_mem_map.mpr fun p hp =>
      balanced_propertyValidator _ _ _ (ih p hp (everyProperty_iff.mp h.2 p hp))

end TypeExpr

/-! ## Types of schemas -/

namespace Schema

theorem balanced_typeAt {room : Nat} {depth : Int} {outer : List Nat} {s : Document} {t : TypeExpr}
    (h : (typeAt room depth outer s).result = .ok t) (deferred : List String) :
    Balanced t.declared.toList ∧ Balanced (t.validator deferred).toList :=
  ⟨TypeExpr.balanced_declared (hasTypeNames_typeAt h),
    TypeExpr.balanced_validator deferred (hasTypeNames_typeAt h)⟩

/-- A schema of JSON has a type at every depth, and both texts of it are free of problems. Only an
integer of too many digits keeps them from being written. -/
theorem problems_typeAtDepth {v : Value} (h : v.IsJson) (depth : Int) (deferred : List String) :
    ∃ t, (typeAtDepth depth (.ofValue v)).result = .ok t ∧
      problems t.declared = [] ∧ problems (t.validator deferred) = [] ∧
      (v.fault? = none → t.declaredFault? = none ∧ t.validatorFault? = none) := by
  obtain ⟨t, ht⟩ := exists_typeAt (s := .ofValue v) h (maxDepth + 1 - depth).toNat depth []
  obtain ⟨hdeclared, hvalidator⟩ := balanced_typeAt ht deferred
  refine ⟨t, ht, hdeclared.problems, hvalidator.problems, fun hfault => ?_⟩
  have hwritable := writable_typeAt ht h hfault
  exact ⟨hwritable.declared, hwritable.validator⟩

/-- A property whose key, literals and remarks would break out of a careless text. -/
def thornySchema : Value :=
  .map [(.text "type", .scalar (.text "object")), (.text "properties", .map [
    (.text "a\"b[*/", .map [(.text "enum", .seq [.scalar (.text "]'\\\n"), .scalar (.int (-1))]),
      (.text "description", .scalar (.text "ends */ here \x7b")),
      (.text "example", .scalar (.text "(*/"))])])]

theorem problems_thornySchema : thornySchema.IsJson ∧ ∃ t,
    (typeAtDepth (-2) (.ofValue thornySchema)).result = .ok t ∧
      problems t.declared = [] ∧ problems (t.validator ["Owner"]) = [] ∧
      (thornySchema.fault? = none → t.declaredFault? = none ∧ t.validatorFault? = none) := by
  have h : thornySchema.IsJson := by
    refine .map (by simp) ?_
    simp only [List.forall_mem_cons]
    refine ⟨.text _, .map (by simp) ?_, List.forall_mem_nil _⟩
    simp only [List.forall_mem_cons]
    refine ⟨.map (by simp) ?_, List.forall_mem_nil _⟩
    simp only [List.forall_mem_cons]
    refine ⟨.seq ?_, .text _, .text _, List.forall_mem_nil _⟩
    simp only [List.forall_mem_cons]
    exact ⟨.text _, .int _, List.forall_mem_nil _⟩
  exact ⟨h, problems_typeAtDepth h (-2) ["Owner"]⟩

end Schema

end ApiTypes
