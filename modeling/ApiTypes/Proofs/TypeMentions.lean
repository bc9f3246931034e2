import ApiTypes.TypeExpr.Declared
import ApiTypes.Proofs.Mapping
import ApiTypes.Proofs.Mentions

/-!
# Mentions in types

The text of a type mentions the components that the type refers to, and its validator the constants of
these components. What else stands in them, be it keys, literals, descriptions or examples, mentions
nothing.
-/

namespace ApiTypes

open Lexeme (never isWordChar isNameChar)

namespace TypeExpr

def Refers (D : String → Prop) (t : TypeExpr) : Prop :=
  t.Every fun t => ∀ i name, t = identifier i (componentPath name) → D name

variable {D : String → Prop}

/-! ## Declared types -/

theorem resolved_typeName {name : String} (h : IsTypeName name)
    (hD : ∀ n, name = componentPath n → D n) : Resolved D isWordChar name := by
  cases h with
  | primitive h =>
    have hall : ∀ s ∈ primitives, Lexeme.isInertWord s = true := by decide
    exact .fixedWord (hall name h)
  | openMap =>
    have hmap : Resolved D never openMap := .fixed rfl
    exact hmap.weaken
  | component h => exact (Resolved.path h.2 (hD _ rfl)).word_of_name

theorem resolved_parenthesized {p : Char → Bool} {s : String} (h : Resolved D isWordChar s) :
    Resolved D p (parenthesized s) := (h.between rfl rfl rfl).weaken

theorem resolved_joined {operator empty : String} {operands : List String}
    (hoperator : Lexeme.isInert operator = true)
    (hhead : operator.toList.head?.any (fun c => !isWordChar c) = true)
    (hempty : Lexeme.isInertWord empty = true) (h : ∀ s ∈ operands, Resolved D isWordChar s) :
    Resolved D isWordChar (joined operator empty operands) := by
  unfold joined
  dsimp only
  split
  · exact .fixedWord hempty
  · exact (Resolved.fixed hoperator).intercalate hhead h

theorem resolved_propertyText (name : String) (required : Bool) (t : TypeExpr)
    (h : Resolved D isWordChar t.declared) :
    Resolved D never (propertyText name required t t.declared) := by
  obtain ⟨comment, hcomment, htext⟩ := exists_propertyText_eq name required t t.declared
  have hfront : Resolved D never comment := by
    rcases hcomment with rfl | ⟨lines, rfl⟩
    · exact .empty
    · exact (Resolved.comment _).append (.fixed rfl)
  have hindent : Resolved D never "    " := .fixed rfl
  have hcolon : Resolved D never ": " := .fixed rfl
  have hend : Resolved D never ";" := .fixed rfl
  have hmark : Resolved D never ((if required then "" else "?") ++ ": ") := by
    cases required with
    | true => exact .fixed rfl
    | false => exact .fixed rfl
  have htype : Resolved D isWordChar (if t.lacksNull then t.declared ++ " | null" else t.declared) := by
    split
    · exact h.before (.fixedWord rfl) rfl
    · exact h
  have hkey := (hfront.append hindent).append (.propertyKey name)
  have hmarked := hkey.before hmark (by cases required <;> rfl)
  have hall := (hmarked.append htype).before hend rfl
  rw [← String.append_assoc] at hall
  rwa [htext]

theorem resolved_declared {t : TypeExpr} (h : t.HasTypeNames) (hD : t.Refers D) :
    Resolved D isWordChar t.declared := by
  induction t with
  | identifier i name =>
    -- a path of a component mentions that component and nothing else
    have hname : ∀ n, name = componentPath n → D n := fun n hn => hD i n (by rw [hn])
    exact resolved_typeName (h i name rfl) hname
  | literal i value => exact value.snapshot.resolved_json
  | array i t ih =>
    have hoperand : Resolved D isWordChar (arrayOperand t t.declared) := by
      unfold arrayOperand
      split
      · exact resolved_parenthesized (ih h.2 hD.2)
      · exact resolved_parenthesized (ih h.2 hD.2)
      · exact ih h.2 hD.2
    have hbrackets : Resolved D never "[]" := .fixed rfl
    exact (hoperand.before hbrackets rfl).weaken
  | union i ts ih =>
    rw [declared, declaredMembers_eq_map]
    refine resolved_joined rfl rfl rfl (List.forall_mem_map.mpr fun t ht => ?_)
    exact ih t ht (everyMember_iff.mp h.2 t ht) (everyMember_iff.mp hD.2 t ht)
  | intersection i ts ih =>
    rw [declared, declaredOperands_eq_map]
    refine resolved_joined rfl rfl rfl (List.forall_mem_map.mpr fun t ht => ?_)
    have htype := ih t ht (everyMember_iff.mp h.2 t ht) (everyMember_iff.mp hD.2 t ht)
    unfold intersectionOperand
    split
    · exact resolved_parenthesized htype
    · exact htype
  | generic i base ts ihb ih =>
    rw [declared, declaredMembers_eq_map]
    have hcomma : Resolved D never ", " := .fixed rfl
    have hparams : Resolved D isWordChar (String.intercalate ", " (ts.map declared)) := by
      refine hcomma.intercalate rfl (List.forall_mem_map.mpr fun t ht => ?_)
      exact ih t ht (everyMember_iff.mp h.2.2 t ht) (everyMember_iff.mp hD.2.2 t ht)
    have hopen := (ihb h.2.1 hD.2.1).before (t := "<") (.fixed rfl) rfl
    have hclose : Resolved D never ">" := .fixed rfl
    exact ((hopen.append hparams).before hclose rfl).weaken
  | object i ps required ih =>
    rw [declared, declaredProperties_eq_map]
    have hbreak : Resolved D never "\n" := .fixed rfl
    have hproperties : Resolved D never (String.intercalate "\n" (ps.map fun p =>
        propertyText p.1 (required.contains p.1) p.2 p.2.declared)) := by
      refine hbreak.intercalate rfl (List.forall_mem_map.mpr fun p hp => ?_)
      exact resolved_propertyText _ _ _
        (ih p hp (everyProperty_iff.mp h.2 p hp) (everyProperty_iff.mp hD.2 p hp))
    exact (hproperties.between rfl rfl rfl).weaken

/-! ## Validators -/

def IsConstantOf (D : String → Prop) (constant : String) : Prop :=
  ∃ name, D name ∧ constant = validatorName name

theorem validatorName_path (name : String) :
    validatorName (componentPath name) = componentPath (validatorName name) := by
  rw [validatorName, componentPath, componentPath, validatorName, String.append_assoc]

theorem resolved_constant {name : String} (h : ∀ c ∈ name.toList, isNameChar c = true)
    (hD : D name) : Resolved (IsConstantOf D) isNameChar (validatorName (componentPath name)) := by
  rw [validatorName_path]
  refine .path (fun c hc => ?_) ⟨name, hD, rfl⟩
  rw [validatorName, String.toList_append, List.mem_append] at hc
  rcases hc with hc | hc
  · exact h c hc
  · have hall : ∀ c ∈ "Schema".toList, isNameChar c = true := List.all_eq_true.mp rfl
    exact hall c hc

theorem resolved_identifierValidator (deferred : List String) {name : String}
    (h : IsTypeName name) (hD : ∀ n, name = componentPath n → D n) :
    Resolved (IsConstantOf D) isNameChar (identifierValidator deferred name) := by
  unfold identifierValidator
  cases h with
  | primitive h =>
    have hall : ∀ s ∈ primitives, Lexeme.isInert ("z." ++ s ++ "()") = true := by decide
    rw [if_pos (by simpa using h)]
    exact (Resolved.fixed (hall name h)).weaken
  | openMap =>
    have hrecord : Resolved (IsConstantOf D) never "z.record(z.string(), z.any())" := .fixed rfl
    exact hrecord.weaken
  | @component name h =>
    have hconstant := resolved_constant h.2 (hD name rfl)
    rw [if_neg (by simpa using componentPath_notMem name),
      if_neg (by simpa using componentPath_ne_openMap name)]
    split
    · exact (hconstant.between rfl rfl rfl).weaken
    · exact hconstant

theorem resolved_unionValidator {vs : List String} (h : ∀ v ∈ vs, Resolved D isNameChar v) :
    Resolved D isNameChar (unionValidator vs) := by
  unfold unionValidator
  split
  · exact (Resolved.fixed rfl).weaken
  · exact h _ (List.mem_singleton_self _)
  · have hcomma : Resolved D never ", " := .fixed rfl
    exact ((hcomma.intercalate rfl h).between rfl rfl rfl).weaken

theorem resolved_intersectionValidator {vs : List String} (h : ∀ v ∈ vs, Resolved D isNameChar v) :
    Resolved D isNameChar (intersectionValidator vs) := by
  cases vs with
  | nil =>
    have hunknown : Resolved D never "z.unknown()" := .fixed rfl
    exact hunknown.weaken
  | cons v vs =>
    obtain ⟨hv, hvs⟩ := List.forall_mem_cons.mp h
    show Resolved D isNameChar (vs.foldl _ v)
    clear h
    induction vs generalizing v with
    | nil => exact hv
    | cons w vs ih =>
      obtain ⟨hw, hvs⟩ := List.forall_mem_cons.mp hvs
      have hcomma : Resolved D never ", " := .fixed rfl
      have hopen : Resolved D never "z.intersection(" := .fixed rfl
      have hclose : Resolved D never ")" := .fixed rfl
      have hpair := (((hopen.append hv).before hcomma rfl).append hw).before hclose rfl
      exact ih _ hpair.weaken hvs

theorem resolved_propertyValidator (name : String) (required : Bool) (t : TypeExpr) {v : String}
    (h : Resolved D isNameChar v) :
    Resolved D isNameChar (propertyValidator name required t v) := by
  have hcolon : Resolved D never ": " := .fixed rfl
  have hnullable : Resolved D isNameChar
      (Text.quoted name ++ ": " ++ v ++ (if t.lacksNull then ".nullable()" else "")) := by
    have hvalue := ((Resolved.quoted name).append hcolon).append h
    split
    · have hcall : Resolved D never ".nullable()" := .fixed rfl
      exact (hvalue.before hcall rfl).weaken
    · rwa [String.append_empty]
  unfold propertyValidator
  cases required with
  | true => rwa [if_pos rfl, String.append_empty]
  | false =>
    have hcall : Resolved D never ".optional()" := .fixed rfl
    exact (hnullable.before hcall rfl).weaken

theorem resolved_objectValidator {entries : List String}
    (h : ∀ e ∈ entries, Resolved D isNameChar e) :
    Resolved D isNameChar (objectValidator entries) := by
  unfold objectValidator
  split
  · have hempty : Resolved D never "z.object(\x7b\x7d)" := .fixed rfl
    exact hempty.weaken
  · have hcomma : Resolved D never ", " := .fixed rfl
    exact ((hcomma.intercalate rfl h).between rfl rfl rfl).weaken

theorem resolved_validator (deferred : List String) {t : TypeExpr} (h : t.HasTypeNames)
    (hD : t.Refers D) : Resolved (IsConstantOf D) isNameChar (t.validator deferred) := by
  induction t with
  | identifier i name =>
    have hname : ∀ n, name = componentPath n → D n := fun n hn => hD i n (by rw [hn])
    exact resolved_identifierValidator deferred (h i name rfl) hname
  | literal i value =>
    have hjson : Resolved (IsConstantOf D) isWordChar value.json := value.snapshot.resolved_json
    exact (hjson.between rfl rfl rfl).weaken
  | array i t ih => exact ((ih h.2 hD.2).between rfl rfl rfl).weaken
  | union i ts ih =>
    rw [validator, validators_eq_map]
    refine resolved_unionValidator (List.forall_mem_map.mpr fun t ht => ?_)
    exact ih t ht (everyMember_iff.mp h.2 t ht) (everyMember_iff.mp hD.2 t ht)
  | intersection i ts ih =>
    rw [validator, validators_eq_map]
    refine resolved_intersectionValidator (List.forall_mem_map.mpr fun t ht => ?_)
    exact ih t ht (everyMember_iff.mp h.2 t ht) (everyMember_iff.mp hD.2 t ht)
  | generic i base ts ihb _ => exact ihb h.2.1 hD.2.1
  | object i ps required ih =>
    rw [validator, propertyValidators_eq_map]
    refine resolved_objectValidator (List.forall_mem_map.mpr fun p hp => ?_)
    exact resolved_propertyValidator _ _ _
      (ih p hp (everyProperty_iff.mp h.2 p hp) (everyProperty_iff.mp hD.2 p hp))

end TypeExpr

end ApiTypes
