import ApiTypes.TypeExpr.Validator
import ApiTypes.Proofs.Literal
import ApiTypes.Proofs.TypeTree

/-!
# Validators as expressions

The text of a validator is read as an expression that is built from the type. Only names that schemas
are mapped to stand in it: those of the validator library, and constants in the namespace of the
components.
-/

namespace ApiTypes

/-! ## Names -/

theorem componentPath_toList (name : String) :
    (componentPath name).toList = "Components.Schemas".toList ++ '.' :: name.toList := by
  rw [componentPath, componentScope, String.toList_append, String.toList_append, List.append_assoc]
  rfl

theorem componentName_path (name : String) : componentName (componentPath name) = name := by
  have h : (componentPath name).toList = (componentScope ++ ".").toList ++ name.toList := by
    rw [componentPath, String.toList_append]
  unfold componentName
  dsimp only
  rw [h, if_pos (by simp), List.drop_left, String.ofList_toList]

def IsComponentName (name : String) : Prop :=
  name ≠ "" ∧ ∀ c ∈ name.toList, Lexeme.isNameChar c = true

inductive IsTypeName : String → Prop
  | primitive {name} : name ∈ TypeExpr.primitives → IsTypeName name
  | openMap : IsTypeName TypeExpr.openMap
  | component {name} : IsComponentName name → IsTypeName (componentPath name)

theorem componentPath_notMem (name : String) : componentPath name ∉ TypeExpr.primitives := by
  intro h
  have hhead : ∀ s ∈ TypeExpr.primitives, s.toList.head? ≠ some 'C' := by decide
  exact hhead _ h (by rw [componentPath_toList]; rfl)

theorem componentPath_ne_openMap (name : String) : componentPath name ≠ TypeExpr.openMap := by
  intro h
  have := congrArg (fun s => s.toList.head?) h
  rw [componentPath_toList] at this
  exact absurd (show some 'C' = some '\x7b' from this) (by decide)

/-! ## Parts -/

namespace Expression

def library (name : String) (arguments : List Expression) : Expression :=
  .call (.member (.name ['z']) name.toList) arguments

def modified (e : Expression) (method : String) : Expression := .call (.member e method.toList) []

def constant (name : String) : Expression :=
  .member (.member (.name "Components".toList) "Schemas".toList)
    (TypeExpr.validatorName name).toList

theorem Reads.library {α : Type} {items : List α} {ds : α → List Char} {es : α → Expression}
    (name : String) (hn : name.toList.all Lexeme.isNameChar = true)
    (h : ∀ a ∈ items, Reads Lexeme.isWordChar (ds a) (es a)) :
    Reads Lexeme.never ("z.".toList ++ (name.toList ++ '(' :: (commas (items.map ds) ++ [')'])))
      (library name (items.map es)) := by
  have hz : Reads Lexeme.isNameChar ['z'] (.name ['z']) := .name rfl
  have := (hz.member (List.all_eq_true.mp hn)).call rfl h
  exact this

section
variable {ds : List Char} {e : Expression}

theorem Reads.libraryNone (name : String) (hn : name.toList.all Lexeme.isNameChar = true) :
    Reads Lexeme.never ("z.".toList ++ (name.toList ++ ['(', ')'])) (Expression.library name []) :=
  @Reads.library Unit [] (fun _ => []) (fun _ => .name []) name hn fun _ h => by cases h

theorem Reads.libraryOne (name : String) (hn : name.toList.all Lexeme.isNameChar = true)
    (h : Reads Lexeme.isWordChar ds e) :
    Reads Lexeme.never ("z.".toList ++ (name.toList ++ '(' :: (ds ++ [')'])))
      (Expression.library name [e]) := by
  have := @Reads.library Unit [()] (fun _ => ds) (fun _ => e) name hn fun _ _ => h
  simpa only [commas, List.map_cons, List.map_nil, List.intercalate_singleton] using this

theorem Reads.lazy (h : Reads Lexeme.isWordChar ds e) :
    Reads Lexeme.never ("z.lazy(() => ".toList ++ (ds ++ [')']))
      (Expression.library "lazy" [.function e]) := by
  have hz : Reads Lexeme.isNameChar ['z'] (.name ['z']) := .name rfl
  have hlazy : Reads Lexeme.isNameChar "z.lazy".toList (.member (.name ['z']) "lazy".toList) :=
    hz.member (List.all_eq_true.mp rfl)
  exact hlazy.callFunction rfl h

theorem Reads.modified {cs : List Char} {e : Expression} (method : String)
    (h : Reads Lexeme.isNameChar cs e)
    (hm : method.toList.all Lexeme.isNameChar = true) :
    Reads Lexeme.isNameChar (cs ++ '.' :: (method.toList ++ ['(', ')'])) (modified e method) := by
  have := @Reads.call _ _ _ Unit [] (fun _ => []) (fun _ => .name [])
    (h.member (List.all_eq_true.mp hm)) rfl (by simp)
  have := this.weaken (p := Lexeme.isNameChar)
  simpa [commas, Expression.modified] using this

end

theorem Reads.constant {name : String} (h : ∀ c ∈ name.toList, Lexeme.isNameChar c = true) :
    Reads Lexeme.isNameChar (TypeExpr.validatorName (componentPath name)).toList
      (constant name) := by
  have hname : Reads Lexeme.isNameChar "Components".toList (.name "Components".toList) := .name rfl
  have hsuffix : ∀ c ∈ (TypeExpr.validatorName name).toList, Lexeme.isNameChar c = true := by
    intro c hc
    rw [TypeExpr.validatorName, String.toList_append, List.mem_append] at hc
    rcases hc with hc | hc
    · exact h c hc
    · have hall : "Schema".toList.all Lexeme.isNameChar = true := rfl
      exact List.all_eq_true.mp hall c hc
  have hscope : Reads Lexeme.isNameChar "Components.Schemas".toList
      (.member (.name "Components".toList) "Schemas".toList) := hname.member (List.all_eq_true.mp rfl)
  have := hscope.member hsuffix
  rw [TypeExpr.validatorName, String.toList_append, componentPath_toList]
  rw [TypeExpr.validatorName, String.toList_append] at this
  simpa [Expression.constant, TypeExpr.validatorName] using this

end Expression

namespace TypeExpr

open Expression (library constant modified commas Reads)

def identifierExpression (deferred : List String) (name : String) : Expression :=
  if primitives.contains name then library name []
  else if name == openMap then library "record" [library "string" [], library "any" []]
  else if deferred.contains (componentName name) then
    library "lazy" [.function (constant (componentName name))]
  else constant (componentName name)

def unionExpression : List Expression → Expression
  | [] => library "never" []
  | [e] => e
  | es => library "union" [.list es]

def intersectionExpression : List Expression → Expression
  | [] => library "unknown" []
  | e :: es => es.foldl (fun merged e => library "intersection" [merged, e]) e

def propertyExpression (required : Bool) (t : TypeExpr) (e : Expression) : Expression :=
  let e := if t.lacksNull then modified e "nullable" else e
  if required then e else modified e "optional"

mutual

def expression (deferred : List String) : TypeExpr → Expression
  | identifier _ name => identifierExpression deferred name
  | literal _ value => library "literal" [value.snapshot.expression]
  | array _ element => library "array" [element.expression deferred]
  | union _ members => unionExpression (expressions deferred members)
  | intersection _ members => intersectionExpression (expressions deferred members)
  | generic _ base _ => base.expression deferred
  | object _ properties required =>
    library "object" [.record (propertyExpressions deferred required properties)]

def expressions (deferred : List String) : List TypeExpr → List Expression
  | [] => []
  | t :: ts => t.expression deferred :: expressions deferred ts

def propertyExpressions (deferred required : List String) :
    List (String × TypeExpr) → List (List Char × Expression)
  | [] => []
  | (name, t) :: rest =>
    (name.toList, propertyExpression (required.contains name) t (t.expression deferred)) ::
      propertyExpressions deferred required rest

end

theorem expressions_eq_map (deferred : List String) (ts : List TypeExpr) :
    expressions deferred ts = ts.map (expression deferred) := by
  induction ts with
  | nil => rfl
  | cons t ts ih => simp [expressions, ih]

theorem propertyExpressions_eq_map (deferred required : List String)
    (ps : List (String × TypeExpr)) :
    propertyExpressions deferred required ps = ps.map fun p =>
      (p.1.toList, propertyExpression (required.contains p.1) p.2 (p.2.expression deferred)) := by
  induction ps with
  | nil => rfl
  | cons p ps ih => simp [propertyExpressions, ih]

/-! ## Reading -/

def HasTypeNames (t : TypeExpr) : Prop :=
  t.Every fun t => ∀ i name, t = identifier i name → IsTypeName name

theorem reads_primitive {s : String} (h : s ∈ primitives) :
    Reads Lexeme.never ("z." ++ s ++ "()").toList (library s []) := by
  have hname : ∀ s ∈ primitives, s.toList.all Lexeme.isNameChar = true := by decide
  have := Reads.libraryNone s (hname s h)
  rwa [String.toList_append, String.toList_append, List.append_assoc]

theorem reads_identifierValidator (deferred : List String) {name : String} (h : IsTypeName name) :
    Reads Lexeme.isNameChar (identifierValidator deferred name).toList
      (identifierExpression deferred name) := by
  unfold identifierValidator identifierExpression
  cases h with
  | primitive h =>
    rw [if_pos (by simpa using h), if_pos (by simpa using h)]
    exact (reads_primitive h).weaken
  | openMap =>
    rw [if_neg (by decide), if_pos (beq_self_eq_true _), if_neg (by decide),
      if_pos (beq_self_eq_true _)]
    have hkinds : ∀ s ∈ ["string", "any"], Reads Lexeme.isWordChar ("z." ++ s ++ "()").toList
        (library s []) := by
      intro s hs
      have hsub : ∀ s ∈ ["string", "any"], s ∈ primitives := by decide
      exact (reads_primitive (hsub s hs)).weaken
    have := Reads.library "record" (by decide) hkinds
    exact this.weaken
  | @component name h =>
    have hconst := Reads.constant h.2
    have hprim : ¬ (primitives.contains (componentPath name) = true) := by
      simpa using componentPath_notMem name
    have hopen : ¬ ((componentPath name == openMap) = true) := by
      simpa using componentPath_ne_openMap name
    rw [if_neg hprim, if_neg hopen, if_neg hprim, if_neg hopen, componentName_path]
    split
    · have := (Reads.lazy hconst.word).weaken (p := Lexeme.isNameChar)
      simpa using this
    · exact hconst

section
variable {cs : List Char} {e : Expression}

theorem reads_unionValidator {α : Type} {items : List α} {vs : α → String} {es : α → Expression}
    (h : ∀ a ∈ items, Reads Lexeme.isNameChar (vs a).toList (es a)) :
    Reads Lexeme.isNameChar (unionValidator (items.map vs)).toList
      (unionExpression (items.map es)) := by
  have hword : ∀ a ∈ items, Reads Lexeme.isWordChar (vs a).toList (es a) := fun a ha => (h a ha).word
  have hlist := Reads.list hword
  have hunion := Reads.libraryOne "union" (by decide) hlist.weaken
  cases items with
  | nil => exact (reads_primitive (s := "never") (by decide)).weaken
  | cons a items =>
    cases items with
    | nil => exact h a List.mem_cons_self
    | cons b items =>
      simp only [List.map_cons, unionValidator, unionExpression] at hunion ⊢
      simpa [commas, String.toList_intercalate, Function.comp_def] using hunion.weaken

theorem reads_intersectionValidator {α : Type} {items : List α} {vs : α → String} {es : α → Expression}
    (h : ∀ a ∈ items, Reads Lexeme.isNameChar (vs a).toList (es a)) :
    Reads Lexeme.isNameChar (intersectionValidator (items.map vs)).toList
      (intersectionExpression (items.map es)) := by
  -- the fold over the texts follows the fold over the expressions
  have hfold : ∀ (items : List α) (v : String) (e : Expression),
      (∀ a ∈ items, Reads Lexeme.isNameChar (vs a).toList (es a)) →
      Reads Lexeme.isNameChar v.toList e →
      Reads Lexeme.isNameChar ((items.map vs).foldl
        (fun merged v => "z.intersection(" ++ merged ++ ", " ++ v ++ ")") v).toList
      ((items.map es).foldl (fun merged e => library "intersection" [merged, e]) e) := by
    intro items
    induction items with
    | nil => intro v e _ he; exact he
    | cons a items ih =>
      intro v e hitems he
      refine ih _ _ (fun b hb => hitems b (List.mem_cons_of_mem _ hb)) ?_
      have hpair : ∀ p ∈ [(v.toList, e), ((vs a).toList, es a)],
          Reads Lexeme.isWordChar p.1 p.2 := by
        intro p hp
        rcases List.mem_cons.mp hp with rfl | hp
        · exact he.word
        · rw [List.mem_singleton.mp hp]
          exact (hitems a List.mem_cons_self).word
      have hcall := (Reads.library "intersection" (by decide) hpair).weaken (p := Lexeme.isNameChar)
      simpa [commas] using hcall
  cases items with
  | nil => exact (reads_primitive (s := "unknown") (by decide)).weaken
  | cons a items =>
    exact hfold items _ _ (fun b hb => h b (List.mem_cons_of_mem _ hb)) (h a List.mem_cons_self)

def propertyModifiers (required : Bool) (t : TypeExpr) : String :=
  (if t.lacksNull then ".nullable()" else "") ++ (if required then "" else ".optional()")

theorem reads_propertyValidator {cs : List Char} {e : Expression} (required : Bool) (t : TypeExpr)
    (h : Reads Lexeme.isNameChar cs e) :
    Reads Lexeme.isNameChar (cs ++ (propertyModifiers required t).toList)
      (propertyExpression required t e) := by
  have hnull : Reads Lexeme.isNameChar
      (cs ++ (if t.lacksNull then ".nullable()" else "").toList)
      (if t.lacksNull then modified e "nullable" else e) := by
    split
    · exact h.modified "nullable" (by decide)
    · simpa using h
  rw [propertyModifiers, String.toList_append, ← List.append_assoc]
  unfold propertyExpression
  dsimp only
  cases required with
  | true => simpa using hnull
  | false => exact hnull.modified "optional" (by decide)

theorem propertyValidator_toList (name : String) (required : Bool) (t : TypeExpr) (v : String) :
    (propertyValidator name required t v).toList =
      Expression.fieldText name (v.toList ++ (propertyModifiers required t).toList) := by
  simp [propertyValidator, propertyModifiers, Expression.fieldText]

theorem objectValidator_toList {entries : List String} (h : entries ≠ []) :
    (objectValidator entries).toList = "z.".toList ++ ("object".toList ++ '(' ::
      (['\x7b', ' '] ++ (commas (entries.map String.toList) ++ [' ', '\x7d']) ++ [')'])) := by
  cases entries with
  | nil => exact absurd rfl h
  | cons v vs => simp [objectValidator, commas, String.toList_intercalate]

theorem reads_objectValidator {ps : List (String × TypeExpr)} (deferred required : List String)
    (h : ∀ p ∈ ps, Reads Lexeme.isNameChar (p.2.validator deferred).toList
      (p.2.expression deferred)) :
    Reads Lexeme.isNameChar
      (objectValidator (propertyValidators deferred required ps)).toList
      (library "object" [.record (propertyExpressions deferred required ps)]) := by
  have hprop : ∀ p ∈ ps, Reads Lexeme.isWordChar
      ((p.2.validator deferred).toList ++
        (propertyModifiers (required.contains p.1) p.2).toList)
      (propertyExpression (required.contains p.1) p.2 (p.2.expression deferred)) :=
    fun p hp => (reads_propertyValidator _ _ (h p hp)).word
  rw [propertyValidators_eq_map, propertyExpressions_eq_map]
  -- a record without properties is written without blanks inside
  by_cases hps : ps = []
  · subst hps
    have hrecord := @Reads.record Unit [] (fun _ => "") (fun _ => []) (fun _ => .name []) (by simp)
      _ _ (Expression.spells_mark (c := '\x7b') rfl) (Expression.spells_mark (c := '\x7d') rfl)
      (by intro c hc; cases hc; decide) (by simp)
    have hcall := Reads.libraryOne "object" (by decide) hrecord.weaken
    simpa [commas, objectValidator] using hcall.weaken
  · have hopen : Lexeme.Spells Lexeme.never ['\x7b', ' '] [.mark '\x7b'] := fun _ _ => rfl
    have hclose : Lexeme.Spells Lexeme.never [' ', '\x7d'] [.mark '\x7d'] := fun _ _ => rfl
    have hrecord := Reads.record (fun p : String × TypeExpr => p.1) hprop hopen hclose
      (by intro c hc; cases hc; decide) (by simp)
    have hcall := Reads.libraryOne "object" (by decide) hrecord.weaken
    have hentries : (ps.map fun p => propertyValidator p.1 (required.contains p.1) p.2
        (p.2.validator deferred)).map String.toList =
        ps.map fun p => Expression.fieldText p.1 ((p.2.validator deferred).toList ++
          (propertyModifiers (required.contains p.1) p.2).toList) := by
      rw [List.map_map]
      apply List.map_congr_left
      intro p _
      exact propertyValidator_toList ..
    rw [objectValidator_toList (by simpa using hps), hentries]
    exact hcall.weaken

theorem reads_validator (deferred : List String) {t : TypeExpr} (h : t.HasTypeNames) :
    Reads Lexeme.isNameChar (t.validator deferred).toList (t.expression deferred) := by
  induction t with
  | identifier i name => exact reads_identifierValidator deferred (h i name rfl)
  | literal i value =>
    have hvalue : Reads Lexeme.isWordChar value.json.toList value.snapshot.expression :=
      value.snapshot.reads_json
    have hcall := Reads.libraryOne "literal" (by decide) hvalue
    simpa [validator, expression] using hcall.weaken
  | array i t ih =>
    have hcall := Reads.libraryOne "array" (by decide) (ih h.2).word
    simpa [validator, expression] using hcall.weaken
  | union i ts ih =>
    rw [validator, expression, validators_eq_map, expressions_eq_map]
    exact reads_unionValidator fun t ht => ih t ht (everyMember_iff.mp h.2 t ht)
  | intersection i ts ih =>
    rw [validator, expression, validators_eq_map, expressions_eq_map]
    exact reads_intersectionValidator fun t ht => ih t ht (everyMember_iff.mp h.2 t ht)
  | generic i base ts ihb _ => exact ihb h.2.1
  | object i ps required ih =>
    exact reads_objectValidator deferred required fun p hp => ih p hp (everyProperty_iff.mp h.2 p hp)

end

end TypeExpr

end ApiTypes
