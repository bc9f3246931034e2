import ApiTypes.Proofs.Accepts
import ApiTypes.Proofs.Validator
import ApiTypes.Proofs.WrittenTypes

/-!
# Meaning of validators

The data that a validator accepts, by evaluating the expression that it is written as, given what each
component accepts. The text of a declared type and the text of its validator accept the same data.
-/

namespace ApiTypes

namespace Expression

inductive Meaning
  | validator (accepts : Datum → Prop)
  | datum (d : Datum)
  | items (ms : List Meaning)
  | fields (fs : List (List Char × Meaning))
  | thunk (result : Meaning)
  | library
  | maker (name : String)
  | method (accepts : Datum → Prop) (name : String)
  | components
  | schemas

namespace Meaning

def accepts? : Meaning → Option (Datum → Prop)
  | validator a => some a
  | _ => none

/-! ## Functions of the library -/

def ofUnion (vs : List (Datum → Prop)) (d : Datum) : Prop := ∃ v ∈ vs, v d

def ofObject (fs : List (List Char × (Datum → Prop))) (d : Datum) : Prop :=
  ∃ record, d = .record record ∧ ∀ f ∈ fs, f.2 (Datum.get record f.1)

def ofArray (v : Datum → Prop) (d : Datum) : Prop := ∃ items, d = .list items ∧ ∀ i ∈ items, v i

def ofRecord (key v : Datum → Prop) (d : Datum) : Prop :=
  ∃ record, d = .record record ∧ ∀ f ∈ record, key (.text f.1) ∧ v f.2

theorem mapM_accepts? {α : Type} (items : List α) (v : α → Datum → Prop) :
    (items.map fun a => validator (v a)).mapM accepts? = some (items.map v) := by
  induction items with
  | nil => rfl
  | cons a items ih =>
    rw [List.map_cons, List.mapM_cons, ih]
    rfl

def fieldValidators? (fs : List (List Char × Meaning)) :
    Option (List (List Char × (Datum → Prop))) :=
  fs.mapM fun f => (accepts? f.2).map fun v => (f.1, v)

theorem fieldValidators?_map {α : Type} (items : List α) (key : α → List Char)
    (v : α → Datum → Prop) : fieldValidators? (items.map fun a => (key a, validator (v a))) =
      some (items.map fun a => (key a, v a)) := by
  induction items with
  | nil => rfl
  | cons a items ih =>
    rw [fieldValidators?] at ih ⊢
    rw [List.map_cons, List.mapM_cons, ih]
    rfl

def make (name : String) (arguments : List Meaning) : Option Meaning :=
  match name, arguments with
  | "string", [] => some (.validator fun d => ∃ cs, d = .text cs)
  | "number", [] => some (.validator fun d => ∃ q, d = .number q)
  | "boolean", [] => some (.validator fun d => ∃ b, d = .bool b)
  | "any", [] => some (.validator fun _ => True)
  | "unknown", [] => some (.validator fun _ => True)
  | "undefined", [] => some (.validator (· = .undefined))
  | "null", [] => some (.validator (· = .null))
  | "never", [] => some (.validator fun _ => False)
  | "literal", [.datum l] => some (.validator (· = l))
  | "array", [.validator v] => some (.validator (ofArray v))
  | "union", [.items ms] => (ms.mapM accepts?).map fun vs => .validator (ofUnion vs)
  | "intersection", [.validator v, .validator w] => some (.validator fun d => v d ∧ w d)
  | "lazy", [.thunk (.validator v)] => some (.validator v)
  | "record", [.validator key, .validator v] => some (.validator (ofRecord key v))
  | "object", [.fields fs] => (fieldValidators? fs).map fun fs => .validator (ofObject fs)
  | _, _ => none

theorem make_union (ms : List Meaning) : make "union" [.items ms] =
    (ms.mapM accepts?).map fun vs => .validator (ofUnion vs) := rfl

theorem make_object (fs : List (List Char × Meaning)) : make "object" [.fields fs] =
    (fieldValidators? fs).map fun fs => .validator (ofObject fs) := rfl

def apply (f : Meaning) (arguments : List Meaning) : Option Meaning :=
  match f, arguments with
  | .maker n, _ => make n arguments
  | .method v "nullable", [] => some (.validator fun d => d = .null ∨ v d)
  | .method v "optional", [] => some (.validator fun d => d = .undefined ∨ v d)
  | _, _ => none

def componentOf? (name : List Char) : Option (List Char) :=
  if "Schema".toList.isSuffixOf name then some (name.take (name.length - "Schema".toList.length))
  else none

def access (ρ : List Char → Datum → Prop) (m : Meaning) (name : List Char) : Option Meaning :=
  match m with
  | .library => some (.maker (String.ofList name))
  | .validator v => some (.method v (String.ofList name))
  | .components => if name = "Schemas".toList then some .schemas else none
  | .schemas => (componentOf? name).map fun c => .validator (ρ c)
  | _ => none

def ofName? (name : List Char) : Option Meaning :=
  if name = "z".toList then some .library
  else if name = "Components".toList then some .components
  else if name = "null".toList then some (.datum .null)
  else if name = "true".toList then some (.datum (.bool true))
  else if name = "false".toList then some (.datum (.bool false))
  else none

end Meaning

/-! ## Evaluation -/

section
variable (ρ : List Char → Datum → Prop)

mutual

def eval : Expression → Option Meaning
  | .name cs => Meaning.ofName? cs
  | .text cs => some (.datum (.text cs))
  | .number cs => (Number.value? cs).map fun q => .datum (.number q)
  | .minus e => do
    match ← eval e with
    | .datum (.number q) => some (.datum (.number (-q)))
    | _ => none
  | .member e n => do (← eval e).access ρ n
  | .call f arguments => do (← eval f).apply (← evalItems arguments)
  | .list items => do some (.items (← evalItems items))
  | .record fields => do some (.fields (← evalFields fields))
  | .function body => do some (.thunk (← eval body))

def evalItems : List Expression → Option (List Meaning)
  | [] => some []
  | e :: es => do some ((← eval e) :: (← evalItems es))

def evalFields : List (List Char × Expression) → Option (List (List Char × Meaning))
  | [] => some []
  | (key, e) :: fields => do some ((key, ← eval e) :: (← evalFields fields))

end

variable {ρ}

theorem evalItems_map {α : Type} {items : List α} {es : α → Expression} {ms : α → Meaning}
    (h : ∀ a ∈ items, eval ρ (es a) = some (ms a)) :
    evalItems ρ (items.map es) = some (items.map ms) := by
  induction items with
  | nil => rfl
  | cons a items ih =>
    rw [List.map_cons, evalItems, h a List.mem_cons_self,
      ih fun b hb => h b (List.mem_cons_of_mem _ hb)]
    rfl

theorem evalFields_map {α : Type} {items : List α} {key : α → List Char} {es : α → Expression}
    {ms : α → Meaning} (h : ∀ a ∈ items, eval ρ (es a) = some (ms a)) :
    evalFields ρ (items.map fun a => (key a, es a)) = some (items.map fun a => (key a, ms a)) := by
  induction items with
  | nil => rfl
  | cons a items ih =>
    rw [List.map_cons, evalFields, h a List.mem_cons_self,
      ih fun b hb => h b (List.mem_cons_of_mem _ hb)]
    rfl

theorem eval_library (n : String) {es : List Expression} {ms : List Meaning}
    (h : evalItems ρ es = some ms) : eval ρ (library n es) = Meaning.make n ms := by
  have hmaker : eval ρ (.member (.name "z".toList) n.toList) = some (.maker n) := by
    have hz : Meaning.ofName? "z".toList = some .library := if_pos rfl
    rw [eval, eval, hz]
    show some (Meaning.maker (String.ofList n.toList)) = _
    rw [String.ofList_toList]
  rw [library, eval, h]
  show (eval ρ (.member (.name "z".toList) n.toList)).bind _ = _
  rw [hmaker]
  rfl

theorem eval_library_one (n : String) {e : Expression} {m : Meaning} (h : eval ρ e = some m) :
    eval ρ (library n [e]) = Meaning.make n [m] := by
  apply eval_library
  rw [evalItems, h]
  rfl

theorem eval_modified {e : Expression} {v w : Datum → Prop} {method : String}
    (h : eval ρ e = some (.validator v))
    (hm : Meaning.apply (.method v method) [] = some (.validator w)) :
    eval ρ (modified e method) = some (.validator w) := by
  rw [modified, eval, eval, h]
  simp only [Option.bind_eq_bind, Option.bind_some, Meaning.access, String.ofList_toList, evalItems]
  exact hm

theorem componentOf?_append (n : List Char) :
    Meaning.componentOf? (n ++ "Schema".toList) = some n := by
  rw [Meaning.componentOf?, if_pos (by simp)]
  simp

theorem eval_constant (n : String) : eval ρ (constant n) = some (.validator (ρ n.toList)) := by
  have hscope : eval ρ (.member (.name "Components".toList) "Schemas".toList) = some .schemas := rfl
  rw [constant, eval, hscope]
  show (Meaning.componentOf? (TypeExpr.validatorName n).toList).map _ = _
  rw [TypeExpr.validatorName, String.toList_append, componentOf?_append]
  rfl

end

end Expression

namespace TypeExpr

open Expression (eval evalItems Meaning library modified constant)
open TypeSyntax (Named pathOf)

variable {ρ : List Char → Datum → Prop}

/-- The types that are made of names that schemas are mapped to and of scalars. -/
def IsPlain : TypeExpr → Prop
  | identifier _ name => IsTypeName name
  | literal _ value => ∃ s, value.here = .scalar s ∧ s.IsLiteral
  | generic _ _ _ => False
  | _ => True

theorem make_primitive {n : String} (h : n ∈ primitives) :
    Meaning.make n [] = some (.validator (TypeSyntax.HasType n)) := by
  simp only [primitives, List.mem_cons, List.not_mem_nil, or_false] at h
  rcases h with rfl | rfl | rfl | rfl | rfl | rfl | rfl | rfl <;> rfl

theorem identifierSyntax_primitive {n : String} (h : n ∈ primitives) :
    identifierSyntax n = .name [n.toList] := by
  simp only [primitives, List.mem_cons, List.not_mem_nil, or_false] at h
  rcases h with rfl | rfl | rfl | rfl | rfl | rfl | rfl | rfl <;> rfl

theorem eval_primitive {n : String} (h : n ∈ primitives) :
    eval ρ (library n []) = some (.validator ((identifierSyntax n).Accepts ρ)) := by
  have hmeaning : (identifierSyntax n).Accepts ρ = TypeSyntax.HasType n := by
    rw [identifierSyntax_primitive h]
    funext d
    exact propext TypeSyntax.named_word
  rw [@Expression.eval_library ρ n [] [] rfl, make_primitive h, hmeaning]

theorem pathOf_component {name : String} (h : IsComponentName name) :
    pathOf (componentPath name) = ["Components".toList, "Schemas".toList, name.toList] := by
  have hpoint : ∀ c ∈ name.toList, (c == '.') = false := by
    intro c hc
    rw [beq_eq_false_iff_ne]
    rintro rfl
    exact absurd (h.2 _ hc) (by decide)
  have htext : (componentPath name).toList =
      "Components".toList ++ '.' :: ("Schemas".toList ++ '.' :: name.toList) :=
    componentPath_toList name
  rw [pathOf, htext, Text.pieces_append (by simp) rfl, Text.pieces_append (by simp) rfl,
    Text.pieces_of_forall hpoint]

theorem eval_identifier (deferred : List String) {name : String} (h : IsTypeName name) :
    eval ρ (identifierExpression deferred name) =
      some (.validator ((identifierSyntax name).Accepts ρ)) := by
  unfold identifierExpression
  cases h with
  | primitive h =>
    rw [if_pos (by simpa using h)]
    exact eval_primitive h
  | openMap =>
    rw [if_neg (by decide), if_pos (beq_self_eq_true _)]
    have hargs : evalItems ρ [library "string" [], library "any" []] =
        some [.validator fun d => ∃ cs, d = .text cs, .validator fun _ => True] := by
      rw [evalItems, evalItems, @Expression.eval_library ρ "string" [] [] rfl,
        @Expression.eval_library ρ "any" [] [] rfl]
      rfl
    rw [Expression.eval_library _ hargs]
    show some (Meaning.validator _) = some (Meaning.validator _)
    congr 2
    funext d
    simp [identifierSyntax, TypeSyntax.Accepts, Meaning.ofRecord]
  | @component name h =>
    rw [if_neg (by simpa using componentPath_notMem name),
      if_neg (by simpa using componentPath_ne_openMap name), componentName_path]
    -- a component means what the assignment says
    have hmeaning : (identifierSyntax (componentPath name)).Accepts ρ = ρ name.toList := by
      rw [identifierSyntax, if_neg (by simpa using componentPath_ne_openMap name),
        pathOf_component h]
      funext d
      rw [TypeSyntax.Accepts, eq_iff_iff]
      exact ⟨fun h => h.2.2, fun h => ⟨rfl, rfl, h⟩⟩
    rw [hmeaning]
    split
    -- a deferred look-up is a thunk that means the same
    · have hthunk : eval ρ (.function (constant name)) =
          some (.thunk (.validator (ρ name.toList))) := by
        rw [eval, Expression.eval_constant]
        rfl
      rw [Expression.eval_library_one _ hthunk]
      rfl
    · exact Expression.eval_constant name

theorem eval_signed {cs : List Char} (h : Number.Signed cs) :
    ∃ l, eval ρ (Expression.ofSigned cs) = some (.datum l) ∧
      ∀ d, (TypeSyntax.ofSigned cs).Accepts ρ d ↔ d = l := by
  cases h with
  | positive h =>
    obtain ⟨decimal, hread⟩ := Option.isSome_iff_exists.mp h.isSome_read?
    rw [Expression.ofSigned_number h, TypeSyntax.ofSigned_number h]
    refine ⟨.number decimal.toRat, ?_, fun d => ?_⟩
    · rw [eval, Number.value?, hread]
      rfl
    · simp [TypeSyntax.Accepts, Number.value?, hread]
  | @negative cs h =>
    obtain ⟨decimal, hread⟩ := Option.isSome_iff_exists.mp h.isSome_read?
    rw [Expression.ofSigned, Expression.ofWord_number h, TypeSyntax.ofSigned]
    refine ⟨.number (-decimal.toRat), ?_, fun d => ?_⟩
    · rw [eval, eval, Number.value?, hread]
      rfl
    · simp [TypeSyntax.Accepts, Number.value?, hread]

theorem eval_literal {s : Scalar} (h : s.IsLiteral) :
    ∃ l, eval ρ s.expression = some (.datum l) ∧
      ∀ d, s.literalSyntax.Accepts ρ d ↔ d = l := by
  cases h with
  | null => exact ⟨.null, rfl, fun d => TypeSyntax.named_word⟩
  | bool b =>
    cases b with
    | false => exact ⟨.bool false, rfl, fun d => TypeSyntax.named_word⟩
    | true => exact ⟨.bool true, rfl, fun d => TypeSyntax.named_word⟩
  | int n => exact eval_signed (Number.signed_int n)
  | float hx => exact eval_signed (Number.signed_float hx _)
  | text s => exact ⟨.text s.toList, rfl, fun d => Iff.rfl⟩

section
variable {deferred : List String} {ts : List TypeExpr}

theorem eval_union (i : Info)
    (h : ∀ t ∈ ts, eval ρ (t.expression deferred) = some (.validator (t.Accepts ρ))) :
    eval ρ ((union i ts).expression deferred) =
      some (.validator ((union i ts).Accepts ρ)) := by
  have hmeaning : (union i ts).Accepts ρ = fun d => ∃ t ∈ ts, t.Accepts ρ d := by
    funext d
    exact propext acceptsSome_iff
  rw [hmeaning, expression, expressions_eq_map]
  have hitems := Expression.evalItems_map h
  -- the library joins two schemas or more, fewer have texts of their own
  cases ts with
  | nil =>
    have hnever : Meaning.make "never" [] = some (.validator fun _ => False) := rfl
    rw [List.map_nil, unionExpression, @Expression.eval_library ρ "never" [] [] rfl, hnever]
    simp
  | cons t ts =>
    cases ts with
    | nil =>
      rw [List.map_singleton, unionExpression, h t List.mem_cons_self]
      simp
    | cons u ts =>
      have hlist : eval ρ (.list ((t :: u :: ts).map (expression deferred))) =
          some (.items ((t :: u :: ts).map fun t => .validator (t.Accepts ρ))) := by
        rw [eval, hitems]
        rfl
      have hunion : unionExpression ((t :: u :: ts).map (expression deferred)) =
          library "union" [.list ((t :: u :: ts).map (expression deferred))] := rfl
      rw [hunion, Expression.eval_library_one _ hlist, Meaning.make_union, Meaning.mapM_accepts?,
        Option.map_some]
      congr 2
      funext d
      simp [Meaning.ofUnion]

theorem eval_intersection (i : Info)
    (h : ∀ t ∈ ts, eval ρ (t.expression deferred) = some (.validator (t.Accepts ρ))) :
    eval ρ ((intersection i ts).expression deferred) =
      some (.validator ((intersection i ts).Accepts ρ)) := by
  have hmeaning : (intersection i ts).Accepts ρ = fun d => ∀ t ∈ ts, t.Accepts ρ d := by
    funext d
    exact propext acceptsEvery_iff
  -- the fold has merged the members read so far
  have hfold : ∀ (ts : List TypeExpr) (e : Expression) (v : Datum → Prop),
      (∀ t ∈ ts, eval ρ (t.expression deferred) = some (.validator (t.Accepts ρ))) →
      eval ρ e = some (.validator v) →
      eval ρ ((ts.map (expression deferred)).foldl
        (fun merged e => library "intersection" [merged, e]) e) =
        some (.validator fun d => v d ∧ ∀ t ∈ ts, t.Accepts ρ d) := by
    intro ts
    induction ts with
    | nil => intro e v _ he; simpa using he
    | cons t ts ih =>
      intro e v hts he
      have hargs : evalItems ρ [e, t.expression deferred] =
          some [.validator v, .validator (t.Accepts ρ)] := by
        rw [evalItems, evalItems, he, hts t List.mem_cons_self]
        rfl
      have hmerged : eval ρ (library "intersection" [e, t.expression deferred]) =
          some (.validator fun d => v d ∧ t.Accepts ρ d) := Expression.eval_library _ hargs
      rw [List.map_cons, List.foldl_cons,
        ih _ _ (fun u hu => hts u (List.mem_cons_of_mem _ hu)) hmerged]
      simp [and_assoc]
  rw [hmeaning, expression, expressions_eq_map]
  cases ts with
  | nil =>
    have hunknown : Meaning.make "unknown" [] = some (.validator fun _ => True) := rfl
    rw [List.map_nil, intersectionExpression, @Expression.eval_library ρ "unknown" [] [] rfl,
      hunknown]
    simp
  | cons t ts =>
    rw [List.map_cons, intersectionExpression,
      hfold ts _ _ (fun u hu => h u (List.mem_cons_of_mem _ hu)) (h t List.mem_cons_self)]
    simp

theorem eval_property {p : String × TypeExpr} (required : List String)
    (h : eval ρ (p.2.expression deferred) = some (.validator (p.2.Accepts ρ))) :
    eval ρ (propertyExpression (required.contains p.1) p.2 (p.2.expression deferred)) =
      some (.validator (AcceptsProperty ρ required p)) := by
  have hnull : eval ρ (if p.2.lacksNull then modified (p.2.expression deferred) "nullable"
      else p.2.expression deferred) =
      some (.validator fun d => p.2.lacksNull = true ∧ d = .null ∨ p.2.Accepts ρ d) := by
    cases hl : p.2.lacksNull with
    | false => simpa using h
    | true =>
      rw [if_pos rfl, Expression.eval_modified h rfl]
      simp
  unfold propertyExpression
  dsimp only
  cases hr : required.contains p.1 with
  | true =>
    rw [if_pos rfl, hnull]
    congr 2
    funext d
    simp only [AcceptsProperty, hr, Bool.true_eq_false, false_and, false_or]
  | false =>
    rw [if_neg (by decide), Expression.eval_modified hnull rfl]
    congr 2
    funext d
    simp only [AcceptsProperty, hr, true_and]

theorem eval_object {ps : List (String × TypeExpr)} (i : Info) (required : List String)
    (h : ∀ p ∈ ps, eval ρ (p.2.expression deferred) = some (.validator (p.2.Accepts ρ))) :
    eval ρ ((object i ps required).expression deferred) =
      some (.validator ((object i ps required).Accepts ρ)) := by
  have hproperties : ∀ p ∈ ps, eval ρ (propertyExpression (required.contains p.1) p.2
      (p.2.expression deferred)) = some (.validator (AcceptsProperty ρ required p)) :=
    fun p hp => eval_property required (h p hp)
  have hrecord : eval ρ (.record (propertyExpressions deferred required ps)) =
      some (.fields (ps.map fun p => (p.1.toList, .validator (AcceptsProperty ρ required p)))) := by
    rw [eval, propertyExpressions_eq_map, Expression.evalFields_map hproperties]
    rfl
  have hmeaning : (object i ps required).Accepts ρ =
      Meaning.ofObject (ps.map fun p => (p.1.toList, AcceptsProperty ρ required p)) := by
    funext d
    rw [Accepts, Meaning.ofObject]
    simp only [acceptsProperties_iff, List.forall_mem_map]
  rw [hmeaning, expression, Expression.eval_library_one _ hrecord, Meaning.make_object,
    Meaning.fieldValidators?_map]
  rfl

theorem eval_expression {t : TypeExpr} (h : t.Every IsPlain) :
    eval ρ (t.expression deferred) = some (.validator (t.Accepts ρ)) := by
  induction t with
  | identifier i name => exact eval_identifier deferred h
  | literal i value =>
    obtain ⟨s, hs, hl⟩ := h
    obtain ⟨l, heval, haccepts⟩ := @eval_literal ρ s hl
    have hvalue : value.snapshot.expression = s.expression := by
      rw [Document.snapshot, hs]
      rfl
    have hmeaning : (literal i value).Accepts ρ = fun d => d = l := by
      funext d
      rw [Accepts, literalSyntax, hs]
      exact propext (haccepts d)
    rw [hmeaning, expression, hvalue, Expression.eval_library_one _ heval]
    rfl
  | array i t ih =>
    rw [expression, Expression.eval_library_one _ (ih h.2)]
    rfl
  | union i ts ih => exact eval_union i fun t ht => ih t ht (everyMember_iff.mp h.2 t ht)
  | intersection i ts ih =>
    exact eval_intersection i fun t ht => ih t ht (everyMember_iff.mp h.2 t ht)
  | generic i base ts _ _ => exact h.1.elim
  | object i ps required ih =>
    exact eval_object i required fun p hp => ih p hp (everyProperty_iff.mp h.2 p hp)

end

/-! ## Agreement of both texts -/

theorem isPath_pathOf {name : String} (h : IsTypeName name) (hne : name ≠ openMap) :
    TypeSyntax.IsPath (pathOf name) := by
  cases h with
  | primitive h =>
    have hall : ∀ n ∈ primitives, pathOf n = [n.toList] ∧ Lexeme.isName n.toList = true := by
      decide
    obtain ⟨hpath, hname⟩ := hall _ h
    exact ⟨_, [], hpath, hname, by simp⟩
  | openMap => exact absurd rfl hne
  | component h =>
    refine ⟨_, _, pathOf_component h, by decide, ?_⟩
    intro cs hcs
    rcases List.mem_cons.mp hcs with rfl | hcs
    · exact List.all_eq_true.mp rfl
    · rw [List.mem_singleton.mp hcs]
      exact h.2

theorem IsPlain.isReadable {t : TypeExpr} (h : t.IsPlain) : t.IsReadable := by
  cases t with
  | identifier i name =>
    by_cases hne : name = openMap
    · exact Or.inl hne
    · exact Or.inr (isPath_pathOf h hne)
  | literal i value => exact h
  | generic i base ts => exact h.elim
  | _ => trivial

theorem IsPlain.hasTypeName {t : TypeExpr} (h : t.IsPlain) (i : Info) (name : String)
    (ht : t = identifier i name) : IsTypeName name := by
  subst ht
  exact h

theorem IsPlain.hasScalar {t : TypeExpr} (h : t.IsPlain) : t.HasScalar := by
  cases t with
  | literal i value =>
    obtain ⟨s, hs, -⟩ := h
    exact ⟨s, hs⟩
  | _ => trivial

theorem IsPlain.hasNoParams {t : TypeExpr} (h : t.IsPlain) : t.HasNoParams := by
  cases t with
  | generic i base ts => exact h.elim
  | _ => trivial

/-- Both texts of a type can be read, and what they say accepts the same data. -/
def Agrees (ρ : List Char → Datum → Prop) (deferred : List String) (t : TypeExpr) : Prop :=
  ∃ type e v, TypeSyntax.read? (Lexeme.ofText t.declared) = some type ∧
    Expression.read? (Lexeme.ofText (t.validator deferred)) = some e ∧
    eval ρ e = some (.validator v) ∧ ∀ d, type.Accepts ρ d ↔ v d

/-- A validator is written unless an integer is too long, and so is the declared type if the examples in
its comments are. What both texts say accepts the same data. -/
theorem declared_agrees_validator (ρ : List Char → Datum → Prop) (deferred : List String)
    {t : TypeExpr} (h : t.Every IsPlain) :
    (t.declaredFault? = none ↔ t.Every IsShort ∧ t.Every HasWrittenSamples) ∧
    TooLongUnless (t.Every IsShort) t.validatorFault? ∧ t.Agrees ρ deferred := by
  have hscalar := h.imp fun _ => IsPlain.hasScalar
  refine ⟨declaredFault?_eq_none_iff hscalar,
    tooLongUnless_validator hscalar (h.imp fun _ => IsPlain.hasNoParams), ?_⟩
  have hdeclared := reads_declared (h.imp fun _ => IsPlain.isReadable)
  have hvalidator := reads_validator deferred (h.imp fun _ => IsPlain.hasTypeName)
  refine ⟨_, _, _, hdeclared.read?_eq t.alternatives_ne_nil, hvalidator.read?_eq,
    eval_expression h, fun d => ?_⟩
  rw [TypeSyntax.Accepts]
  exact acceptsOne_alternatives t d

def pet : TypeExpr :=
  .object .none [
    ("owner", .identifier ⟨some "the <b>owner</b> */", none, true⟩ "Components.Schemas.Owner"),
    ("tags", .array .none (.intersection .none [.identifier .none "string",
      .union .none [.literal .none (.ofValue (.scalar (.text "a\"b"))),
        .literal .none (.ofValue (.scalar (.int (-3))))]]))] ["owner"]

theorem agrees_pet : pet.Every IsPlain ∧ pet.declaredFault? = none ∧ pet.validatorFault? = none ∧
    pet.Agrees (fun _ d => d = .text []) ["Owner"] := by
  have hplain : pet.Every IsPlain := by
    have howner : IsTypeName "Components.Schemas.Owner" :=
      @IsTypeName.component "Owner" ⟨by decide, List.all_eq_true.mp rfl⟩
    exact ⟨trivial, howner, ⟨trivial, trivial, .primitive (by decide), ⟨trivial,
      ⟨_, rfl, .text _⟩, ⟨_, rfl, .int _⟩, trivial⟩, trivial⟩, trivial⟩
  have hthree : isTooLong (-3) = false := by decide +kernel
  have hshort : pet.Every IsShort := by
    simp [pet, Every, EveryMember, EveryProperty, IsShort, Document.ofValue, hthree]
  have hsamples : pet.Every HasWrittenSamples := by
    simp [pet, Every, EveryMember, EveryProperty, HasWrittenSamples, sampleFault?, info, Info.none]
  obtain ⟨hdeclared, hvalidator, hagrees⟩ :=
    declared_agrees_validator (fun _ d => d = .text []) ["Owner"] hplain
  exact ⟨hplain, hdeclared.mpr ⟨hshort, hsamples⟩, hvalidator.1 hshort, hagrees⟩

end TypeExpr

end ApiTypes
