import ApiTypes.TypeExpr.References
import ApiTypes.Proofs.Validator

/-!
# Names looked up at once

`Expression.eager` lists the names that an expression looks up, all but those that `z.lazy` defers.
In the validator of a type these are, of all constants of components, the ones that the type
refers to and that are not deferred.
-/

namespace ApiTypes

namespace Expression

def constantOf? : Expression → Option (List Char)
  | .member (.member (.name a) b) c =>
    if a = "Components".toList ∧ b = "Schemas".toList then some c else none
  | _ => none

def isLazy : Expression → Bool
  | .member (.name a) b => a == ['z'] && b == "lazy".toList
  | _ => false

mutual

/-- The names and the constants of components that are looked up where the expression stands. -/
def eager : Expression → List (List Char)
  | .name cs => [cs]
  | .text _ | .number _ => []
  | .minus e => eager e
  | .member e n => (constantOf? (.member e n)).toList ++ eager e
  | .call f arguments => eager f ++ if isLazy f then [] else eagerItems arguments
  | .list items => eagerItems items
  | .record fields => eagerFields fields
  | .function body => eager body

def eagerItems : List Expression → List (List Char)
  | [] => []
  | e :: es => eager e ++ eagerItems es

def eagerFields : List (List Char × Expression) → List (List Char)
  | [] => []
  | (_, e) :: fields => eager e ++ eagerFields fields

end

theorem mem_eagerItems {n : List Char} {es : List Expression} :
    n ∈ eagerItems es ↔ ∃ e ∈ es, n ∈ e.eager := by
  induction es with
  | nil => simp [eagerItems]
  | cons e es ih => simp [eagerItems, ih]

theorem mem_eagerFields {n : List Char} {fields : List (List Char × Expression)} :
    n ∈ eagerFields fields ↔ ∃ f ∈ fields, n ∈ f.2.eager := by
  induction fields with
  | nil => simp [eagerFields]
  | cons f fields ih => simp [eagerFields, ih]

/-! ## Constants -/

def constantName (name : String) : List Char := (TypeExpr.validatorName name).toList

theorem constantName_eq (name : String) : constantName name = name.toList ++ "Schema".toList := by
  rw [constantName, TypeExpr.validatorName, String.toList_append]

theorem constantName_inj {a b : String} : constantName a = constantName b ↔ a = b := by
  rw [constantName_eq, constantName_eq, List.append_cancel_right_eq, String.toList_inj]

theorem ne_constantName {cs : List Char} (h : ¬ "Schema".toList <:+ cs) (name : String) :
    constantName name ≠ cs := by
  rintro rfl
  exact h (constantName_eq name ▸ List.suffix_append _ _)

def LooksUp (e : Expression) (name : String) : Prop := constantName name ∈ e.eager

section
variable {name : String}

theorem looksUp_name (cs : List Char) (h : ¬ "Schema".toList <:+ cs) :
    ¬ (Expression.name cs).LooksUp name := by
  intro hn
  exact ne_constantName h name (List.mem_singleton.mp hn)

theorem looksUp_constant {a : String} : (constant a).LooksUp name ↔ name = a := by
  have hscope : ¬ (Expression.name "Components".toList).LooksUp name := looksUp_name _ (by decide)
  show constantName name ∈ constantName a :: (Expression.name "Components".toList).eager ↔ _
  rw [List.mem_cons, constantName_inj]
  exact or_iff_left hscope

theorem looksUp_call {f : Expression} {es : List Expression} (h : isLazy f = false) :
    (Expression.call f es).LooksUp name ↔ f.LooksUp name ∨ ∃ e ∈ es, e.LooksUp name := by
  rw [LooksUp, eager, h, List.mem_append]
  exact or_congr_right mem_eagerItems

theorem looksUp_library {f : String} {es : List Expression} (h : f ≠ "lazy") :
    (library f es).LooksUp name ↔ ∃ e ∈ es, e.LooksUp name := by
  have hlazy : isLazy (.member (.name ['z']) f.toList) = false := by
    have hne : (f.toList == "lazy".toList) = false :=
      beq_eq_false_iff_ne.mpr fun hf => h (String.toList_inj.mp hf)
    exact hne
  have hz : ¬ (Expression.member (.name ['z']) f.toList).LooksUp name :=
    looksUp_name ['z'] (by decide)
  rw [library, looksUp_call hlazy]
  exact or_iff_right hz

theorem not_looksUp_lazy (es : List Expression) : ¬ (library "lazy" es).LooksUp name :=
  looksUp_name ['z'] (by decide)

theorem looksUp_modified {e : Expression} {method : String}
    (h : ¬ "Schema".toList <:+ method.toList) : (modified e method).LooksUp name ↔ e.LooksUp name := by
  have hconst : constantName name ∉ (constantOf? (.member e method.toList)).toList := by
    unfold constantOf?
    split
    · rename_i heq
      cases heq
      split
      · intro hmem
        exact ne_constantName h name (List.mem_singleton.mp hmem)
      · simp
    · simp
  rw [modified, LooksUp, eager, eagerItems, ite_self, List.append_nil, eager, List.mem_append]
  exact or_iff_right hconst

theorem looksUp_list {es : List Expression} :
    (Expression.list es).LooksUp name ↔ ∃ e ∈ es, e.LooksUp name := mem_eagerItems

theorem looksUp_record {fields : List (List Char × Expression)} :
    (Expression.record fields).LooksUp name ↔ ∃ f ∈ fields, f.2.LooksUp name := mem_eagerFields

end

/-! ## Literals -/

theorem not_looksUp_signed {cs : List Char} (h : Number.Signed cs) (name : String) :
    ¬ (ofSigned cs).LooksUp name := by
  cases h with
  | positive h =>
    rw [ofSigned_number h]
    exact List.not_mem_nil
  | negative h =>
    rw [ofSigned, ofWord_number h]
    exact List.not_mem_nil

end Expression

theorem Scalar.not_looksUp (s : Scalar) (name : String) : ¬ s.expression.LooksUp name := by
  cases s with
  | null => exact Expression.looksUp_name "null".toList (by decide)
  | bool b =>
    cases b with
    | false => exact Expression.looksUp_name "false".toList (by decide)
    | true => exact Expression.looksUp_name "true".toList (by decide)
  | int n => exact Expression.not_looksUp_signed (Number.signed_int n) name
  | float x =>
    -- an infinity is a name, though not one of a constant
    cases h : x.isInf with
    | true =>
      have hname : ¬ (Expression.name "Infinity".toList).LooksUp name :=
        Expression.looksUp_name _ (by decide)
      show ¬ (Expression.ofSigned (Decimal.floatText "Infinity" x).toList).LooksUp name
      rcases Number.floatText_of_isInf h "Infinity" with ht | ht
      · rw [ht]
        exact hname
      · rw [ht]
        exact hname
    | false => exact Expression.not_looksUp_signed (Number.signed_float h _) name
  | nan origin =>
    have h : ¬ (Expression.ofSigned "NaN".toList).LooksUp name :=
      Expression.looksUp_name "NaN".toList (by decide)
    exact h
  | text s => exact List.not_mem_nil
  | date d => exact List.not_mem_nil
  | dateTime t => exact List.not_mem_nil
  | bytes bs => exact List.not_mem_nil

theorem Value.not_looksUp (v : Value) (name : String) : ¬ v.expression.LooksUp name := by
  induction v with
  | scalar s => exact s.not_looksUp name
  | seq items ih =>
    rw [expression, itemExpressions_eq_map, Expression.looksUp_list]
    simpa using ih
  | tuple items ih =>
    rw [expression, itemExpressions_eq_map, Expression.looksUp_list]
    simpa using ih
  | map entries ih =>
    rw [expression, entryExpressions_eq_map, Expression.looksUp_record]
    rintro ⟨f, hf, hl⟩
    obtain ⟨e, he, rfl⟩ := List.mem_map.mp hf
    exact ih e he hl
  | set members => exact List.not_mem_nil
  | link n => exact Expression.looksUp_name "null".toList (by decide)

/-! ## Types -/

namespace TypeExpr

open Expression (library constant modified)

variable {deferred : List String} {name : String}

theorem looksUp_identifier {n : String}
    (hl : (identifierExpression deferred n).LooksUp name) :
    name = componentName n ∧ name ∉ deferred := by
  have hnone : ∀ {f : String}, f ≠ "lazy" → ¬ (library f []).LooksUp name := by
    intro f hf hl
    obtain ⟨e, he, _⟩ := (Expression.looksUp_library hf).mp hl
    cases he
  unfold identifierExpression at hl
  split at hl
  · rename_i hn
    have hlazy : ∀ s ∈ primitives, s ≠ "lazy" := by decide
    exact absurd hl (hnone (hlazy n (by simpa using hn)))
  split at hl
  · obtain ⟨e, he, hl⟩ := (Expression.looksUp_library (by decide)).mp hl
    rcases List.mem_cons.mp he with rfl | he
    · exact absurd hl (hnone (by decide))
    · rw [List.mem_singleton.mp he] at hl
      exact absurd hl (hnone (by decide))
  split at hl
  · exact absurd hl (Expression.not_looksUp_lazy _)
  · rename_i hd
    obtain rfl := Expression.looksUp_constant.mp hl
    exact ⟨rfl, by simpa using hd⟩

theorem looksUp_union {es : List Expression} (hl : (unionExpression es).LooksUp name) :
    ∃ e ∈ es, e.LooksUp name := by
  match es, hl with
  | [], hl => exact (Expression.looksUp_library (by decide)).mp hl
  | [e], hl => exact ⟨e, List.mem_cons_self, hl⟩
  | e :: e' :: es, hl =>
    obtain ⟨l, hmem, hl⟩ := (Expression.looksUp_library (by decide)).mp hl
    rw [List.mem_singleton.mp hmem] at hl
    exact Expression.looksUp_list.mp hl

theorem looksUp_intersection {es : List Expression}
    (hl : (intersectionExpression es).LooksUp name) : ∃ e ∈ es, e.LooksUp name := by
  cases es with
  | nil => exact (Expression.looksUp_library (by decide)).mp hl
  | cons e es =>
    rw [intersectionExpression] at hl
    induction es generalizing e with
    | nil => exact ⟨e, List.mem_cons_self, hl⟩
    | cons e' es ih =>
      obtain ⟨d, hd, hd'⟩ := ih _ hl
      rcases List.mem_cons.mp hd with rfl | hd
      · obtain ⟨c, hc, hc'⟩ := (Expression.looksUp_library (by decide)).mp hd'
        exact ⟨c, List.mem_append_left es hc, hc'⟩
      · exact ⟨d, by simp [hd], hd'⟩

theorem looksUp_property {required : Bool} {t : TypeExpr} {e : Expression}
    (hl : (propertyExpression required t e).LooksUp name) : e.LooksUp name := by
  have hnull : (if t.lacksNull then modified e "nullable" else e).LooksUp name → e.LooksUp name := by
    split
    · exact (Expression.looksUp_modified (by decide)).mp
    · exact id
  unfold propertyExpression at hl
  dsimp only at hl
  split at hl
  · exact hnull hl
  · exact hnull ((Expression.looksUp_modified (by decide)).mp hl)

/-- What the validator of a type looks up at once is a reference of the type and is not deferred. -/
theorem looksUp_expression {t : TypeExpr}
    (hl : (t.expression deferred).LooksUp name) : name ∈ t.references ∧ name ∉ deferred := by
  -- what a member looks up is among the references of all members
  have hmembers : ∀ {ts : List TypeExpr},
      (∀ t ∈ ts, (t.expression deferred).LooksUp name →
        name ∈ t.references ∧ name ∉ deferred) →
      (∃ e ∈ expressions deferred ts, e.LooksUp name) →
      name ∈ memberReferences ts ∧ name ∉ deferred := by
    rintro ts ih ⟨e, he, hl⟩
    rw [expressions_eq_map] at he
    obtain ⟨t, ht, rfl⟩ := List.mem_map.mp he
    obtain ⟨hmem, hn⟩ := ih t ht hl
    rw [memberReferences_eq_flatMap]
    exact ⟨List.mem_flatMap.mpr ⟨t, ht, hmem⟩, hn⟩
  induction t with
  | identifier i n =>
    obtain ⟨rfl, hn⟩ := looksUp_identifier hl
    exact ⟨List.mem_singleton_self _, hn⟩
  | literal i value =>
    rw [expression, Expression.looksUp_library (by decide)] at hl
    obtain ⟨e, he, hl⟩ := hl
    rw [List.mem_singleton.mp he] at hl
    exact absurd hl (value.snapshot.not_looksUp name)
  | array i t ih =>
    rw [expression, Expression.looksUp_library (by decide)] at hl
    obtain ⟨e, he, hl⟩ := hl
    rw [List.mem_singleton.mp he] at hl
    exact ih hl
  | union i ts ih => exact hmembers ih (looksUp_union hl)
  | intersection i ts ih => exact hmembers ih (looksUp_intersection hl)
  | generic i base ts ihb _ =>
    obtain ⟨hb, hn⟩ := ihb hl
    exact ⟨List.mem_append_left _ hb, hn⟩
  | object i ps required ih =>
    rw [expression, Expression.looksUp_library (by decide)] at hl
    obtain ⟨e, he, hl⟩ := hl
    rw [List.mem_singleton.mp he, Expression.looksUp_record] at hl
    obtain ⟨f, hf, hl⟩ := hl
    rw [propertyExpressions_eq_map] at hf
    obtain ⟨p, hp, rfl⟩ := List.mem_map.mp hf
    obtain ⟨hmem, hn⟩ := ih p hp (looksUp_property hl)
    rw [references, propertyReferences_eq_flatMap]
    exact ⟨List.mem_flatMap.mpr ⟨p, hp, hmem⟩, hn⟩

end TypeExpr

end ApiTypes
