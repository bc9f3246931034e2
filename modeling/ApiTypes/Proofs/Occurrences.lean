import ApiTypes.Proofs.Lookup
import ApiTypes.Proofs.Mapping

/-!
# Constants that are deferred

`Expression.occurrences` lists the constants of components in an expression, with whether `z.lazy` defers
them. In the validator of a type they are the components that the type refers to through their namespace.
-/

namespace ApiTypes

/-! ## Constants in an expression -/

namespace Expression

mutual

/-- The constants of components in an expression, each with whether it stands in an argument of
`z.lazy`. -/
def occurrences : Expression → List (List Char × Bool)
  | .name _ | .text _ | .number _ => []
  | .minus e | .function e => occurrences e
  | .member e n => (constantOf? (.member e n)).toList.map (·, false) ++ occurrences e
  | .call f arguments =>
    if isLazy f then (itemOccurrences arguments).map fun o => (o.1, true)
    else occurrences f ++ itemOccurrences arguments
  | .list items => itemOccurrences items
  | .record fields => fieldOccurrences fields

def itemOccurrences : List Expression → List (List Char × Bool)
  | [] => []
  | e :: es => occurrences e ++ itemOccurrences es

def fieldOccurrences : List (List Char × Expression) → List (List Char × Bool)
  | [] => []
  | (_, e) :: fields => occurrences e ++ fieldOccurrences fields

end

def Occurs (e : Expression) (name : String) (deferred : Bool) : Prop :=
  (constantName name, deferred) ∈ e.occurrences

theorem itemOccurrences_eq_flatMap (es : List Expression) :
    itemOccurrences es = es.flatMap occurrences := by
  induction es with
  | nil => rfl
  | cons e es ih => simp [itemOccurrences, ih]

theorem fieldOccurrences_eq_flatMap (fields : List (List Char × Expression)) :
    fieldOccurrences fields = fields.flatMap fun f => f.2.occurrences := by
  induction fields with
  | nil => rfl
  | cons f fields ih => simp [fieldOccurrences, ih]

theorem isLazy_member {f : String} (h : f ≠ "lazy") (e : Expression) :
    isLazy (.member e f.toList) = false := by
  have hne : (f.toList == "lazy".toList) = false :=
    beq_eq_false_iff_ne.mpr fun hf => h (String.toList_inj.mp hf)
  unfold isLazy
  split
  · rename_i heq
    cases heq
    rw [hne, Bool.and_false]
  · rfl

theorem occurrences_library {f : String} {es : List Expression} (h : f ≠ "lazy") :
    (library f es).occurrences = es.flatMap occurrences := by
  have hz : (Expression.member (.name ['z']) f.toList).occurrences = [] := rfl
  rw [library, occurrences, isLazy_member h, if_neg Bool.false_ne_true, hz, List.nil_append,
    itemOccurrences_eq_flatMap]

theorem occurrences_lazy (e : Expression) : (library "lazy" [.function e]).occurrences =
    e.occurrences.map fun o => (o.1, true) := by
  have hlazy : isLazy (.member (.name ['z']) "lazy".toList) = true := rfl
  rw [library, occurrences, if_pos hlazy, itemOccurrences, itemOccurrences, List.append_nil, occurrences]

theorem occurrences_modified {e : Expression} {method : String}
    (h : ∀ n, constantOf? (.member e n) = none) (hlazy : method ≠ "lazy") :
    (modified e method).occurrences = e.occurrences := by
  rw [modified, occurrences, isLazy_member hlazy, if_neg Bool.false_ne_true, itemOccurrences,
    List.append_nil, occurrences, h]
  rfl

theorem occurrences_signed {cs : List Char} (h : Number.Signed cs) :
    (ofSigned cs).occurrences = [] := by
  cases h with
  | positive h => rw [ofSigned_number h, occurrences]
  | negative h => rw [ofSigned, ofWord_number h, occurrences, occurrences]

end Expression

theorem Scalar.occurrences_expression (s : Scalar) : s.expression.occurrences = [] := by
  cases s with
  | int n => exact Expression.occurrences_signed (Number.signed_int n)
  | float x =>
    cases h : x.isInf with
    | true =>
      show (Expression.ofSigned (Decimal.floatText "Infinity" x).toList).occurrences = []
      rcases Number.floatText_of_isInf h "Infinity" with ht | ht
      · rw [ht]
        rfl
      · rw [ht]
        rfl
    | false => exact Expression.occurrences_signed (Number.signed_float h _)
  | bool b => cases b <;> rfl
  | nan origin =>
    show (Expression.ofSigned "NaN".toList).occurrences = []
    rfl
  | _ => rfl

theorem Value.occurrences_expression (v : Value) : v.expression.occurrences = [] := by
  induction v with
  | scalar s => exact s.occurrences_expression
  | seq items ih =>
    rw [expression, itemExpressions_eq_map, Expression.occurrences,
      Expression.itemOccurrences_eq_flatMap]
    simpa using ih
  | tuple items ih =>
    rw [expression, itemExpressions_eq_map, Expression.occurrences,
      Expression.itemOccurrences_eq_flatMap]
    simpa using ih
  | map entries ih =>
    rw [expression, entryExpressions_eq_map, Expression.occurrences,
      Expression.fieldOccurrences_eq_flatMap, List.flatMap_map]
    simpa using ih
  | set members => rfl
  | link n => rfl

/-! ## Types -/

namespace TypeExpr

open Expression (library constant modified)

mutual

def names : TypeExpr → List String
  | identifier _ name => [name]
  | literal _ _ => []
  | array _ element => element.names
  | union _ members | intersection _ members => memberNames members
  | generic _ base params => base.names ++ memberNames params
  | object _ properties _ => propertyNames properties

def memberNames : List TypeExpr → List String
  | [] => []
  | t :: ts => t.names ++ memberNames ts

def propertyNames : List (String × TypeExpr) → List String
  | [] => []
  | (_, t) :: rest => t.names ++ propertyNames rest

end

theorem memberNames_eq_flatMap (ts : List TypeExpr) : memberNames ts = ts.flatMap names := by
  induction ts with
  | nil => rfl
  | cons t ts ih => simp [memberNames, ih]

theorem propertyNames_eq_flatMap (ps : List (String × TypeExpr)) :
    propertyNames ps = ps.flatMap fun p => p.2.names := by
  induction ps with
  | nil => rfl
  | cons p ps ih => simp [propertyNames, ih]

theorem references_eq (t : TypeExpr) : t.references = t.names.map componentName := by
  have hmembers : ∀ {ts : List TypeExpr}, (∀ t ∈ ts, t.references = t.names.map componentName) →
      memberReferences ts = (memberNames ts).map componentName := by
    intro ts ih
    rw [memberReferences_eq_flatMap, memberNames_eq_flatMap, List.map_flatMap]
    exact List.flatMap_congr ih
  induction t with
  | identifier i name => rfl
  | literal i value => rfl
  | array i t ih => exact ih
  | union i ts ih => exact hmembers ih
  | intersection i ts ih => exact hmembers ih
  | generic i base ts ihb ih => rw [references, names, List.map_append, ihb, hmembers ih]
  | object i ps required ih =>
    rw [references, names, propertyReferences_eq_flatMap, propertyNames_eq_flatMap,
      List.map_flatMap]
    exact List.flatMap_congr ih

def LacksGenerics (t : TypeExpr) : Prop := t.Every fun t => ∀ i base ts, t ≠ generic i base ts

def isReference (name : String) : Bool := !primitives.contains name && name != openMap

theorem isReference_iff {name : String} : isReference name = true ↔
    primitives.contains name = false ∧ (name == openMap) = false := by
  simp [isReference, bne]

theorem isReference_path (name : String) : isReference (componentPath name) = true := by
  simp [isReference, componentPath_notMem, componentPath_ne_openMap]

variable {deferred : List String}

def occurrence (deferred : List String) (name : String) : List Char × Bool :=
  (Expression.constantName (componentName name), deferred.contains (componentName name))

theorem occurrences_identifier {name : String} (h : IsTypeName name) :
    (identifierExpression deferred name).occurrences =
      ([name].filter isReference).map (occurrence deferred) := by
  unfold identifierExpression
  cases h with
  | primitive h =>
    have hlazy : ∀ s ∈ primitives, s ≠ "lazy" := by decide
    have hreference : ∀ s ∈ primitives, isReference s = false := by decide
    rw [if_pos (by simpa using h), Expression.occurrences_library (hlazy name h),
      List.filter_cons_of_neg (by simp [hreference name h])]
    rfl
  | openMap =>
    rw [if_neg (by decide), if_pos (beq_self_eq_true _), Expression.occurrences_library (by decide),
      List.filter_cons_of_neg (by decide)]
    rfl
  | @component c _ =>
    rw [if_neg (by simpa using componentPath_notMem c),
      if_neg (by simpa using componentPath_ne_openMap c), List.filter_cons_of_pos (isReference_path c)]
    show _ = [occurrence deferred (componentPath c)]
    rw [occurrence, componentName_path]
    split
    · rename_i hd
      rw [Expression.occurrences_lazy, hd]
      rfl
    · rename_i hd
      rw [Bool.eq_false_iff.mpr hd]
      rfl

theorem occurrences_union (es : List Expression) :
    (unionExpression es).occurrences = es.flatMap Expression.occurrences := by
  match es with
  | [] => rfl
  | [e] => simp [unionExpression]
  | e :: e' :: es =>
    have hunion : unionExpression (e :: e' :: es) = library "union" [.list (e :: e' :: es)] := rfl
    rw [hunion, Expression.occurrences_library (by decide), List.flatMap_singleton,
      Expression.occurrences, Expression.itemOccurrences_eq_flatMap]

theorem occurrences_intersection (es : List Expression) :
    (intersectionExpression es).occurrences = es.flatMap Expression.occurrences := by
  cases es with
  | nil => rfl
  | cons e es =>
    rw [intersectionExpression]
    induction es generalizing e with
    | nil => simp
    | cons e' es ih =>
      rw [List.foldl_cons, ih, List.flatMap_cons, Expression.occurrences_library (by decide)]
      simp

theorem constantOf?_expression {t : TypeExpr} (h : t.HasTypeNames) (n : List Char) :
    Expression.constantOf? (.member (t.expression deferred) n) = none := by
  -- only an identifier could be a constant, and a folded call is none
  have hfold : ∀ (es : List Expression) (e : Expression),
      Expression.constantOf? (.member e n) = none → Expression.constantOf?
        (.member (es.foldl (fun merged e => library "intersection" [merged, e]) e) n) = none := by
    intro es
    induction es with
    | nil => exact fun _ he => he
    | cons e' es ih => exact fun _ _ => ih _ rfl
  induction t with
  | identifier i name =>
    rw [expression]
    unfold identifierExpression
    split
    · rfl
    split
    · rfl
    split
    · rfl
    · rfl
  | literal i value => rfl
  | array i t ih => rfl
  | union i ts ih =>
    rw [expression, expressions_eq_map]
    cases ts with
    | nil => rfl
    | cons t ts =>
      cases ts with
      | nil => exact ih t List.mem_cons_self (everyMember_iff.mp h.2 t List.mem_cons_self)
      | cons t' ts => rfl
  | intersection i ts ih =>
    rw [expression, expressions_eq_map]
    cases ts with
    | nil => rfl
    | cons t ts =>
      exact hfold _ _ (ih t List.mem_cons_self (everyMember_iff.mp h.2 t List.mem_cons_self))
  | generic i base ts ihb _ => exact ihb h.2.1
  | object i ps required ih => rfl

theorem occurrences_property {required : Bool} {t : TypeExpr} {e : Expression}
    (h : ∀ n, Expression.constantOf? (.member e n) = none) :
    (propertyExpression required t e).occurrences = e.occurrences := by
  have hnull : (if t.lacksNull then modified e "nullable" else e).occurrences = e.occurrences ∧
      ∀ n, Expression.constantOf? (.member (if t.lacksNull then modified e "nullable" else e) n) =
        none := by
    split
    · exact ⟨Expression.occurrences_modified h (by decide), fun _ => rfl⟩
    · exact ⟨rfl, h⟩
  unfold propertyExpression
  dsimp only
  split
  · exact hnull.1
  · rw [Expression.occurrences_modified hnull.2 (by decide), hnull.1]

/-- The constants in the validator of a type stand for the references in the type, in the same order. -/
theorem occurrences_expression {t : TypeExpr} (h : t.HasTypeNames) (hg : t.LacksGenerics) :
    (t.expression deferred).occurrences = (t.names.filter isReference).map (occurrence deferred) := by
  have hmembers : ∀ {ts : List TypeExpr},
      (∀ t ∈ ts, (t.expression deferred).occurrences =
        (t.names.filter isReference).map (occurrence deferred)) →
      (expressions deferred ts).flatMap Expression.occurrences =
        ((memberNames ts).filter isReference).map (occurrence deferred) := by
    intro ts ih
    rw [expressions_eq_map, memberNames_eq_flatMap, List.flatMap_map, List.filter_flatMap,
      List.map_flatMap]
    exact List.flatMap_congr ih
  induction t with
  | identifier i name => exact occurrences_identifier (h i name rfl)
  | literal i value =>
    rw [expression, Expression.occurrences_library (by decide), List.flatMap_singleton]
    exact value.snapshot.occurrences_expression
  | array i t ih =>
    rw [expression, Expression.occurrences_library (by decide), List.flatMap_singleton]
    exact ih h.2 hg.2
  | union i ts ih =>
    rw [expression, occurrences_union, names]
    exact hmembers fun t ht => ih t ht (everyMember_iff.mp h.2 t ht) (everyMember_iff.mp hg.2 t ht)
  | intersection i ts ih =>
    rw [expression, occurrences_intersection, names]
    exact hmembers fun t ht => ih t ht (everyMember_iff.mp h.2 t ht) (everyMember_iff.mp hg.2 t ht)
  | generic i base ts ihb _ => exact absurd rfl (hg.1 i base ts)
  | object i ps required ih =>
    rw [expression, Expression.occurrences_library (by decide), List.flatMap_singleton,
      Expression.occurrences, Expression.fieldOccurrences_eq_flatMap, propertyExpressions_eq_map,
      names, propertyNames_eq_flatMap, List.flatMap_map, List.filter_flatMap, List.map_flatMap]
    refine List.flatMap_congr fun p hp => ?_
    have hnames := everyProperty_iff.mp h.2 p hp
    rw [occurrences_property (constantOf?_expression hnames),
      ih p hp hnames (everyProperty_iff.mp hg.2 p hp)]

theorem isTypeName_of_mem_names {t : TypeExpr} (h : t.HasTypeNames) :
    ∀ name ∈ t.names, IsTypeName name := by
  have hmembers : ∀ {ts : List TypeExpr}, (∀ t ∈ ts, ∀ name ∈ t.names, IsTypeName name) →
      ∀ name ∈ memberNames ts, IsTypeName name := by
    intro ts ih name hname
    rw [memberNames_eq_flatMap] at hname
    obtain ⟨t, ht, hname⟩ := List.mem_flatMap.mp hname
    exact ih t ht name hname
  induction t with
  | identifier i name => exact List.forall_mem_singleton.mpr (h i name rfl)
  | literal i value => exact List.forall_mem_nil _
  | array i t ih => exact ih h.2
  | union i ts ih => exact hmembers fun t ht => ih t ht (everyMember_iff.mp h.2 t ht)
  | intersection i ts ih => exact hmembers fun t ht => ih t ht (everyMember_iff.mp h.2 t ht)
  | generic i base ts ihb ih =>
    refine List.forall_mem_append.mpr ⟨ihb h.2.1, ?_⟩
    exact hmembers fun t ht => ih t ht (everyMember_iff.mp h.2.2 t ht)
  | object i ps required ih =>
    rw [names, propertyNames_eq_flatMap]
    intro name hname
    obtain ⟨p, hp, hname⟩ := List.mem_flatMap.mp hname
    exact ih p hp (everyProperty_iff.mp h.2 p hp) name hname

theorem occurs_expression {t : TypeExpr} {name : String} {b : Bool} (h : t.HasTypeNames)
    (hg : t.LacksGenerics) : (t.expression deferred).Occurs name b ↔
      componentPath name ∈ t.names ∧ (b = true ↔ name ∈ deferred) := by
  have hdeferred : deferred.contains name = b ↔ (b = true ↔ name ∈ deferred) := by
    rw [← List.contains_iff_mem]
    cases b <;> simp
  rw [Expression.Occurs, occurrences_expression h hg, List.mem_map, ← hdeferred]
  constructor
  · rintro ⟨n, hn, heq⟩
    obtain ⟨hmem, href⟩ := List.mem_filter.mp hn
    obtain ⟨hname, hb⟩ := Prod.mk.inj heq
    cases isTypeName_of_mem_names h n hmem with
    | primitive hp =>
      have hreference : ∀ s ∈ primitives, isReference s = false := by decide
      rw [hreference n hp] at href
      cases href
    | openMap => exact absurd href (by decide)
    | @component c _ =>
      rw [componentName_path] at hname hb
      obtain rfl := Expression.constantName_inj.mp hname
      exact ⟨hmem, hb⟩
  · rintro ⟨hmem, hb⟩
    refine ⟨_, List.mem_filter.mpr ⟨hmem, isReference_path name⟩, ?_⟩
    rw [occurrence, componentName_path, hb]

end TypeExpr

theorem Schema.lacksGenerics_typeAt {room : Nat} {depth : Int} {outer : List Nat} {s : Document}
    {t : TypeExpr} (h : (typeAt room depth outer s).result = .ok t) : t.LacksGenerics := by
  refine typeAt_induction (motive := fun _ t => t.LacksGenerics) ?_ h
  have hidentifier : ∀ i name, (TypeExpr.identifier i name).LacksGenerics := fun i name => by
    simp [TypeExpr.LacksGenerics, TypeExpr.Every]
  intro s t h
  cases h with
  | any _ => exact hidentifier _ _
  | reference _ => exact hidentifier _ _
  | unopened => exact hidentifier _ _
  | literals _ =>
    refine ⟨by simp, TypeExpr.everyMember_iff.mpr ?_⟩
    intro t ht
    obtain ⟨value, _, rfl⟩ := List.mem_map.mp ht
    intro i base ts hgeneric
    cases hgeneric
  | union _ hts => exact ⟨by simp, TypeExpr.everyMember_iff.mpr (forall_of_forall₂ hts)⟩
  | intersection _ hts => exact ⟨by simp, TypeExpr.everyMember_iff.mpr (forall_of_forall₂ hts)⟩
  | null => exact hidentifier _ _
  | array ht => exact ⟨by simp, ht⟩
  | object required _ hps =>
    refine ⟨by simp, TypeExpr.everyProperty_iff.mpr (Table.forall_ofList ?_)⟩
    exact forall_of_forall₂ (hps.imp fun _ _ h => h.2)

end ApiTypes
