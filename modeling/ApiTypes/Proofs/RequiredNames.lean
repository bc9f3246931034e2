import ApiTypes.Proofs.Nullable

/-!
# Required names

Which properties of an object may be left out. The declared type marks them with `?`, the validator with
a call of `optional`, and both mark the same ones: those whose name, the text of a key, is none of the
texts in the list of required names.
-/

namespace ApiTypes

theorem Scalar.sameKey_text (s : Scalar) (name : String) :
    s.sameKey (.text name) = (s.text? == some name) := by
  cases s with
  | float x =>
    unfold sameKey
    dsimp only [integer?]
    cases Decimal.integer? x <;> rfl
  | _ => rfl

/-! ## Expressions -/

namespace Expression

def isOptional : Expression → Bool
  | .call (.member _ method) [] => method == "optional".toList
  | _ => false

end Expression

namespace TypeExpr

open Expression (isOptional library)

theorem isOptional_identifierExpression (deferred : List String) (name : String) :
    isOptional (identifierExpression deferred name) = false := by
  have hprimitives : ∀ s ∈ primitives, isOptional (library s []) = false := by decide
  unfold identifierExpression
  split
  · exact hprimitives name (List.contains_iff_mem.mp ‹_›)
  split
  · rfl
  split
  · rfl
  · rfl

section
variable {es : List Expression} (h : ∀ e ∈ es, isOptional e = false)
include h

theorem isOptional_unionExpression : isOptional (unionExpression es) = false := by
  unfold unionExpression
  split
  · rfl
  · exact h _ List.mem_cons_self
  · rfl

theorem isOptional_intersectionExpression : isOptional (intersectionExpression es) = false := by
  have hfold : ∀ (es : List Expression) (e : Expression), isOptional e = false →
      isOptional (es.foldl (fun merged e => library "intersection" [merged, e]) e) = false := by
    intro es
    induction es with
    | nil => exact fun _ he => he
    | cons e' es ih => exact fun e _ => ih _ rfl
  unfold intersectionExpression
  split
  · rfl
  · exact hfold _ _ (h _ List.mem_cons_self)

end

theorem isOptional_expression (deferred : List String) (t : TypeExpr) :
    isOptional (t.expression deferred) = false := by
  induction t with
  | identifier i name => exact isOptional_identifierExpression deferred name
  | literal i value => rfl
  | array i t _ => rfl
  | union i ts ih =>
    rw [expression, expressions_eq_map]
    exact isOptional_unionExpression (List.forall_mem_map.mpr ih)
  | intersection i ts ih =>
    rw [expression, expressions_eq_map]
    exact isOptional_intersectionExpression (List.forall_mem_map.mpr ih)
  | generic i base ts ih _ => exact ih
  | object i ps required _ => rfl

theorem isOptional_propertyExpression (required : Bool) (t : TypeExpr) {e : Expression}
    (h : isOptional e = false) : isOptional (propertyExpression required t e) = !required := by
  unfold propertyExpression
  cases required with
  | false => rfl
  | true =>
    cases t.lacksNull with
    | false => exact h
    | true => rfl

/-! ## Declared properties -/

theorem takeWhile_propertyText (name : String) (required : Bool) (t : TypeExpr) (declared : String) :
    (Lexeme.ofText (propertyText name required t declared)).takeWhile (· != .mark ':') =
      TypeSyntax.keyLexeme name :: if required then [] else [.mark '?'] := by
  have hkey : (TypeSyntax.keyLexeme name != .mark ':') = true := by
    unfold TypeSyntax.keyLexeme
    split <;> rfl
  obtain ⟨lead, hlead, htext⟩ := exists_lead_propertyText name required t declared
  have hmark : Lexeme.Spells Lexeme.never ((if required then "" else "?") ++ ": ").toList
      ((if required then [] else [.mark '?']) ++ [.mark ':']) := by
    cases required <;> exact fun _ _ => rfl
  have hopening := (hlead.append_never (TypeSyntax.spells_key name)).append hmark
    (by intro c hc; cases required <;> cases hc <;> decide) (by cases required <;> simp)
  have hsplit : (propertyText name required t declared).toList =
      lead.toList ++ (Name.propertyKey name).toList ++
        ((if required then "" else "?") ++ ": ").toList ++
        ((if t.lacksNull then declared ++ " | null" else declared) ++ ";").toList := by
    rw [htext]
    simp only [String.toList_append, List.append_assoc]
  rw [Lexeme.ofText, hsplit, hopening _ fun _ _ => rfl]
  cases required <;> simp [hkey]

/-- In both texts of an object the properties with these names, in this order, may be left out just where
their flag does not hold. -/
def MarksRequired (deferred : List String) (t : TypeExpr) (names : List (String × Bool)) : Prop :=
  (∃ lines, t.declared = "\x7b\n" ++ String.intercalate "\n" lines ++ "\n\x7d" ∧
    lines.map (fun line => (Lexeme.ofText line).takeWhile (· != .mark ':')) =
      names.map fun n => TypeSyntax.keyLexeme n.1 :: if n.2 then [] else [.mark '?']) ∧
  ∃ fields, Expression.read? (Lexeme.ofText (t.validator deferred)) =
      some (library "object" [.record fields]) ∧
    fields.map (fun f => (f.1, isOptional f.2)) = names.map fun n => (n.1.toList, !n.2)

theorem MarksRequired.unique {deferred : List String} {t : TypeExpr} {ns ms : List (String × Bool)}
    (hns : MarksRequired deferred t ns) (hms : MarksRequired deferred t ms) : ns = ms := by
  obtain ⟨_, fields, hread, hns⟩ := hns
  obtain ⟨_, fields', hread', hms⟩ := hms
  rw [hread] at hread'
  cases hread'
  refine List.map_injective_iff.mpr ?_ (hns.symm.trans hms)
  rintro ⟨n, a⟩ ⟨m, b⟩ h
  rw [Prod.mk.injEq, String.toList_inj, Bool.not_inj_iff] at h
  exact Prod.ext h.1 h.2

theorem marksRequired_object (deferred : List String) {i : Info} {ps : List (String × TypeExpr)}
    {required : List String} (h : (object i ps required).HasTypeNames) :
    MarksRequired deferred (object i ps required)
      (ps.map fun p => (p.1, required.contains p.1)) := by
  constructor
  · refine ⟨_, rfl, ?_⟩
    rw [declaredProperties_eq_map, List.map_map, List.map_map]
    exact List.map_congr_left fun p _ => takeWhile_propertyText ..
  · refine ⟨_, (reads_validator deferred h).read?_eq, ?_⟩
    rw [propertyExpressions_eq_map, List.map_map, List.map_map]
    refine List.map_congr_left fun p _ => ?_
    rw [Function.comp_apply, isOptional_propertyExpression _ _ (isOptional_expression deferred p.2)]
    rfl

end TypeExpr

/-! ## Required names of a schema -/

namespace Schema

def requiredItems (s : Document) : List Document := (s.field "required").items?.getD []

def requiresText (s : Document) (key : Scalar) : Bool :=
  (requiredItems s).any fun d => d.text? == some key.display

/-- The list of required names has a key itself, or what equals it. -/
def requiresKey (s : Document) (key : Scalar) : Bool :=
  (requiredItems s).any fun d =>
    match d.value with
    | .scalar k => k.sameKey key
    | _ => false

theorem requiresText_text (s : Document) (name : String) :
    requiresText s (.text name) = requiresKey s (.text name) := by
  unfold requiresText requiresKey
  refine congrArg _ (funext fun d => ?_)
  rw [Document.text?]
  cases d.value with
  | scalar k => exact (Scalar.sameKey_text k name).symm
  | _ => rfl

theorem contains_filterMap_text? (ds : List Document) (name : String) :
    (ds.filterMap Document.text?).contains name = ds.any fun d => d.text? == some name := by
  rw [Bool.eq_iff_iff, List.contains_iff_mem, List.mem_filterMap, List.any_eq_true]
  exact exists_congr fun d => and_congr_right fun _ => beq_iff_eq.symm

/-- A call that opens an object, whose keys have different texts. -/
structure Call.OpensObject (c : Call) (entries : List (Scalar × Document)) : Prop where
  opens : c.Opens
  kind : c.schema.fieldText? "type" = some "object"
  single : ¬ IsCombined c.schema
  properties : (c.schema.field "properties").entries? = some entries
  distinct : (entries.map fun e => e.1.display).Nodup

section
variable {c : Call} {entries : List (Scalar × Document)} (hobject : c.OpensObject entries)
include hobject

theorem layer_object : layer c.schema =
    .object (info c.schema) entries ((requiredItems c.schema).filterMap Document.text?) := by
  have hlists : ∀ key ∈ ["enum", "anyOf", "oneOf", "allOf", "type"],
      (c.schema.field key).items? = none := by
    intro key hkey
    by_contra hne
    exact hobject.single (.inl ⟨key, hkey, Option.isSome_iff_ne_none.mpr hne⟩)
  have hkind : (c.schema.field "type").text? = some "object" := hobject.kind
  unfold layer
  rw [hlists "enum" (by simp), hlists "anyOf" (by simp), hlists "oneOf" (by simp),
    hlists "allOf" (by simp), hlists "type" (by simp), hkind]
  dsimp only
  rw [Option.orElse_eq_orElse, Option.orElse_eq_or, Option.or_none]
  dsimp only
  rw [hobject.properties]
  rfl

theorem exists_object_of_run {t : TypeExpr} (h : c.run.result = .ok t) :
    ∃ i ps required, t = .object i ps required ∧
      ps.map (fun p => (p.1, required.contains p.1)) =
        entries.map fun e => (e.1.display, requiresText c.schema e.1) := by
  rw [Call.run_opens hobject.opens, layer_object hobject] at h
  cases Layer.build_eq_ok.mp h with
  | @object _ _ ps _ hps =>
    have hnames : entries.map (fun e => e.1.display) = ps.map (·.1) :=
      map_congr_forall₂ (hps.imp fun e p hp => (Scalar.eq_display_of_written hp.1).symm)
    have htable : Table.ofList ps = ps := Table.ofList_of_nodup (hnames ▸ hobject.distinct)
    have hflag : ∀ p ∈ ps, (((requiredItems c.schema).filterMap Document.text?).filter
        (Table.has ps)).contains p.1 = (requiredItems c.schema).any fun d => d.text? == some p.1 := by
      intro p hp
      have hhas : Table.has ps p.1 = true := List.any_eq_true.mpr ⟨p, hp, beq_self_eq_true _⟩
      rw [← contains_filterMap_text?, Bool.eq_iff_iff, List.contains_iff_mem, List.contains_iff_mem,
        List.mem_filter]
      exact and_iff_left hhas
    refine ⟨_, _, _, rfl, ?_⟩
    rw [htable, List.map_congr_left fun p hp => congrArg (p.1, ·) (hflag p hp)]
    refine (map_congr_forall₂ (hps.imp fun e p hp => ?_)).symm
    rw [requiresText, ← Scalar.eq_display_of_written hp.1]

/-- An object that is opened has the properties of its schema, and both its texts say of just those that
they may not be left out whose key has its text in the list of required names. What else than texts the list
has counts for none. -/
theorem marksRequired_run {t : TypeExpr} (h : c.run.result = .ok t) (deferred : List String) :
    t.MarksRequired deferred (entries.map fun e => (e.1.display, requiresText c.schema e.1)) := by
  obtain ⟨i, ps, required, rfl, hps⟩ := exists_object_of_run hobject h
  rw [← hps]
  exact TypeExpr.marksRequired_object deferred (hasTypeNames_typeAt h)

end

/-! ### Keys that are no texts -/

def numberedSchema : Document :=
  .ofValue (.map [(.text "type", .scalar (.text "object")),
    (.text "properties", .map [(.int 404, .map [(.text "type", .scalar (.text "string"))]),
      (.int 200, .map []), (.bool true, .map []), (.date ⟨2024, 2, 29⟩, .map []),
      (.text "tag", .map []), (.text "name", .map [])]),
    (.text "required", .seq [.scalar (.text "404"), .scalar (.int 200), .scalar (.text "True"),
      .scalar (.text "2024-02-29"), .scalar (.text "name"), .scalar (.text "ghost")])])

def numberedCall : Call := ⟨0, [], numberedSchema⟩

def numberedEntries : List (Scalar × Document) := (numberedSchema.field "properties").entries?.getD []

theorem opensObject_numbered : numberedCall.OpensObject numberedEntries where
  opens := ⟨rfl, rfl, by decide⟩
  kind := by decide +kernel
  single := by decide +kernel
  properties := rfl
  distinct := by decide +kernel

theorem exists_run_numbered : ∃ t, numberedCall.run.result = .ok t :=
  Run.exists_of_isOk (by decide +kernel)

theorem marksRequired_numbered : numberedCall.OpensObject numberedEntries ∧
    ∃ t, numberedCall.run.result = .ok t ∧ t.MarksRequired ["Pet"] [("404", true), ("200", false),
      ("True", true), ("2024-02-29", true), ("tag", false), ("name", true)] := by
  obtain ⟨t, h⟩ := exists_run_numbered
  have hflags : (numberedEntries.map fun e => (e.1.display, requiresText numberedSchema e.1)) =
      [("404", true), ("200", false), ("True", true), ("2024-02-29", true), ("tag", false),
        ("name", true)] := by decide +kernel
  exact ⟨opensObject_numbered, t, h, hflags ▸ marksRequired_run opensObject_numbered h ["Pet"]⟩

/-- It is not the key itself that makes a property required by standing in the list: the key `404` stands
there as a text only, and the key `200` not as a text. -/
theorem not_marksRequired_requiresKey : ¬ ∀ (c : Call) (entries : List (Scalar × Document))
    (t : TypeExpr), c.OpensObject entries → c.run.result = .ok t → ∀ deferred,
      t.MarksRequired deferred (entries.map fun e => (e.1.display, requiresKey c.schema e.1)) := by
  intro hclaim
  obtain ⟨t, h⟩ := exists_run_numbered
  obtain ⟨i, ps, required, rfl, hps⟩ := exists_object_of_run opensObject_numbered h
  have hmarks := hclaim numberedCall numberedEntries _ opensObject_numbered h []
  have hflags := hmarks.unique (TypeExpr.marksRequired_object [] (hasTypeNames_typeAt h))
  rw [hps] at hflags
  revert hflags
  decide +kernel

end Schema

end ApiTypes
