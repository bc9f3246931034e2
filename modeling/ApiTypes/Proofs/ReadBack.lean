import ApiTypes.Proofs.Declared
import ApiTypes.Proofs.FloatText
import ApiTypes.Proofs.NormalForm
import ApiTypes.Proofs.WrittenTypes

/-!
# Types that are read back

The text of a declared type determines the type up to its normal form: the syntax that the text is
read as is the one of a type with the same normal form. Types may be nested to any depth here: what an
interpreter's stack bounds is not a part of the text.
-/

namespace ApiTypes

/-! ## Types of syntax -/

namespace TypeSyntax

/-- The scalar that a number writes. A word that is no number of JSON stays a name. -/
def ofNumber (negative : Bool) (cs : List Char) : TypeExpr :=
  match Number.scalar? negative cs with
  | some s => .ofScalar s
  | none => .identifier .none (String.ofList (if negative then '-' :: cs else cs))

def ofPath (path : List (List Char)) : TypeExpr :=
  .identifier .none (String.ofList (['.'].intercalate path))

mutual

def toType : TypeSyntax → TypeExpr
  | .name path => ofPath path
  | .text cs => .ofScalar (.text (String.ofList cs))
  | .number cs => ofNumber false cs
  | .minus cs => ofNumber true cs
  | .array element => .array .none element.toType
  | .generic path params => .generic .none (ofPath path) (toTypes params)
  | .choice alternatives => .union .none (alternativeTypes alternatives)
  | .object fields =>
    .object .none (propertyTypes fields)
      ((fields.filter fun f => !f.2.1).map fun f => String.ofList f.1)
  | .openObject => .identifier .none TypeExpr.openMap

def toTypes : List TypeSyntax → List TypeExpr
  | [] => []
  | t :: ts => t.toType :: toTypes ts

def alternativeTypes : List (List TypeSyntax) → List TypeExpr
  | [] => []
  | operands :: alts => .intersection .none (toTypes operands) :: alternativeTypes alts

def propertyTypes : List Field → List (String × TypeExpr)
  | [] => []
  | (key, _, t) :: fields => (String.ofList key, t.toType) :: propertyTypes fields

end

theorem toTypes_eq_map (ts : List TypeSyntax) : toTypes ts = ts.map toType := by
  induction ts with
  | nil => rfl
  | cons t ts ih => simp [toTypes, ih]

theorem alternativeTypes_eq_map (alts : List (List TypeSyntax)) :
    alternativeTypes alts = alts.map fun operands => .intersection .none (operands.map toType) := by
  induction alts with
  | nil => rfl
  | cons operands alts ih => simp [alternativeTypes, toTypes_eq_map, ih]

/-! ## Normal forms of syntax -/

open TypeExpr (Operator)

def normal (t : TypeSyntax) : TypeExpr := t.toType.normal

def normalOperands (operands : List TypeSyntax) : TypeExpr :=
  Operator.intersection.merge (operands.map normal)

def normalChoice (alts : List (List TypeSyntax)) : TypeExpr :=
  Operator.union.merge (alts.map normalOperands)

theorem isTight_normal (t : TypeSyntax) : t.normal.IsTight := TypeExpr.isTight_normal _

theorem isTight_normals (operands : List TypeSyntax) : ∀ t ∈ operands.map normal, t.IsTight :=
  List.forall_mem_map.mpr fun t _ => t.isTight_normal

theorem isTight_normalOperands (operands : List TypeSyntax) : (normalOperands operands).IsTight :=
  Operator.isTight_merge (isTight_normals operands)

theorem normal_choice (alts : List (List TypeSyntax)) :
    (TypeSyntax.choice alts).normal = normalChoice alts := by
  rw [normal, toType, alternativeTypes_eq_map, TypeExpr.normal, TypeExpr.normalMembers_eq_map,
    List.map_map, normalChoice]
  congr 1
  refine List.map_congr_left fun operands _ => ?_
  rw [Function.comp_apply, TypeExpr.normal, TypeExpr.normalMembers_eq_map, List.map_map]
  rfl

theorem normalOperands_singleton (t : TypeSyntax) : normalOperands [t] = t.normal :=
  Operator.merge_singleton t.isTight_normal

theorem normalChoice_singleton (operands : List TypeSyntax) :
    normalChoice [operands] = normalOperands operands :=
  Operator.merge_singleton (isTight_normalOperands operands)

theorem normalChoice_operand (t : TypeSyntax) : normalChoice [[t]] = t.normal := by
  rw [normalChoice_singleton, normalOperands_singleton]

theorem normalChoice_flatMap {α : Type} {as : List α} {f : α → List (List TypeSyntax)}
    (h : ∀ a ∈ as, f a ≠ []) :
    normalChoice (as.flatMap f) = Operator.union.merge (as.map fun a => normalChoice (f a)) := by
  rw [normalChoice, List.map_flatMap]
  exact Operator.merge_flatMap fun a ha => ⟨by simpa using h a ha,
    List.forall_mem_map.mpr fun operands _ => isTight_normalOperands operands⟩

theorem normalOperands_flatMap {α : Type} {as : List α} {f : α → List TypeSyntax}
    (h : ∀ a ∈ as, f a ≠ []) :
    normalOperands (as.flatMap f) =
      Operator.intersection.merge (as.map fun a => normalOperands (f a)) := by
  rw [normalOperands, List.map_flatMap]
  exact Operator.merge_flatMap fun a ha => ⟨by simpa using h a ha, isTight_normals (f a)⟩

end TypeSyntax

/-! ## Simple types -/

inductive Scalar.IsSimple : Scalar → Prop
  | null : IsSimple .null
  | bool (b) : IsSimple (.bool b)
  | text (s) : IsSimple (.text s)
  | int (n) : IsSimple (.int n)
  | float {x} : x.isFinite = true → IsSimple (.float x)

theorem Scalar.IsSimple.isLiteral {s : Scalar} (h : s.IsSimple) : s.IsLiteral := by
  cases h with
  | null => exact .null
  | bool b => exact .bool b
  | text s => exact .text s
  | int n => exact .int n
  | float hx => exact .float (Decimal.isInf_of_isFinite hx)

namespace TypeExpr

open TypeSyntax (normalChoice normalOperands pathOf)

/-- Words with points between them, the first of which does not start with a digit. -/
def IsDotted (name : String) : Prop :=
  ∃ c cs, name.toList = c :: cs ∧ (Lexeme.isNameChar c && !c.isDigit) = true ∧
    ∀ d ∈ cs, (Lexeme.isNameChar d || d == '.') = true

def IsSimple : TypeExpr → Prop
  | identifier _ name => IsDotted name
  | literal _ value => ∃ s, value.here = .scalar s ∧ s.IsSimple
  | generic _ base _ => ∃ i name, base = identifier i name ∧ IsDotted name
  | object .. => False
  | _ => True

theorem isPath_of_isDotted {name : String} (h : IsDotted name) :
    TypeSyntax.IsPath (pathOf name) := by
  obtain ⟨c, cs, hname, hfirst, hcs⟩ := h
  obtain ⟨hc, hdigit⟩ := (Bool.and_eq_true _ _).mp hfirst
  have hpoint : (fun d => d == '.') c = false := by
    rw [beq_eq_false_iff_ne]
    rintro rfl
    exact Bool.false_ne_true hc
  have hpieces : ∀ l ∈ Text.pieces (· == '.') cs, ∀ d ∈ l, Lexeme.isNameChar d = true := by
    intro l hl d hd
    obtain ⟨hmem, hne⟩ := Text.mem_of_mem_pieces hl d hd
    exact ((Bool.or_eq_true _ _).mp (hcs d hmem)).resolve_right (by rw [hne]; exact Bool.false_ne_true)
  obtain ⟨l, ls, hls⟩ := List.exists_cons_of_ne_nil (Text.pieces_ne_nil (· == '.') cs)
  rw [hls] at hpieces
  refine ⟨c :: l, ls, ?_, ?_, fun d hd => hpieces d (List.mem_cons_of_mem _ hd)⟩
  · rw [pathOf, hname]
    exact Text.pieces_cons (p := fun d => d == '.') hpoint hls
  · rw [Lexeme.isName, hfirst, Bool.true_and, List.all_eq_true]
    exact hpieces l List.mem_cons_self

theorem IsSimple.isReadable {t : TypeExpr} (h : t.IsSimple) : t.IsReadable := by
  cases t with
  | identifier i name => exact .inr (isPath_of_isDotted h)
  | literal i value =>
    obtain ⟨s, hs, hsimple⟩ := h
    exact ⟨s, hs, hsimple.isLiteral⟩
  | generic i base ts =>
    obtain ⟨j, name, rfl, hname⟩ := h
    exact ⟨j, name, rfl, isPath_of_isDotted hname⟩
  | _ => trivial

/-! ## Normal forms of alternatives -/

theorem ofPath_pathOf (name : String) : TypeSyntax.ofPath (pathOf name) = identifier .none name := by
  rw [TypeSyntax.ofPath, pathOf, intercalate_pieces, String.ofList_toList]

theorem toType_identifierSyntax (name : String) :
    (identifierSyntax name).toType = identifier .none name := by
  unfold identifierSyntax
  split
  · rename_i hopen
    rw [eq_of_beq hopen, TypeSyntax.toType]
  · rw [TypeSyntax.toType, ofPath_pathOf]

theorem toType_ofSigned {s : Scalar} (h : Number.IsReadBack s) :
    (TypeSyntax.ofSigned s.json.toList).toType = ofScalar s := by
  obtain ⟨negative, cs, hform, htext, hread⟩ := h
  rw [htext]
  cases negative with
  | true =>
    show TypeSyntax.ofNumber true cs = _
    rw [TypeSyntax.ofNumber, hread]
  | false =>
    show (TypeSyntax.ofSigned cs).toType = _
    rw [TypeSyntax.ofSigned_number hform, TypeSyntax.toType, TypeSyntax.ofNumber, hread]

theorem normal_literalSyntax {s : Scalar} (h : s.IsSimple) : s.literalSyntax.normal = ofScalar s := by
  have hnumber : Number.IsReadBack s →
      (TypeSyntax.ofSigned s.json.toList).normal = ofScalar s := by
    intro hread
    rw [TypeSyntax.normal, toType_ofSigned hread]
    rfl
  cases h with
  | null => rfl
  | bool b => cases b <;> rfl
  | text s =>
    rw [Scalar.literalSyntax, TypeSyntax.normal, TypeSyntax.toType, String.ofList_toList]
    rfl
  | int n => exact hnumber (Number.isReadBack_int n)
  | float hx => exact hnumber (Number.isReadBack_float hx)

theorem normal_elementSyntax {t : TypeExpr} (h : normalChoice t.alternatives = t.normal) :
    (elementSyntax t t.alternatives).normal = t.normal := by
  unfold elementSyntax
  split
  · rw [TypeSyntax.normal_choice, h]
  · rw [TypeSyntax.normal_choice, h]
  · split
    · rename_i operand heq
      rw [← h, heq, TypeSyntax.normalChoice_operand]
    · rw [TypeSyntax.normal_choice, h]

theorem operandsSyntax_ne_nil (t : TypeExpr) : operandsSyntax t t.alternatives ≠ [] := by
  cases t with
  | intersection i ts =>
    rw [alternatives]
    split <;> simp_all [operandsSyntax]
  | _ => simp [operandsSyntax, alternatives]

theorem normal_operandsSyntax {t : TypeExpr} (h : normalChoice t.alternatives = t.normal) :
    normalOperands (operandsSyntax t t.alternatives) = t.normal := by
  by_cases hu : ∃ i ts, t = union i ts
  · obtain ⟨i, ts, rfl⟩ := hu
    rw [operandsSyntax, TypeSyntax.normalOperands_singleton, TypeSyntax.normal_choice, h]
  · have hother : ∀ i ts, t ≠ union i ts := fun i ts ht => hu ⟨i, ts, ht⟩
    rw [operandsSyntax_eq_flatten hother, ← h, alternatives_eq_singleton hother,
      TypeSyntax.normalChoice_singleton, List.flatten_singleton]

theorem normal_union {ts : List TypeExpr} (i : Info)
    (h : ∀ t ∈ ts, normalChoice t.alternatives = t.normal) :
    normalChoice (union i ts).alternatives = (union i ts).normal := by
  have hmembers : normalChoice (ts.flatMap alternatives) = (union i ts).normal := by
    rw [TypeSyntax.normalChoice_flatMap fun t _ => t.alternatives_ne_nil, normal,
      normalMembers_eq_map, List.map_congr_left h]
  rw [alternatives, unionAlternatives_eq_flatMap]
  split
  · rename_i hnil
    rw [← hmembers, hnil]
    rfl
  · exact hmembers

theorem normal_intersection {ts : List TypeExpr} (i : Info)
    (h : ∀ t ∈ ts, normalChoice t.alternatives = t.normal) :
    normalChoice (intersection i ts).alternatives = (intersection i ts).normal := by
  have hmembers : normalOperands (ts.flatMap fun t => operandsSyntax t t.alternatives) =
      (intersection i ts).normal := by
    rw [TypeSyntax.normalOperands_flatMap fun t _ => operandsSyntax_ne_nil t, normal,
      normalMembers_eq_map, List.map_congr_left fun t ht => normal_operandsSyntax (h t ht)]
  rw [alternatives, intersectionOperands_eq_flatMap]
  split
  · rename_i hnil
    rw [← hmembers, hnil]
    rfl
  · rw [TypeSyntax.normalChoice_singleton, hmembers]

theorem normal_alternatives {t : TypeExpr} (h : t.Every IsSimple) :
    normalChoice t.alternatives = t.normal := by
  induction t with
  | identifier i name =>
    rw [alternatives, TypeSyntax.normalChoice_operand, TypeSyntax.normal, toType_identifierSyntax]
    rfl
  | literal i value =>
    obtain ⟨s, hs, hsimple⟩ := h
    rw [alternatives, TypeSyntax.normalChoice_operand, literalSyntax, normal, hs]
    exact normal_literalSyntax hsimple
  | array i t ih =>
    have helement := normal_elementSyntax (ih h.2)
    rw [TypeSyntax.normal] at helement
    rw [alternatives, TypeSyntax.normalChoice_operand, TypeSyntax.normal, TypeSyntax.toType, normal,
      helement, normal]
  | union i ts ih => exact normal_union i fun t ht => ih t ht (everyMember_iff.mp h.2 t ht)
  | intersection i ts ih =>
    exact normal_intersection i fun t ht => ih t ht (everyMember_iff.mp h.2 t ht)
  | generic i base ts _ ih =>
    obtain ⟨⟨j, name, rfl, -⟩, -, hts⟩ := h
    -- a parameter is read as a choice, also where it has one alternative
    have hparams : ∀ t ∈ ts, (TypeSyntax.choice t.alternatives).normal = t.normal := by
      intro t ht
      rw [TypeSyntax.normal_choice, ih t ht (everyMember_iff.mp hts t ht)]
    rw [alternatives, TypeSyntax.normalChoice_operand, TypeSyntax.normal, TypeSyntax.toType, normal,
      normal, basePath, ofPath_pathOf, paramSyntaxes_eq_map, TypeSyntax.toTypes_eq_map,
      normalMembers_eq_map, normalMembers_eq_map, List.map_map, List.map_map,
      ← List.map_congr_left hparams]
    rfl
  | object i ps required ih => exact h.1.elim

/-! ## Reading back -/

theorem read_declared {t : TypeExpr} (h : t.Every IsSimple) :
    (TypeSyntax.read? (Lexeme.ofText t.declared)).map TypeSyntax.normal = some t.normal := by
  rw [Lexeme.ofText, (reads_declared (h.imp fun _ => IsSimple.isReadable)).read?_eq t.alternatives_ne_nil,
    Option.map_some, TypeSyntax.normal_choice, normal_alternatives h]

theorem IsSimple.hasScalar {t : TypeExpr} (h : t.IsSimple) : t.HasScalar := by
  cases t with
  | literal i value =>
    obtain ⟨s, hs, -⟩ := h
    exact ⟨s, hs⟩
  | _ => trivial

theorem IsSimple.hasWrittenSamples {t : TypeExpr} (h : t.IsSimple) : t.HasWrittenSamples := by
  cases t with
  | object i ps required => exact h.elim
  | _ => trivial

/-- A type without too long integers is written, its normal form is read from the text, and types
with one text have one normal form. -/
theorem reads_back {t : TypeExpr} (h : t.Every IsSimple) :
    (¬ t.Every IsShort → t.declaredFault? = some .tooLong) ∧
    (t.Every IsShort → t.declaredFault? = none) ∧
    (TypeSyntax.read? (Lexeme.ofText t.declared)).map TypeSyntax.normal = some t.normal ∧
    ∀ u : TypeExpr, u.Every IsSimple → u.declared = t.declared → u.normal = t.normal := by
  obtain ⟨hshort, hlong⟩ := tooLongUnless_declared (h.imp fun _ => IsSimple.hasScalar)
    (h.imp fun _ => IsSimple.hasWrittenSamples)
  refine ⟨hlong, hshort, read_declared h, fun u hu heq => ?_⟩
  have hread := read_declared hu
  rw [heq, read_declared h] at hread
  exact (Option.some.inj hread).symm

def tangled : TypeExpr :=
  .array .none (.union .none
    [.intersection .none
      [.union .none [.identifier .none "Paths.List_1.$200", .identifier .none "null"],
        .generic .none (.identifier .none "Page") [ofScalar (.text "a | (b & \"c\")[]"), .union .none []]],
      .union .none [.intersection .none [], ofScalar (.int (-5))],
      .intersection .none [.union .none [.array .none (ofScalar (.float (-2.5)))]]])

theorem reads_back_tangled :
    tangled.Every IsSimple ∧ tangled.declaredFault? = none ∧
    (TypeSyntax.read? (Lexeme.ofText tangled.declared)).map TypeSyntax.normal =
      some (.array .none (.union .none
        [.intersection .none
          [.union .none [.identifier .none "Paths.List_1.$200", ofScalar .null],
            .generic .none (.identifier .none "Page")
              [ofScalar (.text "a | (b & \"c\")[]"), .identifier .none "never"]],
          .identifier .none "unknown", ofScalar (.int (-5)),
          .array .none (ofScalar (.float (-2.5)))])) := by
  have hpath : IsDotted "Paths.List_1.$200" :=
    ⟨'P', "aths.List_1.$200".toList, rfl, rfl, List.all_eq_true.mp rfl⟩
  have hnull : IsDotted "null" := ⟨'n', "ull".toList, rfl, rfl, List.all_eq_true.mp rfl⟩
  have hpage : IsDotted "Page" := ⟨'P', "age".toList, rfl, rfl, List.all_eq_true.mp rfl⟩
  have hscalar : ∀ {s : Scalar}, s.IsSimple → (ofScalar s).Every IsSimple := fun h => ⟨_, rfl, h⟩
  have hfinite : (-2.5 : Float).isFinite = true := by decide
  have hsimple : tangled.Every IsSimple := by
    simp [tangled, Every, EveryMember, hpath, hnull, hpage, hscalar, IsSimple, Scalar.IsSimple.text,
      Scalar.IsSimple.int, Scalar.IsSimple.float hfinite]
  have hfive : isTooLong (-5) = false := by decide +kernel
  have hshort : tangled.Every IsShort := by
    simp [tangled, Every, EveryMember, IsShort, ofScalar, Document.ofValue, hfive]
  obtain ⟨-, hwritten, hread, -⟩ := reads_back hsimple
  exact ⟨hsimple, hwritten hshort, hread⟩

theorem not_written_long :
    (ofScalar (.int (Nat.pow 10 maxDigits))).Every IsSimple ∧
      (ofScalar (.int (Nat.pow 10 maxDigits))).declaredFault? = some .tooLong := by
  refine ⟨⟨_, rfl, .int _⟩, (tooLongUnless_jsonFault? (i := .none) rfl).2 fun hshort => ?_⟩
  have hlong : isTooLong (Nat.pow 10 maxDigits) = true :=
    decide_eq_true (Nat.le_of_eq (Int.natAbs_natCast _).symm)
  rw [hshort _ rfl] at hlong
  cases hlong

end TypeExpr

end ApiTypes
