import ApiTypes.Proofs.Declared

/-!
# Values of types

The data that a type accepts, given what each component accepts. `TypeSyntax.Accepts` is the meaning of
a type as it is written, and `TypeExpr.Accepts` follows the expression that it is written for.
-/

namespace ApiTypes

inductive Datum
  | undefined
  | null
  | bool (b : Bool)
  | number (q : Rat)
  | text (cs : List Char)
  | list (items : List Datum)
  | record (fields : List (List Char × Datum))

/-- What stands under a key; a key that is not there reads as undefined. -/
def Datum.get (fields : List (List Char × Datum)) (key : List Char) : Datum :=
  ((fields.find? fun f => f.1 == key).map (·.2)).getD .undefined

def Decimal.toRat (d : Decimal) : Rat :=
  if 0 ≤ d.exponent then d.digits * 10 ^ d.exponent.toNat else d.digits / 10 ^ (-d.exponent).toNat

def Number.value? (cs : List Char) : Option Rat := (Number.read? cs).map Decimal.toRat

namespace TypeSyntax

/-! ## Meaning of syntax -/

def HasType (word : String) (d : Datum) : Prop :=
  match word with
  | "string" => ∃ cs, d = .text cs
  | "number" => ∃ q, d = .number q
  | "boolean" => ∃ b, d = .bool b
  | "true" => d = .bool true
  | "false" => d = .bool false
  | "null" => d = .null
  | "undefined" => d = .undefined
  | "any" => True
  | "unknown" => True
  | _ => False

section
variable (ρ : List Char → Datum → Prop)

def Named (path : List (List Char)) (d : Datum) : Prop :=
  match path with
  | [word] => HasType (String.ofList word) d
  | [a, b, c] => a = "Components".toList ∧ b = "Schemas".toList ∧ ρ c d
  | _ => False

mutual

/-- Whether a written type accepts a value. Nothing is known of the values of a generic. -/
def Accepts : TypeSyntax → Datum → Prop
  | .name path, d => Named ρ path d
  | .text cs, d => d = .text cs
  | .number cs, d => ∃ q, Number.value? cs = some q ∧ d = .number q
  | .minus cs, d => ∃ q, Number.value? cs = some q ∧ d = .number (-q)
  | .array t, d => ∃ items, d = .list items ∧ ∀ i ∈ items, t.Accepts i
  | .generic _ _, _ => False
  | .choice alts, d => AcceptsOne alts d
  | .object fields, d => ∃ fs, d = .record fs ∧ AcceptsFields fields fs
  | .openObject, d => ∃ fs, d = .record fs

def AcceptsOne : List (List TypeSyntax) → Datum → Prop
  | [], _ => False
  | operands :: alts, d => AcceptsAll operands d ∨ AcceptsOne alts d

def AcceptsAll : List TypeSyntax → Datum → Prop
  | [], _ => True
  | t :: ts, d => t.Accepts d ∧ AcceptsAll ts d

def AcceptsFields : List Field → List (List Char × Datum) → Prop
  | [], _ => True
  | (key, optional, t) :: fields, fs =>
    (optional = true ∧ Datum.get fs key = .undefined ∨ t.Accepts (Datum.get fs key)) ∧
      AcceptsFields fields fs

end

variable {ρ} {d : Datum}

theorem named_word {word : String} : Named ρ [word.toList] d ↔ HasType word d := by
  rw [Named, String.ofList_toList]

theorem acceptsOne_append {alts alts' : List (List TypeSyntax)} :
    AcceptsOne ρ (alts ++ alts') d ↔ AcceptsOne ρ alts d ∨ AcceptsOne ρ alts' d := by
  induction alts with
  | nil => simp [AcceptsOne]
  | cons operands alts ih => simp [AcceptsOne, ih, or_assoc]

theorem acceptsAll_append {ts us : List TypeSyntax} :
    AcceptsAll ρ (ts ++ us) d ↔ AcceptsAll ρ ts d ∧ AcceptsAll ρ us d := by
  induction ts with
  | nil => simp [AcceptsAll]
  | cons t ts ih => simp [AcceptsAll, ih, and_assoc]

theorem acceptsOne_single {t : TypeSyntax} : AcceptsOne ρ [[t]] d ↔ t.Accepts ρ d := by
  simp [AcceptsOne, AcceptsAll]

theorem acceptsFields_iff {fields : List Field} {fs : List (List Char × Datum)} :
    AcceptsFields ρ fields fs ↔ ∀ f ∈ fields,
      f.2.1 = true ∧ Datum.get fs f.1 = .undefined ∨ f.2.2.Accepts ρ (Datum.get fs f.1) := by
  induction fields with
  | nil => simp [AcceptsFields]
  | cons f fields ih => simp [AcceptsFields, ih]

end

end TypeSyntax

/-! ## Meaning of expressions -/

namespace TypeExpr

open TypeSyntax (AcceptsOne AcceptsAll Named)

section
variable (ρ : List Char → Datum → Prop)

mutual

def Accepts : TypeExpr → Datum → Prop
  | identifier _ name, d => (identifierSyntax name).Accepts ρ d
  | literal _ value, d => (literalSyntax value).Accepts ρ d
  | array _ t, d => ∃ items, d = .list items ∧ ∀ i ∈ items, t.Accepts i
  | union _ ts, d => AcceptsSome ts d
  | intersection _ ts, d => AcceptsEvery ts d
  | generic _ _ _, _ => False
  | object _ ps required, d => ∃ fs, d = .record fs ∧ AcceptsProperties required ps fs

def AcceptsSome : List TypeExpr → Datum → Prop
  | [], _ => False
  | t :: ts, d => t.Accepts d ∨ AcceptsSome ts d

def AcceptsEvery : List TypeExpr → Datum → Prop
  | [], _ => True
  | t :: ts, d => t.Accepts d ∧ AcceptsEvery ts d

def AcceptsProperties (required : List String) :
    List (String × TypeExpr) → List (List Char × Datum) → Prop
  | [], _ => True
  | (name, t) :: ps, fs =>
    (required.contains name = false ∧ Datum.get fs name.toList = .undefined ∨
        t.lacksNull = true ∧ Datum.get fs name.toList = .null ∨
        t.Accepts (Datum.get fs name.toList)) ∧
      AcceptsProperties required ps fs

end

variable {ρ} {d : Datum}

theorem acceptsSome_iff {ts : List TypeExpr} :
    AcceptsSome ρ ts d ↔ ∃ t ∈ ts, t.Accepts ρ d := by
  induction ts with
  | nil => simp [AcceptsSome]
  | cons t ts ih => simp [AcceptsSome, ih]

theorem acceptsEvery_iff {ts : List TypeExpr} :
    AcceptsEvery ρ ts d ↔ ∀ t ∈ ts, t.Accepts ρ d := by
  induction ts with
  | nil => simp [AcceptsEvery]
  | cons t ts ih => simp [AcceptsEvery, ih]

/-- A property accepts what its type accepts, null where it is added, and undefined where the property
may be left out. -/
def AcceptsProperty (ρ : List Char → Datum → Prop) (required : List String)
    (p : String × TypeExpr) (d : Datum) : Prop :=
  required.contains p.1 = false ∧ d = .undefined ∨ p.2.lacksNull = true ∧ d = .null ∨
    p.2.Accepts ρ d

theorem acceptsProperties_iff {required : List String} {ps : List (String × TypeExpr)}
    {fs : List (List Char × Datum)} :
    AcceptsProperties ρ required ps fs ↔
      ∀ p ∈ ps, AcceptsProperty ρ required p (Datum.get fs p.1.toList) := by
  induction ps with
  | nil => simp [AcceptsProperties]
  | cons p ps ih => simp [AcceptsProperties, AcceptsProperty, ih]

/-! ## Agreement -/

theorem acceptsOne_union {ts : List TypeExpr} (i : Info)
    (h : ∀ t ∈ ts, (AcceptsOne ρ t.alternatives d ↔ t.Accepts ρ d)) :
    AcceptsOne ρ (union i ts).alternatives d ↔ (union i ts).Accepts ρ d := by
  have hall : AcceptsOne ρ (ts.flatMap alternatives) d ↔ ∃ t ∈ ts, t.Accepts ρ d := by
    induction ts with
    | nil => simp [AcceptsOne]
    | cons t ts ih =>
      rw [List.flatMap_cons, TypeSyntax.acceptsOne_append, h t List.mem_cons_self,
        ih fun u hu => h u (List.mem_cons_of_mem _ hu)]
      simp
  rw [alternatives, Accepts, acceptsSome_iff, ← hall, unionAlternatives_eq_flatMap]
  split
  · rename_i hnil
    rw [hnil, TypeSyntax.acceptsOne_single]
    exact TypeSyntax.named_word
  · exact Iff.rfl

theorem acceptsAll_operands {t : TypeExpr} :
    AcceptsAll ρ (operandsSyntax t t.alternatives) d ↔ AcceptsOne ρ t.alternatives d := by
  by_cases hu : ∃ i ts, t = union i ts
  · obtain ⟨i, ts, rfl⟩ := hu
    simp [operandsSyntax, AcceptsAll, TypeSyntax.Accepts]
  · have hother : ∀ i ts, t ≠ union i ts := fun i ts ht => hu ⟨i, ts, ht⟩
    rw [operandsSyntax_eq_flatten hother, alternatives_eq_singleton hother]
    simp [AcceptsOne]

theorem acceptsOne_intersection {ts : List TypeExpr} (i : Info)
    (h : ∀ t ∈ ts, (AcceptsOne ρ t.alternatives d ↔ t.Accepts ρ d)) :
    AcceptsOne ρ (intersection i ts).alternatives d ↔ (intersection i ts).Accepts ρ d := by
  have hall : AcceptsAll ρ (ts.flatMap fun t => operandsSyntax t t.alternatives) d ↔
      ∀ t ∈ ts, t.Accepts ρ d := by
    induction ts with
    | nil => simp [AcceptsAll]
    | cons t ts ih =>
      rw [List.flatMap_cons, TypeSyntax.acceptsAll_append, acceptsAll_operands,
        h t List.mem_cons_self, ih fun u hu => h u (List.mem_cons_of_mem _ hu)]
      simp
  rw [alternatives, Accepts, acceptsEvery_iff, ← hall, intersectionOperands_eq_flatMap]
  split
  · rename_i hnil
    rw [hnil, TypeSyntax.acceptsOne_single]
    exact TypeSyntax.named_word
  · simp [AcceptsOne]

theorem accepts_element {t : TypeExpr} :
    (elementSyntax t t.alternatives).Accepts ρ d ↔ AcceptsOne ρ t.alternatives d := by
  unfold elementSyntax
  split
  · exact Iff.rfl
  · exact Iff.rfl
  · split
    · rename_i operand heq
      rw [heq, TypeSyntax.acceptsOne_single]
    · exact Iff.rfl

theorem accepts_nullable {t : TypeExpr} :
    (nullable t t.alternatives).Accepts ρ d ↔
      t.lacksNull = true ∧ d = .null ∨ AcceptsOne ρ t.alternatives d := by
  unfold nullable
  rw [TypeSyntax.Accepts]
  split
  · rename_i hnull
    rw [TypeSyntax.acceptsOne_append, TypeSyntax.acceptsOne_single, or_comm]
    have hd : (TypeSyntax.name ["null".toList]).Accepts ρ d ↔ d = .null := TypeSyntax.named_word
    rw [hd, and_iff_right hnull]
  · rename_i hnull
    simp [hnull]

theorem acceptsOne_alternatives (t : TypeExpr) (d : Datum) :
    AcceptsOne ρ t.alternatives d ↔ t.Accepts ρ d := by
  induction t generalizing d with
  | identifier i name => exact TypeSyntax.acceptsOne_single
  | literal i value => exact TypeSyntax.acceptsOne_single
  | array i t ih =>
    have helement : ∀ e, (elementSyntax t t.alternatives).Accepts ρ e ↔ t.Accepts ρ e :=
      fun e => accepts_element.trans (ih e)
    rw [alternatives, TypeSyntax.acceptsOne_single, TypeSyntax.Accepts, Accepts]
    simp only [helement]
  | union i ts ih => exact acceptsOne_union i fun t ht => ih t ht d
  | intersection i ts ih => exact acceptsOne_intersection i fun t ht => ih t ht d
  | generic i base ts _ _ => exact TypeSyntax.acceptsOne_single
  | object i ps required ih =>
    have hfields : ∀ fs, TypeSyntax.AcceptsFields ρ (fields required ps) fs ↔
        AcceptsProperties ρ required ps fs := by
      intro fs
      rw [TypeSyntax.acceptsFields_iff, acceptsProperties_iff, fields_eq_map, List.forall_mem_map]
      refine forall₂_congr fun p hp => ?_
      rw [accepts_nullable, ih p hp, AcceptsProperty]
      simp
    rw [alternatives, TypeSyntax.acceptsOne_single, TypeSyntax.Accepts, Accepts]
    simp only [hfields]

end

end TypeExpr

end ApiTypes
