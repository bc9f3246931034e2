import ApiTypes.TypeExpr.Declared
import ApiTypes.Proofs.TypeSyntax
import ApiTypes.Proofs.TypeTree

/-!
# Declared types as syntax

The text of a declared type is read as the alternatives that are built from the type. A union brings
the alternatives of its members, an intersection one alternative with the operands of its members.
-/

namespace ApiTypes

/-! ## Names -/

namespace TypeSyntax

def pathOf (name : String) : List (List Char) := Text.pieces (· == '.') name.toList

def IsPath (path : List (List Char)) : Prop :=
  ∃ c cs, path = c :: cs ∧ Lexeme.isName c = true ∧ ∀ d ∈ cs, ∀ e ∈ d, Lexeme.isNameChar e = true

theorem Reads.path {path : List (List Char)} (h : IsPath path) :
    Reads Lexeme.isNameChar (['.'].intercalate path) [[.name path]] := by
  obtain ⟨c, cs, rfl, hc, hcs⟩ := h
  have hall : ∀ (cs : List (List Char)) (ds : List Char) (path : List (List Char)),
      (∀ d ∈ cs, ∀ e ∈ d, Lexeme.isNameChar e = true) →
      Reads Lexeme.isNameChar ds [[.name path]] →
      Reads Lexeme.isNameChar (ds ++ cs.flatMap fun d => '.' :: d) [[.name (path ++ cs)]] := by
    intro cs
    induction cs with
    | nil => intro ds path _ h; simpa using h
    | cons d cs ih =>
      intro ds path hcs h
      have := ih _ _ (fun e he => hcs e (List.mem_cons_of_mem _ he))
        (h.member (hcs d List.mem_cons_self))
      simpa using this
  have htext : ∀ (cs : List (List Char)) (c : List Char),
      ['.'].intercalate (c :: cs) = c ++ cs.flatMap fun d => '.' :: d := by
    intro cs
    induction cs with
    | nil => simp
    | cons d cs ih =>
      intro c
      rw [List.intercalate_cons_cons, ih]
      simp
  rw [htext]
  exact hall cs c [c] hcs (.name hc)

end TypeSyntax

/-! ## Syntax -/

def TypeSyntax.ofSigned : List Char → TypeSyntax
  | '-' :: cs => .minus cs
  | cs => .number cs

theorem TypeSyntax.ofSigned_number {cs : List Char} (h : Number.Form cs) :
    ofSigned cs = .number cs := by
  have hhead := h.head
  unfold ofSigned
  split
  · exact absurd (show ('-').isDigit = true from hhead) (by decide)
  · rfl

inductive Scalar.IsLiteral : Scalar → Prop
  | null : IsLiteral .null
  | bool (b) : IsLiteral (.bool b)
  | int (n) : IsLiteral (.int n)
  | float {x} : x.isInf = false → IsLiteral (.float x)
  | text (s) : IsLiteral (.text s)

def Scalar.literalSyntax : Scalar → TypeSyntax
  | .text s => .text s.toList
  | .null => .name ["null".toList]
  | .bool b => .name [(if b then "true" else "false").toList]
  | s => TypeSyntax.ofSigned s.json.toList

namespace TypeExpr

open TypeSyntax (pathOf)

def identifierSyntax (name : String) : TypeSyntax :=
  if name == openMap then .openObject else .name (pathOf name)

def literalSyntax (value : Document) : TypeSyntax :=
  match value.here with
  | .scalar s => s.literalSyntax
  | _ => .name []

def elementSyntax (t : TypeExpr) (alts : List (List TypeSyntax)) : TypeSyntax :=
  match t with
  | union .. | intersection .. => .choice alts
  | _ =>
    match alts with
    | [[operand]] => operand
    | alts => .choice alts

def operandsSyntax (t : TypeExpr) (alts : List (List TypeSyntax)) : List TypeSyntax :=
  match t with
  | union .. => [.choice alts]
  | _ => alts.flatten

def basePath : TypeExpr → List (List Char)
  | identifier _ name => pathOf name
  | _ => []

def nullable (t : TypeExpr) (alts : List (List TypeSyntax)) : TypeSyntax :=
  .choice (if t.lacksNull then alts ++ [[.name ["null".toList]]] else alts)

mutual

/-- The alternatives that the text of a declared type is read as. -/
def alternatives : TypeExpr → List (List TypeSyntax)
  | identifier _ name => [[identifierSyntax name]]
  | literal _ value => [[literalSyntax value]]
  | array _ element => [[.array (elementSyntax element element.alternatives)]]
  | union _ members =>
    match unionAlternatives members with
    | [] => [[.name ["never".toList]]]
    | alts => alts
  | intersection _ members =>
    match intersectionOperands members with
    | [] => [[.name ["unknown".toList]]]
    | operands => [operands]
  | generic _ base params => [[.generic base.basePath (paramSyntaxes params)]]
  | object _ properties required => [[.object (fields required properties)]]

def unionAlternatives : List TypeExpr → List (List TypeSyntax)
  | [] => []
  | t :: ts => t.alternatives ++ unionAlternatives ts

def intersectionOperands : List TypeExpr → List TypeSyntax
  | [] => []
  | t :: ts => operandsSyntax t t.alternatives ++ intersectionOperands ts

def paramSyntaxes : List TypeExpr → List TypeSyntax
  | [] => []
  | t :: ts => .choice t.alternatives :: paramSyntaxes ts

def fields (required : List String) : List (String × TypeExpr) → List TypeSyntax.Field
  | [] => []
  | (name, t) :: rest =>
    (name.toList, !required.contains name, nullable t t.alternatives) :: fields required rest

end

theorem unionAlternatives_eq_flatMap (ts : List TypeExpr) :
    unionAlternatives ts = ts.flatMap alternatives := by
  induction ts with
  | nil => rfl
  | cons t ts ih => simp [unionAlternatives, ih]

theorem intersectionOperands_eq_flatMap (ts : List TypeExpr) :
    intersectionOperands ts = ts.flatMap fun t => operandsSyntax t t.alternatives := by
  induction ts with
  | nil => rfl
  | cons t ts ih => simp [intersectionOperands, ih]

theorem paramSyntaxes_eq_map (ts : List TypeExpr) :
    paramSyntaxes ts = ts.map fun t => .choice t.alternatives := by
  induction ts with
  | nil => rfl
  | cons t ts ih => simp [paramSyntaxes, ih]

theorem fields_eq_map (required : List String) (ps : List (String × TypeExpr)) :
    fields required ps = ps.map fun p =>
      (p.1.toList, !required.contains p.1, nullable p.2 p.2.alternatives) := by
  induction ps with
  | nil => rfl
  | cons p ps ih => simp [fields, ih]

theorem alternatives_ne_nil (t : TypeExpr) : t.alternatives ≠ [] := by
  cases t with
  | union i ts =>
    rw [alternatives]
    split
    · simp
    · assumption
  | intersection i ts =>
    rw [alternatives]
    split <;> simp
  | _ => simp [alternatives]

theorem alternatives_eq_singleton {t : TypeExpr} (h : ∀ i ts, t ≠ union i ts) :
    t.alternatives = [t.alternatives.flatten] := by
  cases t with
  | union i ts => exact absurd rfl (h i ts)
  | intersection i ts =>
    rw [alternatives]
    split <;> simp
  | _ => simp [alternatives]

theorem operandsSyntax_eq_flatten {t : TypeExpr} (h : ∀ i ts, t ≠ union i ts)
    (alts : List (List TypeSyntax)) : operandsSyntax t alts = alts.flatten := by
  cases t with
  | union i ts => exact absurd rfl (h i ts)
  | _ => rfl

/-! ## Reading -/

/-- The types whose own text can be read: names are dotted, and literals are scalars. -/
def IsReadable : TypeExpr → Prop
  | identifier _ name => name = openMap ∨ TypeSyntax.IsPath (pathOf name)
  | literal _ value => ∃ s, value.here = .scalar s ∧ s.IsLiteral
  | generic _ base _ => ∃ i name, base = identifier i name ∧ TypeSyntax.IsPath (pathOf name)
  | _ => True

open TypeSyntax (Reads ReadsField)

theorem intercalate_pieces (cs : List Char) :
    ['.'].intercalate (Text.pieces (· == '.') cs) = cs := by
  induction cs with
  | nil => rfl
  | cons c cs ih =>
    obtain ⟨l, ls, hls⟩ := List.exists_cons_of_ne_nil (Text.pieces_ne_nil (· == '.') cs)
    by_cases hc : c = '.'
    · rw [Text.pieces_cons_end (by simpa using hc), hls, List.intercalate_cons_cons, ← hls, ih, hc]
      rfl
    · rw [Text.pieces_cons (by simpa using hc) hls]
      rw [hls] at ih
      exact (Prose.intercalate_append_cons ['.'] [c] l ls).trans (congrArg ([c] ++ ·) ih)

theorem reads_path {name : String} (h : TypeSyntax.IsPath (pathOf name)) :
    Reads Lexeme.isNameChar name.toList [[.name (pathOf name)]] := by
  have := Reads.path h
  rwa [pathOf, intercalate_pieces] at this

theorem reads_identifierSyntax {name : String}
    (h : name = openMap ∨ TypeSyntax.IsPath (pathOf name)) :
    Reads Lexeme.isNameChar name.toList [[identifierSyntax name]] := by
  unfold identifierSyntax
  split
  · rename_i hopen
    rw [eq_of_beq hopen]
    exact Reads.openObject.weaken
  · rename_i hopen
    exact reads_path (h.resolve_left fun hn => hopen (by simp [hn]))

theorem reads_signed {cs : List Char} (h : Number.Signed cs) :
    Reads Lexeme.isWordChar cs [[TypeSyntax.ofSigned cs]] := by
  cases h with
  | positive h =>
    rw [TypeSyntax.ofSigned_number h]
    exact .number h
  | negative h => exact .minus h

theorem reads_literalSyntax {s : Scalar} (h : s.IsLiteral) :
    Reads Lexeme.isWordChar s.json.toList [[s.literalSyntax]] := by
  cases h with
  | null => exact (Reads.name rfl).word
  | bool b => cases b <;> exact (Reads.name rfl).word
  | int n => exact reads_signed (Number.signed_int n)
  | float hx => exact reads_signed (Number.signed_float hx _)
  | text s => exact (Reads.text s).weaken

theorem json_of_here {d : Document} {s : Scalar} (h : d.here = .scalar s) : d.json = s.json := by
  rw [Document.json, Document.snapshot, h]
  rfl

theorem intercalate_ne_nil {sep : List Char} {ls : List (List Char)} (h : ∃ l ∈ ls, l ≠ []) :
    sep.intercalate ls ≠ [] := by
  obtain ⟨l, hl, hne⟩ := h
  induction ls with
  | nil => cases hl
  | cons m ls ih =>
    cases ls with
    | nil =>
      rw [List.mem_singleton] at hl
      simpa [← hl] using hne
    | cons k ls =>
      rw [List.intercalate_cons_cons]
      rcases List.mem_cons.mp hl with rfl | hl
      · simp [hne]
      · exact List.append_ne_nil_of_right_ne_nil _ (ih hl)

theorem joined_toList {α : Type} {operator empty : String} {items : List α} {f : α → String}
    (h : ∃ a ∈ items, (f a).toList ≠ []) : (joined operator empty (items.map f)).toList =
      operator.toList.intercalate (items.map fun a => (f a).toList) := by
  obtain ⟨a, ha, hne⟩ := h
  have htext : (String.intercalate operator (items.map f)).toList =
      operator.toList.intercalate (items.map fun a => (f a).toList) := by
    rw [String.toList_intercalate, List.map_map]
    rfl
  have hlist : operator.toList.intercalate (items.map fun a => (f a).toList) ≠ [] :=
    intercalate_ne_nil ⟨_, List.mem_map_of_mem ha, hne⟩
  have hempty : ¬ (String.intercalate operator (items.map f)).isEmpty = true := by
    intro he
    rw [String.isEmpty_iff] at he
    rw [← htext, he] at hlist
    exact hlist rfl
  rw [joined, if_neg hempty, htext]

theorem reads_union {ts : List TypeExpr} (i : Info)
    (h : ∀ t ∈ ts, Reads Lexeme.isWordChar t.declared.toList t.alternatives) :
    Reads Lexeme.isWordChar (union i ts).declared.toList (union i ts).alternatives := by
  rw [declared, alternatives, declaredMembers_eq_map, unionAlternatives_eq_flatMap]
  cases ts with
  | nil => exact (Reads.name rfl).word
  | cons t ts =>
    have hread := Reads.union (by simp) fun u hu => ⟨h u hu, u.alternatives_ne_nil⟩
    have ht := (h t List.mem_cons_self).ne_nil
    rw [joined_toList ⟨t, List.mem_cons_self, ht⟩]
    have hne : (t :: ts).flatMap alternatives ≠ [] := by
      simp [alternatives_ne_nil]
    split
    · exact absurd ‹_› hne
    · exact hread

/-- A type under an operator that binds closer than its own stands in parentheses. -/
theorem reads_parenthesized {t : TypeExpr}
    (h : Reads Lexeme.isWordChar t.declared.toList t.alternatives) :
    Reads Lexeme.never (parenthesized t.declared).toList [[.choice t.alternatives]] := by
  have := Reads.group h t.alternatives_ne_nil
  simpa [parenthesized] using this

theorem reads_intersectionOperand {t : TypeExpr}
    (h : Reads Lexeme.isWordChar t.declared.toList t.alternatives) :
    Reads Lexeme.isWordChar (intersectionOperand t t.declared).toList
      [operandsSyntax t t.alternatives] := by
  by_cases hu : ∃ i ts, t = union i ts
  · obtain ⟨i, ts, rfl⟩ := hu
    exact (reads_parenthesized h).weaken
  · have hsingle := alternatives_eq_singleton fun i ts ht => hu ⟨i, ts, ht⟩
    rw [hsingle] at h
    cases t with
    | union i ts => exact absurd ⟨i, ts, rfl⟩ hu
    | _ => exact h

theorem reads_arrayOperand {t : TypeExpr}
    (h : Reads Lexeme.isWordChar t.declared.toList t.alternatives) :
    Reads Lexeme.isWordChar (arrayOperand t t.declared).toList
      [[elementSyntax t t.alternatives]] := by
  cases t with
  | union i ts => exact (reads_parenthesized h).weaken
  | intersection i ts => exact (reads_parenthesized h).weaken
  | _ => exact h

theorem reads_intersection {ts : List TypeExpr} (i : Info)
    (h : ∀ t ∈ ts, Reads Lexeme.isWordChar t.declared.toList t.alternatives) :
    Reads Lexeme.isWordChar (intersection i ts).declared.toList
      (intersection i ts).alternatives := by
  rw [declared, alternatives, declaredOperands_eq_map, intersectionOperands_eq_flatMap]
  cases ts with
  | nil => exact (Reads.name rfl).word
  | cons t ts =>
    have hread := Reads.intersection (by simp) fun u hu => reads_intersectionOperand (h u hu)
    have ht := (reads_intersectionOperand (h t List.mem_cons_self)).ne_nil
    rw [joined_toList ⟨t, List.mem_cons_self, ht⟩]
    have hne := hread.operands_ne_nil
    split
    · exact absurd ‹_› hne
    · exact hread

theorem reads_generic {base : TypeExpr} {ts : List TypeExpr} (i : Info)
    (hbase : ∃ j name, base = identifier j name ∧ TypeSyntax.IsPath (pathOf name))
    (h : ∀ t ∈ ts, Reads Lexeme.isWordChar t.declared.toList t.alternatives) :
    Reads Lexeme.isWordChar (generic i base ts).declared.toList
      (generic i base ts).alternatives := by
  obtain ⟨j, name, rfl, hpath⟩ := hbase
  have hread := Reads.generic (reads_path hpath) rfl fun t ht => ⟨h t ht, t.alternatives_ne_nil⟩
  have htext : (generic i (identifier j name) ts).declared.toList = name.toList ++
      '<' :: (", ".toList.intercalate (ts.map fun t => t.declared.toList) ++ ['>']) := by
    rw [declared, declared, declaredMembers_eq_map, String.toList_append, String.toList_append,
      String.toList_append, String.toList_intercalate, List.map_map, List.append_assoc,
      List.append_assoc]
    rfl
  rw [htext, alternatives, paramSyntaxes_eq_map]
  exact hread.weaken

theorem reads_nullable {t : TypeExpr}
    (h : Reads Lexeme.isWordChar t.declared.toList t.alternatives) :
    ∃ alts, alts ≠ [] ∧ nullable t t.alternatives = .choice alts ∧
      Reads Lexeme.isWordChar
        (if t.lacksNull then t.declared ++ " | null" else t.declared).toList alts := by
  unfold nullable
  split
  · refine ⟨_, by simp, rfl, ?_⟩
    have hnull : Reads Lexeme.isWordChar "null".toList [[.name ["null".toList]]] :=
      (Reads.name rfl).word
    have hitems : ∀ a ∈ [(t.declared.toList, t.alternatives),
        ("null".toList, [[.name ["null".toList]]])], Reads Lexeme.isWordChar a.1 a.2 ∧ a.2 ≠ [] := by
      intro a ha
      rcases List.mem_cons.mp ha with rfl | ha
      · exact ⟨h, t.alternatives_ne_nil⟩
      · rw [List.mem_singleton.mp ha]
        exact ⟨hnull, by simp⟩
    have hunion := Reads.union (by simp) hitems
    rw [String.toList_append]
    simpa [List.intercalate_cons_cons] using hunion
  · exact ⟨_, t.alternatives_ne_nil, rfl, h⟩

theorem exists_lead_propertyText (name : String) (required : Bool) (t : TypeExpr) (declared : String) :
    ∃ lead : String, Lexeme.Spells Lexeme.never lead.toList [] ∧
      propertyText name required t declared = lead ++ Name.propertyKey name ++
        (if required then "" else "?") ++ ": " ++
        (if t.lacksNull then declared ++ " | null" else declared) ++ ";" := by
  obtain ⟨comment, hcomment, htext⟩ := exists_propertyText_eq name required t declared
  have hindent : Lexeme.Spells Lexeme.never "    ".toList [] := fun _ _ => rfl
  have hspells : Lexeme.Spells Lexeme.never comment.toList [] := by
    rcases hcomment with rfl | ⟨lines, rfl⟩
    · exact .nil
    · have hbreak : Lexeme.Spells Lexeme.never "\n".toList [] := fun _ _ => rfl
      rw [String.toList_append]
      exact (Lexeme.Spells.comment _).append_never hbreak
  refine ⟨comment ++ "    ", ?_, htext⟩
  rw [String.toList_append]
  exact hspells.append_never hindent

theorem reads_property {t : TypeExpr} (name : String) (required : Bool)
    (h : Reads Lexeme.isWordChar t.declared.toList t.alternatives) :
    ReadsField (propertyText name required t t.declared).toList
      (name.toList, !required, nullable t t.alternatives) := by
  obtain ⟨alts, hne, halts, hread⟩ := reads_nullable h
  have hfield := ReadsField.property name (!required) hread hne
  have hoption : TypeSyntax.optionMark (!required) = (if required then "" else "?").toList := by
    cases required <;> rfl
  obtain ⟨lead, hlead, htext⟩ := exists_lead_propertyText name required t t.declared
  rw [htext, halts]
  rw [hoption] at hfield
  simpa using hfield.behind hlead

theorem reads_object {ps : List (String × TypeExpr)} (i : Info) (required : List String)
    (h : ∀ p ∈ ps, Reads Lexeme.isWordChar p.2.declared.toList p.2.alternatives) :
    Reads Lexeme.isWordChar (object i ps required).declared.toList
      (object i ps required).alternatives := by
  have hfields : ∀ p ∈ ps,
      ReadsField (propertyText p.1 (required.contains p.1) p.2 p.2.declared).toList
        (p.1.toList, !required.contains p.1, nullable p.2 p.2.alternatives) :=
    fun p hp => reads_property p.1 _ (h p hp)
  have hread := Reads.object hfields
  have htext : (object i ps required).declared.toList = '\x7b' :: '\n' ::
      (['\n'].intercalate (ps.map fun p =>
        (propertyText p.1 (required.contains p.1) p.2 p.2.declared).toList) ++ ['\n', '\x7d']) := by
    rw [declared, declaredProperties_eq_map, String.toList_append, String.toList_append,
      String.toList_intercalate, List.map_map]
    rfl
  rw [htext, alternatives, fields_eq_map]
  exact hread.weaken

/-- The text of a declared type is read as the alternatives built from the type. -/
theorem reads_declared {t : TypeExpr} (h : t.Every IsReadable) :
    Reads Lexeme.isWordChar t.declared.toList t.alternatives := by
  induction t with
  | identifier i name => exact (reads_identifierSyntax h).word
  | literal i value =>
    obtain ⟨s, hs, hl⟩ := h
    rw [declared, json_of_here hs, alternatives, literalSyntax, hs]
    exact reads_literalSyntax hl
  | array i t ih =>
    have := Reads.array (reads_arrayOperand (ih h.2)) rfl
    rw [declared, String.toList_append]
    exact this.weaken
  | union i ts ih => exact reads_union i fun t ht => ih t ht (everyMember_iff.mp h.2 t ht)
  | intersection i ts ih =>
    exact reads_intersection i fun t ht => ih t ht (everyMember_iff.mp h.2 t ht)
  | generic i base ts _ ih =>
    exact reads_generic i h.1 fun t ht => ih t ht (everyMember_iff.mp h.2.2 t ht)
  | object i ps required ih =>
    exact reads_object i required fun p hp => ih p hp (everyProperty_iff.mp h.2 p hp)

end TypeExpr

end ApiTypes
