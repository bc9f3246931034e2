import ApiTypes.Proofs.Expression

/-!
# Literals

The text of a closed value is read as an expression of the same shape. Nothing in it is looked up but
the words of the values that have no digits or quotes.
-/

namespace ApiTypes

/-! ## Scalars -/

namespace Expression

def ofWord (cs : List Char) : Expression := if cs.head?.any Char.isDigit then .number cs else .name cs

def ofSigned : List Char → Expression
  | '-' :: cs => .minus (ofWord cs)
  | cs => ofWord cs

theorem ofWord_number {cs : List Char} (h : Number.Form cs) : ofWord cs = .number cs := by
  rw [ofWord, if_pos h.head]

theorem ofSigned_number {cs : List Char} (h : Number.Form cs) : ofSigned cs = .number cs := by
  have hhead := h.head
  cases cs with
  | nil => simp at hhead
  | cons c cs =>
    unfold ofSigned
    split
    · rename_i hc
      cases hc
      exact absurd (show ('-').isDigit = true from hhead) (by decide)
    · exact ofWord_number h

theorem Reads.signed {cs : List Char} (h : Number.Signed cs) :
    Reads Lexeme.isWordChar cs (ofSigned cs) := by
  cases h with
  | positive h =>
    rw [ofSigned_number h]
    exact .number h
  | negative h =>
    rw [ofSigned, ofWord_number h]
    exact .minus h.spells (ofWord?_number h)

theorem reads_infinity {x : Float} (h : x.isInf = true) :
    Reads Lexeme.isWordChar (Decimal.floatText "Infinity" x).toList
      (ofSigned (Decimal.floatText "Infinity" x).toList) := by
  have hname : Lexeme.Spells Lexeme.isWordChar "Infinity".toList [.word "Infinity".toList] :=
    (Lexeme.Spells.name rfl).mono fun c hc => by simp [Lexeme.isWordChar, hc]
  rcases Number.floatText_of_isInf h "Infinity" with ht | ht
  · rw [ht]
    exact (Reads.name rfl).word
  · rw [ht]
    exact .minus hname rfl

end Expression

def Scalar.expression : Scalar → Expression
  | .text s => .text s.toList
  | .date d => .text d.text.toList
  | .dateTime t => .text t.text.toList
  | .bytes bs => .text (inspectBytes bs).toList
  | s => Expression.ofSigned s.json.toList

open Expression in
theorem Scalar.reads_json (s : Scalar) : Reads Lexeme.isWordChar s.json.toList s.expression := by
  cases s with
  | null => exact (Reads.name rfl).word
  | bool b =>
    cases b with
    | false => exact (Reads.name rfl).word
    | true => exact (Reads.name rfl).word
  | int n => exact .signed (Number.signed_int n)
  | float x =>
    cases h : x.isInf with
    | true => exact reads_infinity h
    | false => exact .signed (Number.signed_float h _)
  | nan origin =>
    have h : Reads Lexeme.isNameChar "NaN".toList (ofSigned "NaN".toList) := .name rfl
    exact h.word
  | text s => exact (Reads.text s).weaken
  | date d => exact (Reads.text _).weaken
  | dateTime t => exact (Reads.text _).weaken
  | bytes bs => exact (Reads.text _).weaken

def Scalar.keyText : Scalar → String
  | .text s => s
  | s => s.json

theorem Scalar.jsonKey_eq (s : Scalar) : s.jsonKey = Text.quoted s.keyText := by
  cases s <;> rfl

/-! ## Values -/

namespace Value

@[elab_as_elim, induction_eliminator]
theorem tree_induction {motive : Value → Prop} (scalar : ∀ s, motive (.scalar s))
    (seq : ∀ items, (∀ v ∈ items, motive v) → motive (.seq items))
    (tuple : ∀ items, (∀ v ∈ items, motive v) → motive (.tuple items))
    (map : ∀ entries, (∀ e ∈ entries, motive e.2) → motive (.map entries))
    (set : ∀ members, motive (.set members)) (link : ∀ n, motive (.link n)) (v : Value) :
    motive v := by
  refine @Value.rec motive (fun vs => ∀ v ∈ vs, motive v) (fun es => ∀ e ∈ es, motive e.2)
    (fun e => motive e.2) scalar seq tuple map set link ?_ ?_ ?_ ?_ (fun _ _ h => h) v
  · intro v h
    cases h
  · intro v vs hv hvs u hu
    rcases List.mem_cons.mp hu with rfl | hu
    · exact hv
    · exact hvs u hu
  · intro e h
    cases h
  · intro e es he hes d hd
    rcases List.mem_cons.mp hd with rfl | hd
    · exact he
    · exact hes d hd

theorem jsonItems_eq_map (vs : List Value) : jsonItems vs = vs.map json := by
  induction vs with
  | nil => rfl
  | cons v vs ih => simp [jsonItems, ih]

theorem jsonEntries_eq_map (es : List (Scalar × Value)) :
    jsonEntries es = es.map fun e => e.1.jsonKey ++ ": " ++ e.2.json := by
  induction es with
  | nil => rfl
  | cons e es ih => simp [jsonEntries, ih]

mutual

def expression : Value → Expression
  | scalar s => s.expression
  | seq items | tuple items => .list (itemExpressions items)
  | map entries => .record (entryExpressions entries)
  | set members => .text (set members).inspect.toList
  | link _ => .name "null".toList

def itemExpressions : List Value → List Expression
  | [] => []
  | v :: vs => expression v :: itemExpressions vs

def entryExpressions : List (Scalar × Value) → List (List Char × Expression)
  | [] => []
  | (k, v) :: rest => (k.keyText.toList, expression v) :: entryExpressions rest

end

theorem itemExpressions_eq_map (vs : List Value) : itemExpressions vs = vs.map expression := by
  induction vs with
  | nil => rfl
  | cons v vs ih => simp [itemExpressions, ih]

theorem entryExpressions_eq_map (es : List (Scalar × Value)) :
    entryExpressions es = es.map fun e => (e.1.keyText.toList, e.2.expression) := by
  induction es with
  | nil => rfl
  | cons e es ih => simp [entryExpressions, ih]

open Expression in
theorem reads_json (v : Value) : Reads Lexeme.isWordChar v.json.toList v.expression := by
  have hlist : ∀ items : List Value,
      (∀ v ∈ items, Reads Lexeme.isWordChar v.json.toList v.expression) →
      Reads Lexeme.isWordChar (bracketed "[" "]" (jsonItems items)).toList
        (.list (itemExpressions items)) := by
    intro items ih
    have h := Reads.list ih
    rw [itemExpressions_eq_map, jsonItems_eq_map]
    simp only [bracketed, String.toList_append, String.toList_intercalate, List.map_map]
    exact h.weaken
  induction v with
  | scalar s => exact s.reads_json
  | seq items ih => exact hlist items ih
  | tuple items ih => exact hlist items ih
  | map entries ih =>
    have h := Reads.record (fun e => e.1.keyText) ih (spells_mark (c := '\x7b') rfl)
      (spells_mark (c := '\x7d') rfl) (by intro c hc; cases hc; decide) (by simp)
    -- a member of a map is written as a field of a record
    have htext : (jsonEntries entries).map String.toList =
        entries.map fun e => fieldText e.1.keyText e.2.json.toList := by
      rw [jsonEntries_eq_map, List.map_map]
      apply List.map_congr_left
      intro e _
      simp [fieldText, Scalar.jsonKey_eq]
    rw [expression, entryExpressions_eq_map, json]
    simp only [bracketed, String.toList_append, String.toList_intercalate, htext]
    exact h.weaken
  | set members => exact (Reads.text _).weaken
  | link n =>
    have h : Reads Lexeme.isNameChar "null".toList (.name "null".toList) := .name rfl
    exact h.word

end Value

end ApiTypes
