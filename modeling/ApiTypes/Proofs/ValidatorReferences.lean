import ApiTypes.Proofs.Occurrences

/-!
# References in validators

The text of a validator is cut into pieces: code of the library, texts of values and of keys, and
references to components. The pieces spell the text, and their references are those of the type, also
where names are not those that schemas are mapped to.
-/

namespace ApiTypes.TypeExpr

/-! ## Pieces -/

/-- A piece of the text of a validator. A reference stands alone, or `z.lazy` defers it. -/
inductive Piece
  | code (text : String)
  | literal (value : Document)
  | key (name : String)
  | reference (name : String) (isLazy : Bool)

namespace Piece

def text : Piece → String
  | code text => text
  | literal value => value.json
  | key name => Text.quoted name
  | reference name isLazy =>
    if isLazy then "z.lazy(() => " ++ validatorName name ++ ")" else validatorName name

def reference? : Piece → Option (String × Bool)
  | reference name isLazy => some (name, isLazy)
  | _ => none

def spelling (ps : List Piece) : String := String.join (ps.map text)

theorem spelling_append (ps qs : List Piece) : spelling (ps ++ qs) = spelling ps ++ spelling qs := by
  simp [spelling]

theorem spelling_cons (p : Piece) (ps : List Piece) : spelling (p :: ps) = p.text ++ spelling ps := by
  simp [spelling]

@[simp]
theorem spelling_singleton (p : Piece) : spelling [p] = p.text := by
  simp [spelling]

theorem spelling_intercalate (sep : Piece) (pss : List (List Piece)) :
    spelling ([sep].intercalate pss) = String.intercalate sep.text (pss.map spelling) := by
  induction pss with
  | nil => rfl
  | cons ps pss ih =>
    cases pss with
    | nil => simp
    | cons qs pss =>
      rw [List.intercalate_cons_cons, spelling_append, spelling_append, ih, spelling_singleton]
      simp [String.intercalate_cons_cons]

end Piece

open Piece (spelling)

def libraryCode : List String :=
  primitives.map (fun name => "z." ++ name ++ "()") ++
    ["z.record(z.string(), z.any())", "z.literal(", "z.array(", "z.union([", "])", "z.intersection(",
      "z.object(\x7b\x7d)", "z.object(\x7b ", " \x7d)", ", ", ": ", ")", ".nullable()", ".optional()"]

def identifierPieces (deferred : List String) (name : String) : List Piece :=
  if primitives.contains name then [.code ("z." ++ name ++ "()")]
  else if name == openMap then [.code "z.record(z.string(), z.any())"]
  else [.reference name (deferred.contains (componentName name))]

def unionPieces : List (List Piece) → List Piece
  | [] => [.code "z.never()"]
  | [ps] => ps
  | pss => [.code "z.union(["] ++ [.code ", "].intercalate pss ++ [.code "])"]

def intersectionPieces : List (List Piece) → List Piece
  | [] => [.code "z.unknown()"]
  | ps :: pss => pss.foldl
      (fun merged qs => [.code "z.intersection("] ++ merged ++ [.code ", "] ++ qs ++ [.code ")"]) ps

def propertyPieces (name : String) (required : Bool) (t : TypeExpr) (ps : List Piece) : List Piece :=
  [.key name, .code ": "] ++ ps ++ (if t.lacksNull then [.code ".nullable()"] else []) ++
    (if required then [] else [.code ".optional()"])

def objectPieces : List (List Piece) → List Piece
  | [] => [.code "z.object(\x7b\x7d)"]
  | pss => [.code "z.object(\x7b "] ++ [.code ", "].intercalate pss ++ [.code " \x7d)"]

theorem unionPieces_cons_cons (ps qs : List Piece) (pss : List (List Piece)) :
    unionPieces (ps :: qs :: pss) =
      [.code "z.union(["] ++ [.code ", "].intercalate (ps :: qs :: pss) ++ [.code "])"] := rfl

theorem objectPieces_cons (ps : List Piece) (pss : List (List Piece)) : objectPieces (ps :: pss) =
    [.code "z.object(\x7b "] ++ [.code ", "].intercalate (ps :: pss) ++ [.code " \x7d)"] := rfl

mutual

def pieces (deferred : List String) : TypeExpr → List Piece
  | identifier _ name => identifierPieces deferred name
  | literal _ value => [.code "z.literal(", .literal value, .code ")"]
  | array _ element => [.code "z.array("] ++ element.pieces deferred ++ [.code ")"]
  | union _ members => unionPieces (memberPieces deferred members)
  | intersection _ members => intersectionPieces (memberPieces deferred members)
  | generic _ base _ => base.pieces deferred
  | object _ properties required => objectPieces (propertiesPieces deferred required properties)

def memberPieces (deferred : List String) : List TypeExpr → List (List Piece)
  | [] => []
  | t :: ts => t.pieces deferred :: memberPieces deferred ts

def propertiesPieces (deferred required : List String) : List (String × TypeExpr) → List (List Piece)
  | [] => []
  | (name, t) :: rest =>
    propertyPieces name (required.contains name) t (t.pieces deferred) ::
      propertiesPieces deferred required rest

end

theorem memberPieces_eq_map (deferred : List String) (ts : List TypeExpr) :
    memberPieces deferred ts = ts.map (pieces deferred) := by
  induction ts with
  | nil => rfl
  | cons t ts ih => simp [memberPieces, ih]

theorem propertiesPieces_eq_map (deferred required : List String) (ps : List (String × TypeExpr)) :
    propertiesPieces deferred required ps = ps.map fun p =>
      propertyPieces p.1 (required.contains p.1) p.2 (p.2.pieces deferred) := by
  induction ps with
  | nil => rfl
  | cons p ps ih => simp [propertiesPieces, ih]

/-! ## What the pieces spell -/

theorem spelling_identifierPieces (deferred : List String) (name : String) :
    spelling (identifierPieces deferred name) = identifierValidator deferred name := by
  unfold identifierPieces identifierValidator
  split
  · exact Piece.spelling_singleton _
  split
  · exact Piece.spelling_singleton _
  · exact Piece.spelling_singleton _

theorem spelling_unionPieces (pss : List (List Piece)) :
    spelling (unionPieces pss) = unionValidator (pss.map spelling) := by
  match pss with
  | [] => rfl
  | [ps] => rfl
  | ps :: qs :: pss =>
    rw [unionPieces_cons_cons, Piece.spelling_append, Piece.spelling_append,
      Piece.spelling_intercalate]
    rfl

theorem spelling_intersectionPieces (pss : List (List Piece)) :
    spelling (intersectionPieces pss) = intersectionValidator (pss.map spelling) := by
  cases pss with
  | nil => rfl
  | cons ps pss =>
    rw [intersectionPieces, List.map_cons, intersectionValidator]
    induction pss generalizing ps with
    | nil => rfl
    | cons qs pss ih =>
      rw [List.foldl_cons, ih, List.map_cons, List.foldl_cons]
      simp only [Piece.spelling_append, Piece.spelling_singleton, Piece.text]

theorem spelling_propertyPieces (name : String) (required : Bool) (t : TypeExpr) (ps : List Piece) :
    spelling (propertyPieces name required t ps) = propertyValidator name required t (spelling ps) := by
  have hkey : spelling [.key name, .code ": "] = Text.quoted name ++ ": " := by
    rw [Piece.spelling_cons, Piece.spelling_singleton]
    rfl
  have hnil : spelling [] = "" := rfl
  simp only [propertyPieces, propertyValidator, Piece.spelling_append, apply_ite spelling, hkey, hnil,
    Piece.spelling_singleton, Piece.text]

theorem spelling_objectPieces (pss : List (List Piece)) :
    spelling (objectPieces pss) = objectValidator (pss.map spelling) := by
  match pss with
  | [] => rfl
  | ps :: pss =>
    rw [objectPieces_cons, Piece.spelling_append, Piece.spelling_append, Piece.spelling_intercalate]
    rfl

theorem spelling_pieces (deferred : List String) (t : TypeExpr) :
    spelling (t.pieces deferred) = t.validator deferred := by
  induction t with
  | identifier i name => exact spelling_identifierPieces deferred name
  | literal i value =>
    rw [pieces, Piece.spelling_cons, Piece.spelling_cons, Piece.spelling_singleton, ← String.append_assoc]
    rfl
  | array i t ih =>
    rw [pieces, Piece.spelling_append, Piece.spelling_append, ih]
    rfl
  | union i ts ih =>
    rw [pieces, validator, memberPieces_eq_map, validators_eq_map, spelling_unionPieces, List.map_map]
    exact congrArg unionValidator (List.map_congr_left ih)
  | intersection i ts ih =>
    rw [pieces, validator, memberPieces_eq_map, validators_eq_map, spelling_intersectionPieces,
      List.map_map]
    exact congrArg intersectionValidator (List.map_congr_left ih)
  | generic i base ts ihb _ => exact ihb
  | object i ps required ih =>
    rw [pieces, validator, propertiesPieces_eq_map, propertyValidators_eq_map, spelling_objectPieces,
      List.map_map]
    refine congrArg objectValidator (List.map_congr_left fun p hp => ?_)
    rw [Function.comp_apply, spelling_propertyPieces, ih p hp]

/-! ## What the pieces are -/

inductive IsPiece (deferred names : List String) : Piece → Prop
  | code {s} : s ∈ libraryCode → IsPiece deferred names (.code s)
  | literal {value} : IsPiece deferred names (.literal value)
  | key {name} : IsPiece deferred names (.key name)
  | reference {name} : name ∈ names → isReference name = true →
      IsPiece deferred names (.reference name (deferred.contains (componentName name)))

theorem IsPiece.mono {deferred names names' : List String} (h : names ⊆ names') {p : Piece}
    (hp : IsPiece deferred names p) : IsPiece deferred names' p := by
  cases hp with
  | code hs => exact .code hs
  | literal => exact .literal
  | key => exact .key
  | reference hname href => exact .reference (h hname) href

section
variable {deferred names : List String}

theorem isPiece_code {s : String} (hs : s ∈ libraryCode) :
    ∀ p ∈ [Piece.code s], IsPiece deferred names p :=
  List.forall_mem_singleton.mpr (.code hs)

theorem isPiece_identifierPieces {name : String} (h : name ∈ names) :
    ∀ p ∈ identifierPieces deferred name, IsPiece deferred names p := by
  unfold identifierPieces
  split
  · rename_i hprimitive
    refine isPiece_code (List.mem_append_left _ (List.mem_map_of_mem ?_))
    simpa using hprimitive
  split
  · exact isPiece_code (by decide)
  · rename_i hprimitive hopen
    exact List.forall_mem_singleton.mpr (.reference h
      (isReference_iff.mpr ⟨Bool.eq_false_iff.mpr hprimitive, Bool.eq_false_iff.mpr hopen⟩))

section
variable {pss : List (List Piece)} (h : ∀ ps ∈ pss, ∀ p ∈ ps, IsPiece deferred names p)
include h

theorem isPiece_intercalate :
    ∀ p ∈ [Piece.code ", "].intercalate pss, IsPiece deferred names p := by
  induction pss with
  | nil => exact List.forall_mem_nil _
  | cons ps pss ih =>
    rw [List.forall_mem_cons] at h
    cases pss with
    | nil => simpa using h.1
    | cons qs pss =>
      rw [List.intercalate_cons_cons]
      exact List.forall_mem_append.mpr
        ⟨List.forall_mem_append.mpr ⟨h.1, isPiece_code (by decide)⟩, ih h.2⟩

theorem isPiece_unionPieces : ∀ p ∈ unionPieces pss, IsPiece deferred names p := by
  match pss with
  | [] => exact isPiece_code (by decide)
  | [ps] => exact h ps List.mem_cons_self
  | ps :: qs :: pss =>
    exact List.forall_mem_append.mpr ⟨List.forall_mem_append.mpr
      ⟨isPiece_code (by decide), isPiece_intercalate h⟩, isPiece_code (by decide)⟩

theorem isPiece_intersectionPieces : ∀ p ∈ intersectionPieces pss, IsPiece deferred names p := by
  cases pss with
  | nil => exact isPiece_code (by decide)
  | cons ps pss =>
    rw [intersectionPieces]
    induction pss generalizing ps with
    | nil => exact h ps List.mem_cons_self
    | cons qs pss ih =>
      obtain ⟨hps, hqs, hpss⟩ := List.forall_mem_cons.mp h |>.imp_right List.forall_mem_cons.mp
      refine ih _ (List.forall_mem_cons.mpr ⟨?_, hpss⟩)
      simp only [List.forall_mem_append]
      exact ⟨⟨⟨⟨isPiece_code (by decide), hps⟩, isPiece_code (by decide)⟩, hqs⟩,
        isPiece_code (by decide)⟩

theorem isPiece_objectPieces : ∀ p ∈ objectPieces pss, IsPiece deferred names p := by
  match pss with
  | [] => exact isPiece_code (by decide)
  | ps :: pss =>
    exact List.forall_mem_append.mpr ⟨List.forall_mem_append.mpr
      ⟨isPiece_code (by decide), isPiece_intercalate h⟩, isPiece_code (by decide)⟩

end

theorem isPiece_propertyPieces {ps : List Piece} (name : String) (required : Bool) (t : TypeExpr)
    (h : ∀ p ∈ ps, IsPiece deferred names p) :
    ∀ p ∈ propertyPieces name required t ps, IsPiece deferred names p := by
  have hmethod : ∀ {b : Prop} [Decidable b] {qs qs' : List Piece},
      (∀ p ∈ qs, IsPiece deferred names p) → (∀ p ∈ qs', IsPiece deferred names p) →
        ∀ p ∈ if b then qs else qs', IsPiece deferred names p := by
    intro b _ qs qs' hqs hqs'
    split
    · exact hqs
    · exact hqs'
  rw [propertyPieces]
  have hkey : ∀ p ∈ [Piece.key name, .code ": "], IsPiece deferred names p :=
    List.forall_mem_cons.mpr ⟨.key, isPiece_code (by decide)⟩
  have hnull := hmethod (b := t.lacksNull = true) (isPiece_code (s := ".nullable()") (by decide))
    (List.forall_mem_nil _)
  have hoptional := hmethod (b := required = true) (List.forall_mem_nil _)
    (isPiece_code (s := ".optional()") (by decide))
  simp only [List.forall_mem_append]
  exact ⟨⟨⟨hkey, h⟩, hnull⟩, hoptional⟩

end

theorem isPiece_of_mem_pieces (deferred : List String) (t : TypeExpr) :
    ∀ p ∈ t.pieces deferred, IsPiece deferred t.names p := by
  have hmembers : ∀ {ts : List TypeExpr},
      (∀ t ∈ ts, ∀ p ∈ t.pieces deferred, IsPiece deferred t.names p) →
      ∀ ps ∈ memberPieces deferred ts, ∀ p ∈ ps, IsPiece deferred (memberNames ts) p := by
    intro ts ih
    rw [memberPieces_eq_map, memberNames_eq_flatMap]
    exact List.forall_mem_map.mpr fun t ht p hp =>
      (ih t ht p hp).mono fun name hname => List.mem_flatMap.mpr ⟨t, ht, hname⟩
  induction t with
  | identifier i name => exact isPiece_identifierPieces (List.mem_singleton_self name)
  | literal i value =>
    exact List.forall_mem_cons.mpr ⟨.code (by decide), List.forall_mem_cons.mpr
      ⟨.literal, isPiece_code (by decide)⟩⟩
  | array i t ih =>
    exact List.forall_mem_append.mpr ⟨List.forall_mem_append.mpr
      ⟨isPiece_code (by decide), ih⟩, isPiece_code (by decide)⟩
  | union i ts ih => exact isPiece_unionPieces (hmembers ih)
  | intersection i ts ih => exact isPiece_intersectionPieces (hmembers ih)
  | generic i base ts ihb _ => exact fun p hp => (ihb p hp).mono (List.subset_append_left _ _)
  | object i ps required ih =>
    rw [pieces, propertiesPieces_eq_map, names, propertyNames_eq_flatMap]
    refine isPiece_objectPieces (List.forall_mem_map.mpr fun q hq => ?_)
    exact isPiece_propertyPieces _ _ _ fun p hp =>
      (ih q hq p hp).mono fun name hname => List.mem_flatMap.mpr ⟨q, hq, hname⟩

/-! ## References among the pieces -/

namespace Piece

def references (ps : List Piece) : List (String × Bool) := ps.filterMap reference?

@[simp]
theorem references_append (ps qs : List Piece) :
    references (ps ++ qs) = references ps ++ references qs := List.filterMap_append

@[simp]
theorem references_code (s : String) : references [.code s] = [] := rfl

theorem references_intercalate (s : String) (pss : List (List Piece)) :
    references ([.code s].intercalate pss) = pss.flatMap references := by
  induction pss with
  | nil => rfl
  | cons ps pss ih =>
    cases pss with
    | nil => simp
    | cons qs pss =>
      rw [List.intercalate_cons_cons, references_append, references_append, ih, references_code,
        List.append_nil]
      rfl

end Piece

theorem references_unionPieces (pss : List (List Piece)) :
    Piece.references (unionPieces pss) = pss.flatMap Piece.references := by
  match pss with
  | [] => rfl
  | [ps] => simp [unionPieces]
  | ps :: qs :: pss =>
    rw [unionPieces_cons_cons, Piece.references_append, Piece.references_append,
      Piece.references_intercalate, Piece.references_code, Piece.references_code, List.nil_append,
      List.append_nil]

theorem references_intersectionPieces (pss : List (List Piece)) :
    Piece.references (intersectionPieces pss) = pss.flatMap Piece.references := by
  cases pss with
  | nil => rfl
  | cons ps pss =>
    rw [intersectionPieces]
    induction pss generalizing ps with
    | nil => simp
    | cons qs pss ih =>
      rw [List.foldl_cons, ih, List.flatMap_cons, List.flatMap_cons, List.flatMap_cons]
      simp only [Piece.references_append, Piece.references_code, List.nil_append, List.append_nil,
        List.append_assoc]

theorem references_objectPieces (pss : List (List Piece)) :
    Piece.references (objectPieces pss) = pss.flatMap Piece.references := by
  match pss with
  | [] => rfl
  | ps :: pss =>
    rw [objectPieces_cons, Piece.references_append, Piece.references_append,
      Piece.references_intercalate, Piece.references_code, Piece.references_code, List.nil_append,
      List.append_nil]

theorem references_propertyPieces (name : String) (required : Bool) (t : TypeExpr) (ps : List Piece) :
    Piece.references (propertyPieces name required t ps) = Piece.references ps := by
  have hkey : Piece.references [.key name, .code ": "] = [] := rfl
  have hnil : Piece.references [] = [] := rfl
  simp only [propertyPieces, Piece.references_append, hkey, apply_ite Piece.references,
    Piece.references_code, hnil, ite_self, List.nil_append, List.append_nil]

def reference (deferred : List String) (name : String) : String × Bool :=
  (name, deferred.contains (componentName name))

theorem references_identifierPieces (deferred : List String) (name : String) :
    Piece.references (identifierPieces deferred name) =
      ([name].filter isReference).map (reference deferred) := by
  unfold identifierPieces
  split
  · rename_i hprimitive
    have href : ¬ isReference name = true := fun href =>
      absurd hprimitive (Bool.eq_false_iff.mp (isReference_iff.mp href).1)
    rw [List.filter_cons_of_neg href]
    rfl
  split
  · rename_i hopen
    have href : ¬ isReference name = true := fun href =>
      absurd hopen (Bool.eq_false_iff.mp (isReference_iff.mp href).2)
    rw [List.filter_cons_of_neg href]
    rfl
  · rename_i hprimitive hopen
    rw [List.filter_cons_of_pos (isReference_iff.mpr
      ⟨Bool.eq_false_iff.mpr hprimitive, Bool.eq_false_iff.mpr hopen⟩)]
    rfl

theorem references_pieces (deferred : List String) {t : TypeExpr} (h : t.LacksGenerics) :
    Piece.references (t.pieces deferred) = (t.names.filter isReference).map (reference deferred) := by
  -- the pieces between the members hold no reference
  have hmembers : ∀ {ts : List TypeExpr}, (∀ t ∈ ts, Piece.references (t.pieces deferred) =
        (t.names.filter isReference).map (reference deferred)) →
      (memberPieces deferred ts).flatMap Piece.references =
        ((memberNames ts).filter isReference).map (reference deferred) := by
    intro ts ih
    rw [memberPieces_eq_map, memberNames_eq_flatMap, List.flatMap_map, List.filter_flatMap,
      List.map_flatMap]
    exact List.flatMap_congr ih
  induction t with
  | identifier i name => exact references_identifierPieces deferred name
  | literal i value => rfl
  | array i t ih =>
    rw [pieces, Piece.references_append, Piece.references_append, ih h.2, Piece.references_code,
      Piece.references_code, List.nil_append, List.append_nil]
    rfl
  | union i ts ih =>
    rw [pieces, references_unionPieces, names]
    exact hmembers fun t ht => ih t ht (everyMember_iff.mp h.2 t ht)
  | intersection i ts ih =>
    rw [pieces, references_intersectionPieces, names]
    exact hmembers fun t ht => ih t ht (everyMember_iff.mp h.2 t ht)
  | generic i base ts ihb _ => exact absurd rfl (h.1 i base ts)
  | object i ps required ih =>
    rw [pieces, references_objectPieces, propertiesPieces_eq_map, names, propertyNames_eq_flatMap,
      List.flatMap_map, List.filter_flatMap, List.map_flatMap]
    refine List.flatMap_congr fun p hp => ?_
    rw [references_propertyPieces]
    exact ih p hp (everyProperty_iff.mp h.2 p hp)

/-- The pieces spell the validator, and only references refer to anything. What they refer to, the type
does, and lazily if and only if it is deferred; without generics, each name that is one of a component is
referred to once where it stands. So it is in the expression that the text is read as, if the names are
those that schemas are mapped to. -/
structure CoversReferences (deferred : List String) (t : TypeExpr) : Prop where
  spelling : Piece.spelling (t.pieces deferred) = t.validator deferred
  code : ∀ s, .code s ∈ t.pieces deferred → s ∈ libraryCode
  covered : ∀ name isLazy, .reference name isLazy ∈ t.pieces deferred →
    componentName name ∈ t.references
  isLazy_iff : ∀ name isLazy, .reference name isLazy ∈ t.pieces deferred →
    (isLazy = true ↔ componentName name ∈ deferred)
  each : t.LacksGenerics →
    (Piece.references (t.pieces deferred)).map (·.1) = t.names.filter isReference
  reads : t.LacksGenerics → t.HasTypeNames → ∃ e,
    Expression.read? (Lexeme.ofText (t.validator deferred)) = some e ∧
      e.occurrences = (Piece.references (t.pieces deferred)).map fun r =>
        (Expression.constantName (componentName r.1), r.2)

theorem coversReferences (deferred : List String) (t : TypeExpr) : t.CoversReferences deferred where
  spelling := spelling_pieces deferred t
  code := by
    intro s hs
    cases isPiece_of_mem_pieces deferred t _ hs with
    | code h => exact h
  covered := by
    intro name isLazy hp
    cases isPiece_of_mem_pieces deferred t _ hp with
    | reference hname _ =>
      rw [references_eq]
      exact List.mem_map_of_mem hname
  isLazy_iff := by
    intro name isLazy hp
    cases isPiece_of_mem_pieces deferred t _ hp with
    | reference _ _ => exact List.contains_iff_mem
  each := by
    intro hg
    have hnames : (fun name => (reference deferred name).1) = id := rfl
    rw [references_pieces deferred hg, List.map_map, Function.comp_def, hnames, List.map_id]
  reads := by
    intro hg h
    refine ⟨_, (reads_validator deferred h).read?_eq, ?_⟩
    rw [occurrences_expression h hg, references_pieces deferred hg, List.map_map]
    rfl

/-- The parameter of a generic is a reference of the type, but not of its validator. -/
example :
    let page : TypeExpr := .generic .none (.identifier .none "Page") [.identifier .none "Pet"]
    page.references = ["Page", "Pet"] ∧ Piece.references (page.pieces ["Page"]) = [("Page", true)] := by
  decide +kernel

end ApiTypes.TypeExpr
