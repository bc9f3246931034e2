import ApiTypes.Proofs.ParameterKeys

/-!
# Parameters that are redeclared

An own parameter of an operation stands for the one of the path item that has its name and location.
What is due at a location are the parameters of the path item that are not redeclared, then the own ones.
This is what an operation has if and only if its parameters are redeclared as they are written.
-/

namespace ApiTypes

theorem forall₂_iff_of_forall₂ {α β : Type} {R S : α → β → Prop} {p : α → Prop} {xs : List α}
    {ys : List β} (h : List.Forall₂ R xs ys) (hiff : ∀ x y, R x y → (S x y ↔ p x)) :
    List.Forall₂ S xs ys ↔ ∀ x ∈ xs, p x := by
  induction h with
  | nil => simp
  | cons hxy _ ih => rw [List.forall₂_cons, List.forall_mem_cons, hiff _ _ hxy, ih]

namespace Parameter

/-! ## What is due -/

def isAt (l : Location) (p : Document) : Bool := (key? p).any fun k => k.2 == l

def isRedeclared (own p : Document) : Bool :=
  (own.items?.getD []).any fun q => (key? q).isSome && key? q == key? p

/-- The parameters of the path item that are due at a location. -/
def inheritedAt (shared own : Document) (l : Location) : List Document :=
  (shared.items?.getD []).filter fun p => isAt l p && !isRedeclared own p

/-- Each location has the parameters of the path item that are not redeclared and then the own ones, both
in their order. -/
def Overrides (shared own : Document) (group : Location → List Parameter) : Prop :=
  ∀ l, List.Forall₂ (fun d p => (read d).result = .ok (some p))
    (inheritedAt shared own l ++ (own.items?.getD []).filter (isAt l)) (group l)

/-- A parameter of the path item is redeclared if and only if an own one takes its place. -/
def RedeclaredAsWritten (shared own : Document) : Prop :=
  ∀ p ∈ shared.items?.getD [], ∀ k ∈ key? p,
    ((∃ q ∈ own.items?.getD [], key? q = some k) ↔
      ∃ q ∈ own.items?.getD [], q.entries?.isSome ∧ replaces q p = true)

instance (shared own : Document) : Decidable (RedeclaredAsWritten shared own) :=
  inferInstanceAs (Decidable (∀ _ ∈ _, ∀ _ ∈ _, _))

/-! ## What is read -/

theorem isAt_iff {l : Location} {p : Document} : isAt l p = true ↔ ∃ k, key? p = some k ∧ k.2 = l := by
  simp [isAt, Option.any_eq_true]

theorem isRedeclared_iff {own p : Document} {k : String × Location} (hp : key? p = some k) :
    isRedeclared own p = true ↔ ∃ q ∈ own.items?.getD [], key? q = some k := by
  rw [isRedeclared, List.any_eq_true, hp]
  refine exists_congr fun q => and_congr_right fun _ => ?_
  rw [Bool.and_eq_true, beq_iff_eq]
  exact and_iff_right_of_imp fun hq => by rw [hq]; rfl

theorem forall₂_reads_at {ds : List Document} {qs : List (Option Parameter)}
    (h : List.Forall₂ (fun d q => (read d).result = .ok q) ds qs) (l : Location) :
    List.Forall₂ (fun d p => (read d).result = .ok (some p)) (ds.filter (isAt l))
      ((qs.filterMap id).filter fun p => p.location == l) := by
  induction h with
  | nil => exact .nil
  | @cons d q ds qs hd _ ih =>
    have hkey := key?_of_read hd
    cases q with
    | none =>
      have hat : ¬ isAt l d = true := by
        rw [isAt, ← hkey]
        exact Bool.false_ne_true
      rw [List.filter_cons_of_neg hat]
      exact ih
    | some p =>
      have hat : isAt l d = (p.location == l) := by
        rw [isAt, ← hkey]
        rfl
      have hread : List.filterMap id (some p :: qs) = p :: List.filterMap id qs := rfl
      rw [hread, List.filter_cons, List.filter_cons, hat]
      split
      · exact .cons hd ih
      · exact ih

theorem forall₂_parametersAt {shared own : Document} {ps : List Parameter}
    (h : (readAll shared own).result = .ok ps) (l : Location) :
    List.Forall₂ (fun d p => (read d).result = .ok (some p))
      ((unreplaced shared own).filter (isAt l) ++ (own.items?.getD []).filter (isAt l))
      (ps.filter fun p => p.location == l) := by
  obtain ⟨merged, hmerged, h⟩ := Run.bind_eq_ok.mp h
  obtain ⟨qs, hqs, h⟩ := Run.bind_eq_ok.mp h
  cases h
  rw [← List.filter_append, ← merge_eq hmerged]
  exact forall₂_reads_at (Run.mapM_eq_ok.mp hqs) l

theorem keys_eq_of_forall₂ {ds es : List Document} {ps : List Parameter}
    (hds : List.Forall₂ (fun d p => (read d).result = .ok (some p)) ds ps)
    (hes : List.Forall₂ (fun d p => (read d).result = .ok (some p)) es ps) :
    ds.map key? = es.map key? := by
  have hkeys : ∀ {ds : List Document},
      List.Forall₂ (fun d p => (read d).result = .ok (some p)) ds ps →
        ds.map key? = ps.map fun p => some p.key :=
    fun hds => map_congr_forall₂ (hds.imp fun _ _ hd => (key?_of_read hd).symm)
  rw [hkeys hds, hkeys hes]

/-! ## What is kept -/

def isKept (own p : Document) : Bool :=
  !((own.items?.getD []).filter fun q => q.entries?.isSome).any fun q => replaces q p

theorem isKept_eq_false_iff {own p : Document} : isKept own p = false ↔
    ∃ q ∈ own.items?.getD [], q.entries?.isSome ∧ replaces q p = true := by
  simp [isKept]

theorem filter_unreplaced (shared own : Document) (l : Location) :
    (unreplaced shared own).filter (isAt l) =
      (shared.items?.getD []).filter fun p => isAt l p && isKept own p := by
  rw [unreplaced, List.filter_filter, List.filter_filter]
  refine List.filter_congr fun p _ => ?_
  cases hat : isAt l p with
  | false => rfl
  | true =>
    obtain ⟨k, hk, _⟩ := isAt_iff.mp hat
    rw [entries?_of_key? hk, Bool.and_true, Bool.true_and]
    rfl

section
variable {shared own : Document}

theorem inheritedAt_eq (h : RedeclaredAsWritten shared own) (l : Location) :
    inheritedAt shared own l = (unreplaced shared own).filter (isAt l) := by
  rw [filter_unreplaced, inheritedAt]
  refine List.filter_congr fun p hp => ?_
  cases hat : isAt l p with
  | false => rfl
  | true =>
    obtain ⟨k, hk, _⟩ := isAt_iff.mp hat
    rw [Bool.true_and, Bool.true_and, Bool.not_eq_eq_eq_not, Bool.eq_iff_iff, isRedeclared_iff hk,
      h p hp k hk, ← isKept_eq_false_iff, Bool.not_eq_true']

theorem redeclaredAsWritten_of_keys (h : ∀ l, (inheritedAt shared own l).map key? =
    ((unreplaced shared own).filter (isAt l)).map key?) : RedeclaredAsWritten shared own := by
  intro p hp k hk
  have hat : isAt k.2 p = true := isAt_iff.mpr ⟨k, hk, rfl⟩
  have hkeys := h k.2
  rw [filter_unreplaced, inheritedAt] at hkeys
  rw [← isKept_eq_false_iff]
  constructor
  · intro hdeclared
    -- were it kept, its key would be due, though it is redeclared
    by_contra hkept
    have hmem : some k ∈ ((shared.items?.getD []).filter fun p =>
        isAt k.2 p && isKept own p).map key? := by
      rw [← hk]
      refine List.mem_map_of_mem (List.mem_filter.mpr ⟨hp, ?_⟩)
      rw [hat, Bool.true_and]
      exact (Bool.not_eq_false _).mp hkept
    rw [← hkeys] at hmem
    obtain ⟨p', hp', hk'⟩ := List.mem_map.mp hmem
    have hnot := (Bool.and_eq_true_iff.mp (List.mem_filter.mp hp').2).2
    rw [Bool.not_eq_true', ← Bool.not_eq_true, isRedeclared_iff hk'] at hnot
    exact hnot hdeclared
  · intro hreplaced
    by_contra hdeclared
    -- all parameters with the key are due, so as many of them are kept as there are
    have hcount := congrArg (List.countP (· == some k)) hkeys
    rw [List.countP_map, List.countP_map, List.countP_filter, List.countP_filter] at hcount
    have hdue : ∀ q, (((· == some k) ∘ key?) q && (isAt k.2 q && !isRedeclared own q)) =
        (key? q == some k) := by
      intro q
      cases hq : key? q == some k with
      | false => simp [hq]
      | true =>
        have hq' := eq_of_beq hq
        have hnot : isRedeclared own q = false := by
          rw [← Bool.not_eq_true, isRedeclared_iff hq']
          exact hdeclared
        simp [hq', hnot, isAt]
    have hkept : ∀ q, (((· == some k) ∘ key?) q && (isAt k.2 q && isKept own q)) =
        (isKept own q && key? q == some k) := by
      intro q
      cases hq : key? q == some k with
      | false => simp [hq]
      | true => simp [eq_of_beq hq, isAt]
    simp only [hdue, hkept] at hcount
    rw [← List.countP_filter, List.countP_eq_length_filter] at hcount
    have hpkept := List.countP_eq_length.mp hcount.symm p
      (List.mem_filter.mpr ⟨hp, beq_iff_eq.mpr hk⟩)
    rw [hreplaced] at hpkept
    exact Bool.false_ne_true hpkept

theorem overrides_iff {ps : List Parameter} (h : (readAll shared own).result = .ok ps) :
    Overrides shared own (fun l => ps.filter fun p => p.location == l) ↔
      RedeclaredAsWritten shared own := by
  constructor
  · intro hdue
    refine redeclaredAsWritten_of_keys fun l => ?_
    have hkeys := keys_eq_of_forall₂ (hdue l) (forall₂_parametersAt h l)
    rw [List.map_append, List.map_append] at hkeys
    exact List.append_cancel_right hkeys
  · intro hwritten l
    rw [inheritedAt_eq hwritten]
    exact forall₂_parametersAt h l

end

end Parameter

namespace Operation

def Overrides (a : String × Entry) (op : Operation) : Prop :=
  Parameter.Overrides (a.2.item.field "parameters") (a.2.operation.field "parameters") op.parametersAt

def RedeclaredAsWritten (a : String × Entry) : Prop :=
  Parameter.RedeclaredAsWritten (a.2.item.field "parameters") (a.2.operation.field "parameters")

instance (a : String × Entry) : Decidable (RedeclaredAsWritten a) :=
  inferInstanceAs (Decidable (Parameter.RedeclaredAsWritten _ _))

theorem overrides_readEntry_iff {a : String × Entry} {op : Operation}
    (h : (readEntry a).result = .ok op) : Overrides a op ↔ RedeclaredAsWritten a := by
  obtain ⟨_, _, _, hparameters, _⟩ := readEntry_eq_ok h
  exact Parameter.overrides_iff hparameters

/-- The operations of a document have the parameters that are due if and only if these are redeclared as
they are written. -/
theorem overrides_collect_iff {d : Document} {keep : Bool} {ops : List Operation}
    (h : (collect d keep).result = .ok ops) :
    List.Forall₂ Overrides (accepted keep (entriesIn d)) ops ↔
      ∀ a ∈ accepted keep (entriesIn d), RedeclaredAsWritten a :=
  forall₂_iff_of_forall₂ (forall₂_collect h) fun _ _ => overrides_readEntry_iff

def filteredDocument : Document :=
  let named (name location : String) : Value :=
    .map [(.text "name", .scalar (.text name)), (.text "in", .scalar (.text location))]
  .ofValue (.map [(.text "paths", .map [(.text "/pets", .map [
    (.text "parameters", .seq [named "page" "query", .null, named "page" "header", named "size" "query",
      .map [(.text "name", .scalar (.text "sort"))], .map [(.text "in", .scalar (.text "query"))]]),
    (.text "get", .map [(.text "operationId", .scalar (.text "listPets")),
      (.text "parameters", .seq [named "tag" "query", named "page" "query",
        named "size" "body", .scalar (.text "sort")])])])])])

theorem overrides_filtered : ∃ ops, (collect filteredDocument false).result = .ok ops ∧
    List.Forall₂ Overrides (accepted false (entriesIn filteredDocument)) ops := by
  obtain ⟨ops, hops⟩ : ∃ ops, (collect filteredDocument false).result = .ok ops :=
    Run.exists_of_isOk (by decide +kernel)
  exact ⟨ops, hops, (overrides_collect_iff hops).mpr (by decide +kernel)⟩

/-- The own parameter says where it is passed, the one of the path item leaves it out. -/
def pageDocument : Document :=
  .ofValue (.map [(.text "paths", .map [(.text "/pets", .map [
    (.text "parameters", .seq [.map [(.text "name", .scalar (.text "page"))]]),
    (.text "get", .map [(.text "operationId", .scalar (.text "listPets")),
      (.text "parameters", .seq [.map [(.text "name", .scalar (.text "page")),
        (.text "in", .scalar (.text "query"))]])])])])])

theorem not_overrides_page : ∃ ops, (collect pageDocument false).result = .ok ops ∧
    ¬ List.Forall₂ Overrides (accepted false (entriesIn pageDocument)) ops := by
  obtain ⟨ops, hops⟩ : ∃ ops, (collect pageDocument false).result = .ok ops :=
    Run.exists_of_isOk (by decide +kernel)
  refine ⟨ops, hops, ?_⟩
  rw [forall₂_iff_of_forall₂ (forall₂_collect hops) fun _ _ => overrides_readEntry_iff]
  decide +kernel

end Operation

end ApiTypes
