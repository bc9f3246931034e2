import Mathlib.Data.List.Nodup
import ApiTypes.Proofs.Accepts
import ApiTypes.Proofs.Mapping

/-!
# Null in properties

Null is added to the type of a property where the type is marked as nullable. Which types are marked
depends on the kind of their schema: one that is put together from others, a list or an array loses
the mark that its schema has. `Schema.acceptsProperty_null_iff` says which properties accept null.
-/

namespace ApiTypes

/-! ## Last entries -/

theorem exists_of_forall₂_append {α β : Type} {R : α → β → Prop} {x : α} {before after : List α}
    {zs : List β} (h : List.Forall₂ R (before ++ x :: after) zs) :
    ∃ front z rest, zs = front ++ z :: rest ∧ R x z ∧ List.Forall₂ R after rest := by
  induction before generalizing zs with
  | nil =>
    cases h with
    | cons hz hrest => exact ⟨[], _, _, rfl, hz, hrest⟩
  | cons y before ih =>
    cases h with
    | cons _ h =>
      obtain ⟨front, z, rest, rfl, hz, hrest⟩ := ih h
      exact ⟨_ :: front, z, rest, rfl, hz, hrest⟩

namespace Table

variable {κ α : Type} [BEq κ] [LawfulBEq κ]

theorem mem_put_self (t : Table κ α) (k : κ) (v : α) : (k, v) ∈ put t k v := by
  induction t with
  | nil => exact List.mem_cons_self
  | cons e es ih =>
    by_cases h : e.1 == k
    · rw [put, if_pos h, eq_of_beq h]
      exact List.mem_cons_self
    · rw [put, if_neg h]
      exact List.mem_cons_of_mem _ ih

theorem mem_put_of_ne {t : Table κ α} {e : κ × α} {k : κ} (he : e ∈ t) (hne : e.1 ≠ k) (v : α) :
    e ∈ put t k v := by
  induction t with
  | nil => cases he
  | cons e' es ih =>
    by_cases h : e'.1 == k
    · rw [put, if_pos h]
      rcases List.mem_cons.mp he with rfl | he
      · exact absurd (eq_of_beq h) hne
      · exact List.mem_cons_of_mem _ he
    · rw [put, if_neg h]
      rcases List.mem_cons.mp he with rfl | he
      · exact List.mem_cons_self
      · exact List.mem_cons_of_mem _ (ih he)

theorem mem_ofList_iff {before after : List (κ × α)} {k : κ} {v : α}
    (hlast : ∀ e ∈ after, e.1 ≠ k) (w : α) :
    (k, w) ∈ ofList (before ++ (k, v) :: after) ↔ w = v := by
  have hfold : ∀ (after : List (κ × α)) (t : Table κ α), (∀ e ∈ after, e.1 ≠ k) → (k, v) ∈ t →
      (k, v) ∈ after.foldl (fun t e => put t e.1 e.2) t := by
    intro after
    induction after with
    | nil => intro t _ ht; exact ht
    | cons e after ih =>
      intro t hne ht
      obtain ⟨he, hne⟩ := List.forall_mem_cons.mp hne
      exact ih _ hne (mem_put_of_ne ht he.symm e.2)
  have hmem : (k, v) ∈ ofList (before ++ (k, v) :: after) := by
    rw [ofList, List.foldl_append, List.foldl_cons]
    exact hfold after _ hlast (mem_put_self _ k v)
  constructor
  · intro hw
    have := List.inj_on_of_nodup_map (nodup_keys_ofList (before ++ (k, v) :: after)) hw hmem rfl
    exact congrArg Prod.snd this
  · rintro rfl
    exact hmem

end Table

/-! ## Types that hold null -/

namespace TypeExpr

open TypeSyntax (Named HasType pathOf)

def nullNames : List String := ["any", "unknown", "null"]

mutual

def hasNull : TypeExpr → Bool
  | identifier _ name => nullNames.contains name
  | literal _ value =>
    match value.here with
    | .scalar .null => true
    | _ => false
  | union _ members => someHasNull members
  | intersection _ members => allHaveNull members
  | array .. | generic .. | object .. => false

def someHasNull : List TypeExpr → Bool
  | [] => false
  | t :: ts => t.hasNull || someHasNull ts

def allHaveNull : List TypeExpr → Bool
  | [] => true
  | t :: ts => t.hasNull && allHaveNull ts

end

theorem someHasNull_iff {ts : List TypeExpr} :
    someHasNull ts = true ↔ ∃ t ∈ ts, t.hasNull = true := by
  induction ts with
  | nil => simp [someHasNull]
  | cons t ts ih => simp [someHasNull, ih]

theorem allHaveNull_iff {ts : List TypeExpr} :
    allHaveNull ts = true ↔ ∀ t ∈ ts, t.hasNull = true := by
  induction ts with
  | nil => simp [allHaveNull]
  | cons t ts ih => simp [allHaveNull, ih]

theorem hasType_null_iff {word : String} : HasType word .null ↔ word ∈ nullNames := by
  unfold HasType nullNames
  split <;> simp_all

theorem eq_of_pathOf_eq {name : String} {cs : List Char} (h : pathOf name = [cs]) :
    name = String.ofList cs := by
  have := intercalate_pieces name.toList
  rw [← pathOf, h] at this
  rw [← String.ofList_toList (s := name), ← this]
  simp

theorem pathOf_nullName {name : String} (h : name ∈ nullNames) : pathOf name = [name.toList] := by
  revert name
  decide

theorem accepts_null_identifier {i : Info} {name : String} (h : name ∈ nullNames)
    (ρ : List Char → Datum → Prop) : (identifier i name).Accepts ρ .null := by
  have hopen : (name == openMap) = false := by
    revert name
    decide
  rw [Accepts, identifierSyntax, if_neg (by simp [hopen]), TypeSyntax.Accepts, pathOf_nullName h,
    Named, String.ofList_toList]
  exact hasType_null_iff.mpr h

theorem mem_nullNames_of_accepts {i : Info} {name : String}
    (h : (identifier i name).Accepts (fun _ _ => False) .null) : name ∈ nullNames := by
  rw [Accepts, identifierSyntax] at h
  split at h
  · obtain ⟨fs, hfs⟩ := h
    cases hfs
  · rw [TypeSyntax.Accepts] at h
    unfold Named at h
    split at h
    · rename_i word hpath
      rw [eq_of_pathOf_eq hpath]
      exact hasType_null_iff.mp h
    · exact h.2.2.elim
    · exact h.elim

theorem accepts_null_scalar_iff {s : Scalar} (ρ : List Char → Datum → Prop) :
    s.literalSyntax.Accepts ρ .null ↔ s = .null := by
  unfold Scalar.literalSyntax
  split
  · refine iff_of_false ?_ nofun
    rintro ⟨⟩
  · exact iff_of_true (TypeSyntax.named_word.mpr rfl) rfl
  · rename_i b
    refine iff_of_false (fun h => ?_) nofun
    have hword := TypeSyntax.named_word.mp h
    cases b <;> cases hword
  · rename_i hne _
    refine iff_of_false (fun h => ?_) hne
    unfold TypeSyntax.ofSigned at h
    split at h
    · obtain ⟨q, _, hq⟩ := h
      cases hq
    · obtain ⟨q, _, hq⟩ := h
      cases hq

theorem accepts_null_literal_iff {i : Info} {value : Document} (ρ : List Char → Datum → Prop) :
    (literal i value).Accepts ρ .null ↔ (literal i value).hasNull = true := by
  rw [Accepts, literalSyntax, hasNull]
  split
  · rename_i s hvalue
    rw [accepts_null_scalar_iff, hvalue]
    cases s <;> simp
  · rename_i hvalue
    refine iff_of_false id ?_
    split
    · rename_i hnull
      exact absurd hnull (hvalue _)
    · simp

/-- A type holds null if and only if it accepts null whatever the components accept. -/
theorem forall_accepts_null_iff {t : TypeExpr} :
    (∀ ρ, t.Accepts ρ .null) ↔ t.hasNull = true := by
  constructor
  · intro h
    -- where components accept nothing, no reference accepts null by chance
    replace h := h fun _ _ => False
    induction t with
    | identifier i name =>
      rw [hasNull, List.contains_iff_mem]
      exact mem_nullNames_of_accepts h
    | literal i value => exact (accepts_null_literal_iff _).mp h
    | array i t _ =>
      obtain ⟨items, hitems, _⟩ := h
      cases hitems
    | union i ts ih =>
      obtain ⟨t, ht, haccepts⟩ := acceptsSome_iff.mp h
      exact someHasNull_iff.mpr ⟨t, ht, ih t ht haccepts⟩
    | intersection i ts ih =>
      exact allHaveNull_iff.mpr fun t ht => ih t ht (acceptsEvery_iff.mp h t ht)
    | generic i base ts _ _ => exact h.elim
    | object i ps required _ =>
      obtain ⟨fs, hfs, _⟩ := h
      cases hfs
  · intro h ρ
    induction t with
    | identifier i name =>
      rw [hasNull, List.contains_iff_mem] at h
      exact accepts_null_identifier h ρ
    | literal i value => exact (accepts_null_literal_iff ρ).mpr h
    | union i ts ih =>
      obtain ⟨t, ht, hnull⟩ := someHasNull_iff.mp h
      exact acceptsSome_iff.mpr ⟨t, ht, ih t ht hnull⟩
    | intersection i ts ih =>
      exact acceptsEvery_iff.mpr fun t ht => ih t ht (allHaveNull_iff.mp h t ht)
    | _ => cases h

/-! ## Texts of properties -/

def typeWithNull (t : TypeExpr) : String :=
  if t.lacksNull then t.declared ++ " | null" else t.declared

def validatorWithNull (deferred : List String) (t : TypeExpr) : String :=
  t.validator deferred ++ if t.lacksNull then ".nullable()" else ""

theorem propertyText_eq (name : String) (required : Bool) (t : TypeExpr) :
    ∃ comment, propertyText name required t t.declared =
      comment ++ "    " ++ Name.propertyKey name ++ (if required then "" else "?") ++ ": " ++
        t.typeWithNull ++ ";" :=
  ⟨_, rfl⟩

theorem propertyValidator_eq (deferred : List String) (name : String) (required : Bool)
    (t : TypeExpr) : propertyValidator name required t (t.validator deferred) =
      Text.quoted name ++ ": " ++ t.validatorWithNull deferred ++
        (if required then "" else ".optional()") := by
  rw [propertyValidator, validatorWithNull, ← String.append_assoc]

theorem forall_acceptsProperty_null_iff {required : List String} {name : String} {t : TypeExpr} :
    (∀ ρ, AcceptsProperty ρ required (name, t) .null) ↔ t.lacksNull = true ∨ t.hasNull = true := by
  rw [← forall_accepts_null_iff]
  cases hnull : t.lacksNull with
  | true => simp [AcceptsProperty, hnull]
  | false => simp [AcceptsProperty, hnull]

end TypeExpr

/-! ## Marks -/

namespace Schema

/-- A schema is not opened where no level is left for it or where it stands inside itself. -/
def IsGuarded (room : Nat) (outer : List Nat) (s : Document) : Prop :=
  room = 0 ∨ s.cell?.any outer.contains = true

/-- The kinds of schemas that lose their mark: those with a list of schemas, kinds or values, and
arrays. -/
def IsCombined (s : Document) : Prop :=
  (∃ key ∈ ["enum", "anyOf", "oneOf", "allOf", "type"], (s.field key).items?.isSome = true) ∨
    s.fieldText? "type" = some "array"

instance (room : Nat) (outer : List Nat) (s : Document) : Decidable (IsGuarded room outer s) :=
  inferInstanceAs (Decidable (_ ∨ _))

instance (s : Document) : Decidable (IsCombined s) := inferInstanceAs (Decidable (_ ∨ _))

theorem lacksNull_of_info {t : TypeExpr} {s : Document} (hnull : (s.field "nullable").isTrue = true)
    (hinfo : t.info = info s) (hunion : t.isNullableUnion = false) : t.lacksNull = true := by
  rw [TypeExpr.lacksNull, hinfo, hunion]
  exact (Bool.and_true _).trans hnull

theorem IsCombined.of_items {s : Document} {key : String} {ds : List Document}
    (hkey : key ∈ ["enum", "anyOf", "oneOf", "allOf", "type"])
    (hds : (s.field key).items? = some ds) : IsCombined s :=
  .inl ⟨key, hkey, Option.isSome_iff_exists.mpr ⟨ds, hds⟩⟩

theorem isCombined_iff {s : Document} (henum : (s.field "enum").items? = none)
    (hchoice : ((s.field "anyOf").items? <|> (s.field "oneOf").items?) = none)
    (hall : (s.field "allOf").items? = none) (hkinds : (s.field "type").items? = none) :
    IsCombined s ↔ (s.field "type").text? = some "array" := by
  rw [Option.orElse_eq_orElse, Option.orElse_eq_or, Option.or_eq_none_iff] at hchoice
  refine or_iff_right ?_
  simp [henum, hchoice.1, hchoice.2, hall, hkinds]

theorem lacksNull_of_built {inner : Document → TypeExpr → Prop} {s : Document} {t : TypeExpr}
    (h : (layer s).Built inner t) (hnull : (s.field "nullable").isTrue = true) :
    t.lacksNull = true ↔ ¬ IsCombined s := by
  -- a node that carries the record of its schema lacks the null it asks for, others ask for none
  have hkept : ∀ {u : TypeExpr}, u.info = info s → u.isNullableUnion = false → ¬ IsCombined s →
      (u.lacksNull = true ↔ ¬ IsCombined s) :=
    fun hinfo hunion hside => iff_of_true (lacksNull_of_info hnull hinfo hunion) hside
  have hlost : ∀ {u : TypeExpr}, u.info = .none → IsCombined s →
      (u.lacksNull = true ↔ ¬ IsCombined s) := by
    intro u hinfo hside
    refine iff_of_false ?_ (not_not_intro hside)
    rw [TypeExpr.lacksNull, hinfo]
    exact Bool.false_ne_true
  unfold layer at h
  split at h
  · rename_i values hvalues
    cases h
    exact hlost rfl (.of_items (by simp) hvalues)
  rename_i henum
  split at h
  · rename_i parts hparts
    cases h
    rw [Option.orElse_eq_orElse, Option.orElse_eq_or, Option.or_eq_some_iff] at hparts
    rcases hparts with hparts | ⟨_, hparts⟩
    · exact hlost rfl (.of_items (by simp) hparts)
    · exact hlost rfl (.of_items (by simp) hparts)
  rename_i hchoice
  split at h
  · rename_i parts hparts
    cases h
    exact hlost rfl (.of_items (by simp) hparts)
  rename_i hall
  split at h
  · rename_i kinds hkinds
    cases h
    exact hlost rfl (.of_items (by simp) hkinds)
  rename_i hkinds
  have hcombined := isCombined_iff henum hchoice hall hkinds
  split at h
  · rename_i htype
    cases h
    exact hkept rfl rfl (by simp [hcombined, htype])
  · rename_i htype
    cases h
    exact hlost rfl (hcombined.mpr htype)
  · rename_i htype
    have hside : ¬ IsCombined s := by simp [hcombined, htype]
    split at h
    · cases h
      exact hkept rfl rfl hside
    · cases h
      exact hkept rfl rfl hside
  · rename_i harray _
    cases h
    exact hkept rfl rfl (mt hcombined.mp harray)

theorem lacksNull_typeAt_iff {room : Nat} {depth : Int} {outer : List Nat} {s : Document}
    {t : TypeExpr} (h : (typeAt room depth outer s).result = .ok t)
    (hs : s.entries?.isSome = true) (href : s.fieldText? "$ref" = none)
    (hnull : (s.field "nullable").isTrue = true) :
    t.lacksNull = true ↔ IsGuarded room outer s ∨ ¬ IsCombined s := by
  have hdirect : direct? s = none := by
    simp [direct?, Option.isSome_iff_ne_none.mp hs, href]
  have hkept : (unopened s).lacksNull = true := lacksNull_of_info hnull rfl rfl
  rw [typeAt_eq_layer, hdirect] at h
  dsimp only at h
  split at h
  · cases h
    exact iff_of_true hkept (.inl (.inl rfl))
  rename_i room
  split at h
  · rename_i hcell
    cases h
    exact iff_of_true hkept (.inl (.inr hcell))
  · rename_i hcell
    have hopen : ¬ IsGuarded (room + 1) outer s := by
      rintro (hroom | hguard)
      · cases hroom
      · exact hcell hguard
    rw [lacksNull_of_built (Layer.build_eq_ok.mp h) hnull]
    exact (or_iff_right hopen).symm

/-! ## Properties -/

theorem properties_typeAt {room : Nat} {depth : Int} {outer : List Nat} {s : Document}
    {i : Info} {ps : List (String × TypeExpr)} {required : List String}
    {entries : List (Scalar × Document)}
    (h : (typeAt room depth outer s).result = .ok (.object i ps required))
    (hentries : (s.field "properties").entries? = some entries) :
    ∃ table, ps = Table.ofList table ∧ List.Forall₂ (fun e p => e.1.written = .ok p.1 ∧
      (typeAt (room - 1) (depth + 1) (s.cell?.toList ++ outer) e.2).result = .ok p.2)
      entries table := by
  rw [typeAt_eq_layer] at h
  split at h
  · rename_i u hdirect
    cases h
    unfold direct? at hdirect
    split at hdirect
    · cases hdirect
    · obtain ⟨_, _, href⟩ := Option.map_eq_some_iff.mp hdirect
      cases href
  split at h
  · cases h
  split at h
  · cases h
  · cases mapped_of_built (Layer.build_eq_ok.mp h) with
    | object _ hentries' hps =>
      cases hentries.symm.trans hentries'
      exact ⟨_, rfl, hps⟩

section
variable {room : Nat} {depth : Int} {outer : List Nat} {s p : Document} {i : Info}
  {ps : List (String × TypeExpr)} {required : List String} {before after : List (Scalar × Document)}
  {key : Scalar} {name : String}

theorem property_typeAt (h : (typeAt room depth outer s).result = .ok (.object i ps required))
    (hentries : (s.field "properties").entries? = some (before ++ (key, p) :: after))
    (hkey : key.written = .ok name) (hlast : ∀ e ∈ after, e.1.written ≠ .ok name) :
    ∃ t, (∀ u, (name, u) ∈ ps ↔ u = t) ∧
      (typeAt (room - 1) (depth + 1) (s.cell?.toList ++ outer) p).result = .ok t := by
  obtain ⟨table, rfl, htable⟩ := properties_typeAt h hentries
  obtain ⟨front, ⟨name', t⟩, rest, rfl, ⟨hname, ht⟩, hrest⟩ := exists_of_forall₂_append htable
  rw [hkey] at hname
  cases hname
  refine ⟨t, Table.mem_ofList_iff ?_, ht⟩
  refine forall_of_forall₂_imp (hrest.imp fun e q hq he hqn => ?_) hlast
  exact he (hqn ▸ hq.1)

/-- Of the properties that are marked as nullable in their schemas, those accept null whose mark is
kept and those that hold null anyway. -/
theorem acceptsProperty_null_iff
    (h : (typeAt room depth outer s).result = .ok (.object i ps required))
    (hentries : (s.field "properties").entries? = some (before ++ (key, p) :: after))
    (hkey : key.written = .ok name) (hlast : ∀ e ∈ after, e.1.written ≠ .ok name)
    (hp : p.entries?.isSome = true) (href : p.fieldText? "$ref" = none)
    (hnull : (p.field "nullable").isTrue = true) :
    ∃ t, (∀ u, (name, u) ∈ ps ↔ u = t) ∧
      (IsGuarded (room - 1) (s.cell?.toList ++ outer) p ∨ ¬ IsCombined p →
        t.typeWithNull = t.declared ++ " | null" ∧
        ∀ deferred, t.validatorWithNull deferred = t.validator deferred ++ ".nullable()") ∧
      (¬ IsGuarded (room - 1) (s.cell?.toList ++ outer) p ∧ IsCombined p →
        t.typeWithNull = t.declared ∧
        ∀ deferred, t.validatorWithNull deferred = t.validator deferred) ∧
      ((∀ ρ, TypeExpr.AcceptsProperty ρ required (name, t) .null) ↔
        IsGuarded (room - 1) (s.cell?.toList ++ outer) p ∨ ¬ IsCombined p ∨
          t.hasNull = true) := by
  obtain ⟨t, hmem, ht⟩ := property_typeAt h hentries hkey hlast
  have hkept := lacksNull_typeAt_iff ht hp href hnull
  refine ⟨t, hmem, fun hside => ?_, fun hside => ?_, ?_⟩
  · have hlacks := hkept.mpr hside
    simp [TypeExpr.typeWithNull, TypeExpr.validatorWithNull, hlacks]
  · have hlacks : ¬ t.lacksNull = true := fun hlacks =>
      (hkept.mp hlacks).elim hside.1 fun h => h hside.2
    simp [TypeExpr.typeWithNull, TypeExpr.validatorWithNull, hlacks]
  · rw [TypeExpr.forall_acceptsProperty_null_iff, hkept, or_assoc]

end

def nullableSchema (kind : String) : Document :=
  .ofValue (.map [(.text "type", .scalar (.text "object")), (.text "properties", .map [
    (.text "tag", .map [(.text "type", .scalar (.text kind)),
      (.text "nullable", .scalar (.bool true))])])])

theorem acceptsProperty_null_string :
    ∃ ps, (typeOf (nullableSchema "string")).result = .ok (.object .none ps []) ∧
      ∃ t, ("tag", t) ∈ ps ∧ t.typeWithNull = t.declared ++ " | null" ∧
        ∀ ρ, TypeExpr.AcceptsProperty ρ [] ("tag", t) .null := by
  have h : (typeOf (nullableSchema "string")).result =
      .ok (.object .none [("tag", .identifier ⟨none, none, true⟩ "string")] []) := by rfl
  have hentries : ((nullableSchema "string").field "properties").entries? =
      some ([] ++ (.text "tag", .ofValue (.map [(.text "type", .scalar (.text "string")),
        (.text "nullable", .scalar (.bool true))])) :: []) := by rfl
  obtain ⟨t, hmem, hkept, _, hnull⟩ :=
    acceptsProperty_null_iff h hentries rfl (by simp) rfl rfl rfl
  refine ⟨_, h, t, (hmem t).mpr rfl, (hkept ?_).1, hnull.mpr (.inr (.inl ?_))⟩
  · exact .inr (by decide)
  · decide

theorem not_acceptsProperty_null_array : ∃ t,
    (typeOf (nullableSchema "array")).result = .ok (.object .none [("tag", t)] []) ∧
    t.typeWithNull = "any[]" ∧ t.validatorWithNull [] = "z.array(z.any())" ∧
    ∀ ρ, ¬ TypeExpr.AcceptsProperty ρ [] ("tag", t) .null := by
  refine ⟨.array .none .any, by rfl, by decide, by decide, fun ρ h => ?_⟩
  rcases h with ⟨_, h⟩ | ⟨h, _⟩ | ⟨items, h, _⟩
  · cases h
  · cases h
  · cases h

end Schema

end ApiTypes
