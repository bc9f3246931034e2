import ApiTypes.Component.Basic
import ApiTypes.Proofs.Layers
import ApiTypes.Proofs.Validator

/-!
# What schemas become

`Mapped inner s t` lists the ways in which a schema `s` becomes the type `t`, where `inner` relates
the schemas inside `s` to their types. Every type that a schema is mapped to arises so, step by step.
-/

namespace ApiTypes

theorem forall_of_forall₂ {α β : Type} {p : β → Prop} {xs : List α} {ys : List β}
    (h : List.Forall₂ (fun _ y => p y) xs ys) : ∀ y ∈ ys, p y := by
  induction h with
  | nil => simp
  | cons hy _ ih => exact List.forall_mem_cons.mpr ⟨hy, ih⟩

theorem forall_of_forall₂_imp {α β : Type} {p : α → Prop} {q : β → Prop} {xs : List α}
    {ys : List β} (h : List.Forall₂ (fun x y => p x → q y) xs ys) (hxs : ∀ x ∈ xs, p x) :
    ∀ y ∈ ys, q y := by
  have hboth := (List.forall₂_and_left xs ys).mpr ⟨hxs, h⟩
  exact forall_of_forall₂ (hboth.imp fun _ _ h => h.2 h.1)

theorem forall_iff_of_forall₂ {α β : Type} {R : α → β → Prop} {p : α → Prop} {q : β → Prop}
    {xs : List α} {ys : List β} (h : List.Forall₂ R xs ys)
    (hiff : ∀ x, ∀ y ∈ ys, R x y → (p x ↔ q y)) : (∀ x ∈ xs, p x) ↔ ∀ y ∈ ys, q y := by
  induction h with
  | nil => simp
  | cons hxy _ ih =>
    rw [List.forall_mem_cons, List.forall_mem_cons, hiff _ _ List.mem_cons_self hxy,
      ih fun x y hy => hiff x y (List.mem_cons_of_mem _ hy)]

section
variable {α β γ : Type} {xs : List α} {ys : List β}

theorem forall₂_comp {zs : List γ} {R : α → β → Prop} {S : β → γ → Prop} {T : α → γ → Prop}
    (hcomp : ∀ x y z, R x y → S y z → T x z) (hxy : List.Forall₂ R xs ys)
    (hyz : List.Forall₂ S ys zs) : List.Forall₂ T xs zs := by
  induction hxy generalizing zs with
  | nil =>
    cases hyz
    exact .nil
  | cons hR _ ih =>
    cases hyz with
    | cons hS hyz => exact .cons (hcomp _ _ _ hR hS) (ih hyz)

theorem map_congr_forall₂ {f : α → γ} {g : β → γ}
    (h : List.Forall₂ (fun x y => f x = g y) xs ys) : xs.map f = ys.map g := by
  induction h with
  | nil => rfl
  | cons hxy _ ih => rw [List.map_cons, List.map_cons, hxy, ih]

theorem filterMap_congr_forall₂ {f : α → Option γ} {g : β → Option γ}
    (h : List.Forall₂ (fun x y => f x = g y) xs ys) : xs.filterMap f = ys.filterMap g := by
  induction h with
  | nil => rfl
  | cons hxy _ ih => rw [List.filterMap_cons, List.filterMap_cons, hxy, ih]

end

namespace Schema

/-- The lists of schemas that a schema puts side by side. -/
inductive Parts (s : Document) : List Document → Prop
  | listed {key parts} : (s.field key).items? = some parts → Parts s parts
  | kinds {kinds} : (s.field "type").items? = some kinds →
      Parts s (kinds.map fun k => s.setField "type" k.here)

inductive Mapped (inner : Document → TypeExpr → Prop) (s : Document) : TypeExpr → Prop
  | any : s.entries? = none → Mapped inner s .any
  | reference {ref} : s.fieldText? "$ref" = some ref → Mapped inner s (referenceType ref)
  | unopened : Mapped inner s (unopened s)
  | literals {values} : (s.field "enum").items? = some values →
      Mapped inner s (.union .none (values.map (.literal .none)))
  | union {parts ts} : Parts s parts → List.Forall₂ inner parts ts →
      Mapped inner s (.union .none ts)
  | intersection {parts ts} : Parts s parts → List.Forall₂ inner parts ts →
      Mapped inner s (.intersection .none ts)
  | null : Mapped inner s (.identifier (info s) "null")
  | array {t} : inner (s.field "items") t → Mapped inner s (.array .none t)
  | object {entries ps} (required) : (s.field "properties").entries? = some entries →
      List.Forall₂ (fun e p => e.1.written = .ok p.1 ∧ inner e.2 p.2) entries ps →
      Mapped inner s (.ofProperties (info s) ps required)

theorem Mapped.imp {inner inner' : Document → TypeExpr → Prop} {s : Document} {t : TypeExpr}
    (h : Mapped inner s t) (himp : ∀ s t, inner s t → inner' s t) : Mapped inner' s t := by
  cases h with
  | any h => exact .any h
  | reference h => exact .reference h
  | unopened => exact .unopened
  | literals h => exact .literals h
  | union hparts h => exact .union hparts (h.imp himp)
  | intersection hparts h => exact .intersection hparts (h.imp himp)
  | null => exact .null
  | array h => exact .array (himp _ _ h)
  | object required h hps => exact .object required h (hps.imp fun _ _ h => ⟨h.1, himp _ _ h.2⟩)

/-! ## Steps -/

theorem mapped_direct {inner : Document → TypeExpr → Prop} {s : Document} {t : TypeExpr}
    (h : direct? s = some t) : Mapped inner s t := by
  unfold direct? at h
  split at h
  · rename_i hs
    cases h
    exact .any (by simpa using hs)
  · obtain ⟨_, href, rfl⟩ := Option.map_eq_some_iff.mp h
    exact .reference href

theorem mapped_of_built {inner : Document → TypeExpr → Prop} {s : Document} {t : TypeExpr}
    (h : (layer s).Built inner t) : Mapped inner s t := by
  unfold layer at h
  split at h
  · rename_i values hvalues
    cases h
    exact .literals hvalues
  split at h
  · rename_i parts hparts
    cases h with
    | union hts =>
      refine .union ?_ hts
      -- `oneOf` counts where `anyOf` is no list
      rw [Option.orElse_eq_orElse, Option.orElse_eq_or, Option.or_eq_some_iff] at hparts
      rcases hparts with hparts | ⟨_, hparts⟩
      · exact .listed hparts
      · exact .listed hparts
  split at h
  · rename_i parts hparts
    cases h with
    | intersection hts => exact .intersection (.listed hparts) hts
  split at h
  · rename_i kinds hkinds
    cases h with
    | union hts => exact .union (.kinds hkinds) hts
  split at h
  · cases h
    exact .null
  · cases h with
    | array ht => exact .array ht
  · split at h
    · cases h
      exact .unopened
    · rename_i entries hentries
      cases h with
      | object hps => exact .object _ hentries hps
  · cases h
    exact .unopened

/-- What a schema becomes comes from what the schemas inside it become with less room. -/
theorem mapped_typeAt {room : Nat} {depth : Int} {outer : List Nat} {s : Document} {t : TypeExpr}
    (h : (typeAt room depth outer s).result = .ok t) :
    Mapped (fun s' u => ∃ room' < room, ∃ depth' outer',
      (typeAt room' depth' outer' s').result = .ok u) s t := by
  rw [typeAt_eq_layer] at h
  split at h
  · rename_i u hdirect
    cases h
    exact mapped_direct hdirect
  split at h
  · cases h
    exact .unopened
  · rename_i room
    split at h
    · cases h
      exact .unopened
    · refine (mapped_of_built (Layer.build_eq_ok.mp h)).imp fun s' u hu => ?_
      exact ⟨room, Nat.lt_succ_self _, _, _, hu⟩

/-- What every step of a mapping keeps holds of all types that schemas are mapped to. -/
theorem typeAt_induction {motive : Document → TypeExpr → Prop}
    (step : ∀ s t, Mapped motive s t → motive s t) {room : Nat} {depth : Int} {outer : List Nat}
    {s : Document} {t : TypeExpr} (h : (typeAt room depth outer s).result = .ok t) :
    motive s t := by
  induction room using Nat.strongRecOn generalizing depth outer s t with
  | ind room ih =>
    apply step
    refine (mapped_typeAt h).imp ?_
    rintro s' u ⟨room', hroom, depth', outer', hu⟩
    exact ih room' hroom hu

/-! ## Names -/

theorem isWordChar_sanitize (s : String) :
    ∀ c ∈ (Name.sanitize s).toList, Name.isWordChar c = true := by
  intro c hc
  rw [Name.sanitize, String.toList_map, List.mem_map] at hc
  obtain ⟨d, _, rfl⟩ := hc
  split
  · assumption
  · decide

theorem isNameChar_of_isWordChar {c : Char} (h : Name.isWordChar c = true) :
    Lexeme.isNameChar c = true := by
  rw [Name.isWordChar, Bool.or_eq_true] at h
  rw [Lexeme.isNameChar]
  rcases h with h | h <;> simp [h]

theorem lastSegment_ne_empty (s : String) : Name.lastSegment s ≠ "" := by
  unfold Name.lastSegment
  split
  · decide
  · decide
  · rename_i cs hne _
    intro h
    have hnil : cs = [] := by simpa using h
    exact hne (by simp_all)

theorem sanitize_eq_empty_iff {s : String} : Name.sanitize s = "" ↔ s = "" := by
  rw [← String.toList_eq_nil_iff, Name.sanitize, String.toList_map, List.map_eq_nil_iff,
    String.toList_eq_nil_iff]

theorem isComponentName_sanitize {s : String} (h : s ≠ "") : IsComponentName (Name.sanitize s) :=
  ⟨mt sanitize_eq_empty_iff.mp h,
    fun c hc => isNameChar_of_isWordChar (isWordChar_sanitize s c hc)⟩

theorem hasTypeNames_identifier {i : Info} {name : String} (h : IsTypeName name) :
    (TypeExpr.identifier i name).HasTypeNames := by
  intro j n hn
  cases hn
  exact h

theorem exists_unopened (s : Document) :
    ∃ name ∈ ["string", "number", "boolean", "any", TypeExpr.openMap],
      unopened s = .identifier (info s) name := by
  unfold unopened
  cases h : (s.fieldText? "type").bind kindType? with
  | none => exact ⟨_, by decide, rfl⟩
  | some name =>
    obtain ⟨kind, _, hkind⟩ := Option.bind_eq_some_iff.mp h
    refine ⟨name, ?_, rfl⟩
    unfold kindType? at hkind
    split at hkind
    · cases hkind
      decide
    split at hkind
    · cases hkind
      decide
    split at hkind
    · cases hkind
      decide
    split at hkind
    · cases hkind
      decide
    · cases hkind

theorem hasTypeNames_unopened (s : Document) : (unopened s).HasTypeNames := by
  obtain ⟨name, hname, hs⟩ := exists_unopened s
  have hbasic : ∀ name ∈ ["string", "number", "boolean", "any", TypeExpr.openMap],
      name ∈ TypeExpr.primitives ∨ name = TypeExpr.openMap := by decide
  rw [hs]
  apply hasTypeNames_identifier
  rcases hbasic name hname with h | rfl
  · exact .primitive h
  · exact .openMap

theorem hasTypeNames_typeAt {room : Nat} {depth : Int} {outer : List Nat} {s : Document}
    {t : TypeExpr} (h : (typeAt room depth outer s).result = .ok t) : t.HasTypeNames := by
  refine typeAt_induction (motive := fun _ t => t.HasTypeNames) ?_ h
  intro s t h
  cases h with
  | any _ => exact hasTypeNames_identifier (.primitive (by decide))
  | reference _ =>
    exact hasTypeNames_identifier (.component (isComponentName_sanitize (lastSegment_ne_empty _)))
  | unopened => exact hasTypeNames_unopened s
  | literals _ =>
    refine ⟨by simp, TypeExpr.everyMember_iff.mpr ?_⟩
    intro t ht
    obtain ⟨value, _, rfl⟩ := List.mem_map.mp ht
    intro i name hname
    cases hname
  | union _ hts => exact ⟨by simp, TypeExpr.everyMember_iff.mpr (forall_of_forall₂ hts)⟩
  | intersection _ hts => exact ⟨by simp, TypeExpr.everyMember_iff.mpr (forall_of_forall₂ hts)⟩
  | null => exact hasTypeNames_identifier (.primitive (by decide))
  | array ht => exact ⟨by simp, ht⟩
  | object required _ hps =>
    refine ⟨by simp, TypeExpr.everyProperty_iff.mpr (Table.forall_ofList ?_)⟩
    exact forall_of_forall₂ (hps.imp fun _ _ h => h.2)

theorem description_typeAt {room : Nat} {depth : Int} {outer : List Nat} {s : Document}
    {t : TypeExpr} (h : (typeAt room depth outer s).result = .ok t) :
    t.info.description = none ∨ t.info.description = s.fieldText? "description" := by
  cases mapped_typeAt h with
  | any _ => exact .inl rfl
  | reference _ => exact .inl rfl
  | unopened => exact .inr rfl
  | literals _ => exact .inl rfl
  | union _ _ => exact .inl rfl
  | intersection _ _ => exact .inl rfl
  | null => exact .inr rfl
  | array _ => exact .inl rfl
  | object _ _ _ => exact .inr rfl

end Schema

/-! ## Components -/

namespace Component

structure ReadFrom (e : Scalar × Document) (c : Component) : Prop where
  name : ∃ key, e.1.written = .ok key ∧ c.name = Name.sanitize key
  type : (Schema.typeOf e.2).result = .ok c.type
  description : c.description = e.2.fieldText? "description"

/-- The components that entries are read to where some names are taken: an entry whose name is taken is
skipped. -/
inductive Reads : List String → List (Scalar × Document) → List Component → Prop
  | nil {taken} : Reads taken [] []
  | skip {taken e entries cs key} : e.1.written = .ok key → Name.sanitize key ∈ taken →
      Reads taken entries cs → Reads taken (e :: entries) cs
  | take {taken e entries c cs} : ReadFrom e c → c.name ∉ taken →
      Reads (c.name :: taken) entries cs → Reads taken (e :: entries) (c :: cs)

theorem readEntries_eq_ok {taken : List String} {entries : List (Scalar × Document)}
    {cs : List Component} : (readEntries taken entries).result = .ok cs ↔ Reads taken entries cs := by
  constructor
  · intro h
    induction entries generalizing taken cs with
    | nil =>
      cases h
      exact .nil
    | cons e entries ih =>
      obtain ⟨key, hkey, h⟩ := Run.bind_eq_ok.mp h
      have hwritten := Run.ofWritten_eq_ok.mp hkey
      dsimp only at h
      split at h
      · rename_i hname
        -- a name that is taken is skipped with a warning
        obtain ⟨_, _, h⟩ := Run.bind_eq_ok.mp h
        exact .skip hwritten (List.contains_iff_mem.mp hname) (ih h)
      · rename_i hname
        obtain ⟨t, ht, h⟩ := Run.bind_eq_ok.mp h
        obtain ⟨rest, hrest, h⟩ := Run.bind_eq_ok.mp h
        cases h
        exact .take ⟨⟨key, hwritten, rfl⟩, ht, rfl⟩ (mt List.contains_iff_mem.mpr hname) (ih hrest)
  · intro h
    induction h with
    | nil => rfl
    | skip hkey hname _ ih =>
      refine Run.bind_eq_ok.mpr ⟨_, Run.ofWritten_eq_ok.mpr hkey, ?_⟩
      dsimp only
      rw [if_pos (List.contains_iff_mem.mpr hname)]
      exact Run.bind_eq_ok.mpr ⟨(), rfl, ih⟩
    | @take taken e entries c cs hfrom hname _ ih =>
      obtain ⟨key, hkey, hc⟩ := hfrom.name
      rw [hc] at hname ih
      refine Run.bind_eq_ok.mpr ⟨key, Run.ofWritten_eq_ok.mpr hkey, ?_⟩
      dsimp only
      rw [if_neg (mt List.contains_iff_mem.mp hname)]
      refine Run.bind_eq_ok.mpr ⟨_, hfrom.type, Run.bind_eq_ok.mpr ⟨cs, ih, ?_⟩⟩
      rw [← hc, ← hfrom.description]
      rfl

theorem readFrom_readEntries {taken : List String} {entries : List (Scalar × Document)}
    {cs : List Component} (h : (readEntries taken entries).result = .ok cs) :
    (∀ c ∈ cs, (∃ e ∈ entries, ReadFrom e c) ∧ c.name ∉ taken) ∧ (cs.map (·.name)).Nodup := by
  have hreads := readEntries_eq_ok.mp h
  clear h
  induction hreads with
  | nil => simp
  | skip _ _ _ ih =>
    refine ⟨fun c hc => ⟨?_, (ih.1 c hc).2⟩, ih.2⟩
    obtain ⟨e, he, hfrom⟩ := (ih.1 c hc).1
    exact ⟨e, List.mem_cons_of_mem _ he, hfrom⟩
  | @take taken e entries c cs hfrom hname _ ih =>
    refine ⟨List.forall_mem_cons.mpr ⟨⟨⟨e, List.mem_cons_self, hfrom⟩, hname⟩, fun d hd => ?_⟩, ?_⟩
    · obtain ⟨⟨f, hf, hfrom⟩, hnew⟩ := ih.1 d hd
      exact ⟨⟨f, List.mem_cons_of_mem _ hf, hfrom⟩, fun hm => hnew (List.mem_cons_of_mem _ hm)⟩
    · rw [List.map_cons, List.nodup_cons]
      refine ⟨fun hm => ?_, ih.2⟩
      obtain ⟨d, hd, hsame⟩ := List.mem_map.mp hm
      exact (ih.1 d hd).2 (hsame ▸ List.mem_cons_self)

end Component

end ApiTypes
