import ApiTypes.Proofs.ComponentOrder
import ApiTypes.Proofs.Declarations
import ApiTypes.Proofs.Occurrences

/-!
# References that are deferred

In the validators of components `z.lazy` defers the references between components of one group. A group
is a cycle of mentions, and where no component has the name of a type that is mentioned without the
namespace of the components, these are the references through the namespace.
-/

namespace ApiTypes

theorem eq_of_componentName {n name : String} (h : componentName n = name) :
    n = componentPath name ∨ n = name := by
  unfold componentName at h
  dsimp only at h
  split at h
  · rename_i hscope
    obtain ⟨rest, hrest⟩ := List.isPrefixOf_iff_prefix.mp hscope
    left
    rw [← hrest, List.drop_left] at h
    rw [← String.toList_inj, ← hrest, ← h]
    simp [componentPath]
  · exact .inr h

namespace Component

/-- The type of the component of the first name refers to the second one through the namespace of the
components. -/
def Links (cs : List Component) (x y : String) : Prop :=
  ∃ c ∈ cs, c.name = x ∧ componentPath y ∈ c.type.names

def LeadsTo (cs : List Component) : String → String → Prop := Relation.ReflTransGen (Links cs)

/-- The text with the validators has one constant per component, and in the constant of `a` a reference
to `b` is deferred at all its places if `R` holds of `b` and `a`, and at none otherwise. -/
def DefersBy (cs : List Component) (R : String → String → Prop) : Prop :=
  ∃ ds, Declaration.read? (Lexeme.ofText (validatorsText cs)) = some ds ∧
    (ds.map (·.1)).Perm (cs.map fun c => (TypeExpr.validatorName c.name).toList) ∧
    (ds.map (·.1)).Nodup ∧
    ∀ a ∈ cs, ∀ e, ((TypeExpr.validatorName a.name).toList, e) ∈ ds →
      ∀ b ∈ cs, componentPath b.name ∈ a.type.names →
        ∀ deferred, e.Occurs b.name deferred ↔ (deferred = true ↔ R b.name a.name)

/-- Where mentions lead back from a reference, references do so, too. -/
def CyclesAreLinks (cs : List Component) : Prop :=
  ∀ a ∈ cs, ∀ b ∈ cs, componentPath b.name ∈ a.type.names →
    NameReaches cs b.name a.name → LeadsTo cs b.name a.name

variable {components : Document} {cs : List Component}

theorem leadsTo_listed {x y : String} (h : LeadsTo cs x y) (hy : y ∈ listedNames cs) :
    x ∈ listedNames cs := by
  rcases h.cases_head with rfl | ⟨_, ⟨c, hc, rfl, _⟩, _⟩
  · exact hy
  · exact List.mem_eraseDups.mpr (List.mem_map_of_mem hc)

section
variable (hnodup : (cs.map (·.name)).Nodup)
include hnodup

theorem nameRefers_of_links {x y : String} (h : Links cs x y) (hy : y ∈ listedNames cs) :
    NameRefers cs x y := by
  obtain ⟨c, hc, rfl, hpath⟩ := h
  refine ⟨hy, c, (last?_eq_some_iff hnodup).mpr ⟨hc, rfl⟩, ?_⟩
  rw [TypeExpr.references_eq]
  exact List.mem_map.mpr ⟨_, hpath, componentName_path y⟩

theorem nameReaches_of_leadsTo {x y : String} (h : LeadsTo cs x y) (hy : y ∈ listedNames cs) :
    NameReaches cs x y := by
  induction h using Relation.ReflTransGen.head_induction_on with
  | refl => exact .refl
  | head hlink hrest ih => exact .head (nameRefers_of_links hnodup hlink (leadsTo_listed hrest hy)) ih

end

section
variable (h : (collect components).result = .ok cs)
include h

theorem hasNames_collect {c : Component} (hc : c ∈ cs) : c.HasNames ∧ c.type.LacksGenerics := by
  obtain ⟨⟨e, _, he⟩, _⟩ := (readFrom_readEntries h).1 c hc
  exact ⟨hasNames_readFrom he, Schema.lacksGenerics_typeAt he.type⟩

theorem read_collect :
    Declaration.read? (Lexeme.ofText (validatorsText cs)) =
      some ((groups cs).flatMap groupConstants) ∧
    (((groups cs).flatMap groupConstants).map (·.1)).Perm
      (cs.map fun c => Expression.constantName c.name) ∧
    (((groups cs).flatMap groupConstants).map (·.1)).Nodup := by
  have hnodup := (readFrom_readEntries h).2
  have hgroups := flatten_groups_perm cs
  rw [distinct_of_nodup hnodup] at hgroups
  have hperm : (((groups cs).flatMap groupConstants).map (·.1)).Perm
      (cs.map fun c => Expression.constantName c.name) := by
    rw [names_groupConstants]
    exact hgroups.map _
  refine ⟨read_validators fun c hc => (hasNames_collect h (hgroups.mem_iff.mp hc)).1, hperm, ?_⟩
  have hconstants := hnodup.map_on (f := fun n => Expression.constantName n)
    fun a _ b _ hab => Expression.constantName_inj.mp hab
  rw [List.map_map] at hconstants
  exact hperm.nodup_iff.mpr hconstants

/-- In the validator of a component the references are deferred from which mentions lead back to it. -/
theorem occurs_collect {a b : Component} (ha : a ∈ cs) (hb : b ∈ cs)
    (href : componentPath b.name ∈ a.type.names) {e : Expression}
    (he : (Expression.constantName a.name, e) ∈ (groups cs).flatMap groupConstants)
    (deferred : Bool) :
    e.Occurs b.name deferred ↔ (deferred = true ↔ NameReaches cs b.name a.name) := by
  have hnodup := (readFrom_readEntries h).2
  obtain ⟨g, hg, he⟩ := List.mem_flatMap.mp he
  obtain ⟨c, hc, heq⟩ := List.mem_map.mp he
  obtain ⟨hname, rfl⟩ := Prod.mk.inj heq
  obtain rfl : c = a := List.inj_on_of_nodup_map hnodup (mem_of_mem_groups hg hc) ha
    (Expression.constantName_inj.mp hname)
  obtain ⟨hnames, hgenerics⟩ := hasNames_collect h ha
  have hlisted : b.name ∈ listedNames cs := List.mem_eraseDups.mpr (List.mem_map_of_mem hb)
  have hrefers := nameRefers_of_links hnodup ⟨c, ha, rfl, href⟩ hlisted
  rw [TypeExpr.occurs_expression hnames.2 hgenerics, mem_names_group hg hc, mem_cycleOf,
    and_iff_right href, and_iff_right hlisted, and_iff_right (.single hrefers)]

theorem defersBy_iff {R : String → String → Prop} : DefersBy cs R ↔
    ∀ a ∈ cs, ∀ b ∈ cs, componentPath b.name ∈ a.type.names →
      (NameReaches cs b.name a.name ↔ R b.name a.name) := by
  obtain ⟨hread, hperm, hnodup⟩ := read_collect h
  constructor
  · rintro ⟨ds, hds, _, _, hdefers⟩ a ha b hb href
    obtain rfl := Option.some.inj (hread.symm.trans hds)
    have hconstant := List.mem_map_of_mem (f := fun c => Expression.constantName c.name) ha
    obtain ⟨⟨n, e⟩, he, hn⟩ := List.mem_map.mp (hperm.mem_iff.mpr hconstant)
    obtain rfl : n = Expression.constantName a.name := hn
    have hcode := occurs_collect h ha hb href he true
    rw [hdefers a ha e he b hb href] at hcode
    simpa using hcode.symm
  · intro hR
    refine ⟨_, hread, hperm, hnodup, fun a ha e he b hb href deferred => ?_⟩
    rw [occurs_collect h ha hb href he, hR a ha b hb href]

theorem links_of_nameRefers (hplain : ∀ a ∈ cs, ∀ c ∈ cs, c.name ∉ a.type.names) {x y : String}
    (hrefers : NameRefers cs x y) : Links cs x y := by
  obtain ⟨hy, c, hlast, href⟩ := hrefers
  obtain ⟨hc, hname⟩ := (last?_eq_some_iff (readFrom_readEntries h).2).mp hlast
  obtain ⟨d, hd, rfl⟩ := List.mem_map.mp (List.mem_eraseDups.mp hy)
  rw [TypeExpr.references_eq] at href
  obtain ⟨n, hn, hcomponent⟩ := List.mem_map.mp href
  rcases eq_of_componentName hcomponent with rfl | rfl
  · exact ⟨c, hc, hname, hn⟩
  · exact absurd hn (hplain c hc d hd)

theorem cyclesAreLinks_of_plain (hplain : ∀ a ∈ cs, ∀ c ∈ cs, c.name ∉ a.type.names) :
    CyclesAreLinks cs := by
  intro a _ b _ _ hreaches
  exact Relation.ReflTransGen.mono (fun _ _ => links_of_nameRefers h hplain) _ _ hreaches

theorem defersBy_leadsTo_iff : DefersBy cs (LeadsTo cs) ↔ CyclesAreLinks cs := by
  rw [defersBy_iff h]
  refine forall₂_congr fun a ha => forall₂_congr fun b _ => forall_congr' fun _ => ?_
  have hlisted : a.name ∈ listedNames cs := List.mem_eraseDups.mpr (List.mem_map_of_mem ha)
  exact ⟨Iff.mp, fun hback =>
    ⟨hback, fun hleads => nameReaches_of_leadsTo (readFrom_readEntries h).2 hleads hlisted⟩⟩

/-- A reference is deferred if and only if mentions lead back from it. References lead back from each
that is deferred if and only if every cycle of mentions is one of references, and so they do where no
component has the name of a type that is mentioned without the namespace. -/
theorem defersBy_collect : DefersBy cs (NameReaches cs) ∧
    (DefersBy cs (LeadsTo cs) ↔ CyclesAreLinks cs) ∧
    ((∀ a ∈ cs, ∀ c ∈ cs, c.name ∉ a.type.names) → CyclesAreLinks cs) :=
  ⟨(defersBy_iff h).mpr fun _ _ _ _ _ => .rfl, defersBy_leadsTo_iff h, cyclesAreLinks_of_plain h⟩

end

def treeSchemas : Document :=
  let reference (name : String) : Value :=
    .map [(.text "$ref", .scalar (.text ("#/components/schemas/" ++ name)))]
  .ofValue (.map [(.text "schemas", .map [
    (.text "Tree", .map [(.text "anyOf", .seq [reference "Leaf",
      .map [(.text "type", .scalar (.text "array")), (.text "items", reference "Tree")]])]),
    (.text "Leaf", .map [(.text "type", .scalar (.text "string"))])])])

theorem defersBy_tree : ∃ tree leaf,
    (collect treeSchemas).result = .ok [⟨"Tree", tree, none⟩, ⟨"Leaf", leaf, none⟩] ∧
    DefersBy [⟨"Tree", tree, none⟩, ⟨"Leaf", leaf, none⟩]
      (LeadsTo [⟨"Tree", tree, none⟩, ⟨"Leaf", leaf, none⟩]) := by
  have h : (collect treeSchemas).result = .ok [
      ⟨"Tree", .union .none [.identifier .none "Components.Schemas.Leaf",
        .array .none (.identifier .none "Components.Schemas.Tree")], none⟩,
      ⟨"Leaf", .identifier .none "string", none⟩] := by cbv
  obtain ⟨_, hexact, hlinks⟩ := defersBy_collect h
  exact ⟨_, _, h, hexact.mpr (hlinks (by decide))⟩

/-- The schema `string` refers to `A`, which mentions only the type of this name. -/
def stringSchemas : Document :=
  .ofValue (.map [(.text "schemas", .map [
    (.text "A", .map [(.text "type", .scalar (.text "string"))]),
    (.text "string", .map [(.text "allOf", .seq [
      .map [(.text "$ref", .scalar (.text "#/components/schemas/A"))]])])])])

/-- No reference leads back from `A`, yet the one to it is deferred. -/
theorem not_defersBy_string : ∃ a string,
    (collect stringSchemas).result = .ok [⟨"A", a, none⟩, ⟨"string", string, none⟩] ∧
    ¬ DefersBy [⟨"A", a, none⟩, ⟨"string", string, none⟩]
      (LeadsTo [⟨"A", a, none⟩, ⟨"string", string, none⟩]) := by
  have h : (collect stringSchemas).result = .ok [
      ⟨"A", .identifier .none "string", none⟩,
      ⟨"string", .intersection .none [.identifier .none "Components.Schemas.A"], none⟩] := by cbv
  refine ⟨_, _, h, fun hdefers => ?_⟩
  have hmention : NameRefers [⟨"A", .identifier .none "string", none⟩,
      ⟨"string", .intersection .none [.identifier .none "Components.Schemas.A"], none⟩]
      "A" "string" := by
    refine ⟨by decide, ⟨"A", .identifier .none "string", none⟩, rfl, List.mem_cons_self⟩
  have hback := (defersBy_leadsTo_iff h).mp hdefers _ (List.mem_cons_of_mem _ List.mem_cons_self) _
    List.mem_cons_self (by decide) (.single hmention)
  rcases hback.cases_head with heq | ⟨y, ⟨c, hc, hname, hlink⟩, _⟩
  · exact absurd heq (by decide)
  rcases List.mem_cons.mp hc with rfl | hc
  · have hprimitive : componentPath y ∈ TypeExpr.primitives := by
      rw [List.mem_singleton.mp hlink]
      decide
    exact componentPath_notMem y hprimitive
  · rw [List.mem_singleton.mp hc] at hname
    exact absurd hname (by decide)

end Component

end ApiTypes
