import ApiTypes.Component.Validators
import ApiTypes.Proofs.Cycles
import ApiTypes.Proofs.TypeTree

/-!
# Order of components

The constants of components hold the same validators in whatever order the components are listed. What
a validator defers is the cycle of its component, and the cycles depend on the references alone.
-/

namespace ApiTypes

namespace TypeExpr

/-- It does not matter in which order the deferred components are listed. -/
theorem validator_congr {deferred deferred' : List String}
    (h : ∀ name, name ∈ deferred ↔ name ∈ deferred') (t : TypeExpr) :
    t.validator deferred = t.validator deferred' := by
  induction t with
  | identifier i name =>
    have hcontains : deferred.contains (componentName name) =
        deferred'.contains (componentName name) := by
      rw [Bool.eq_iff_iff, List.contains_iff_mem, List.contains_iff_mem, h]
    rw [validator, validator, identifierValidator, identifierValidator, hcontains]
  | literal i value => rfl
  | array i t ih => rw [validator, validator, ih]
  | union i ts ih =>
    rw [validator, validator, validators_eq_map, validators_eq_map, List.map_congr_left ih]
  | intersection i ts ih =>
    rw [validator, validator, validators_eq_map, validators_eq_map, List.map_congr_left ih]
  | generic i base ts ihb _ => rw [validator, validator, ihb]
  | object i ps required ih =>
    have hproperties : propertyValidators deferred required ps =
        propertyValidators deferred' required ps := by
      rw [propertyValidators_eq_map, propertyValidators_eq_map]
      exact List.map_congr_left fun p hp => by rw [ih p hp]
    rw [validator, validator, hproperties]

end TypeExpr

namespace Component

/-! ## Cycles of names -/

open Classical in
noncomputable def cycleOf (cs : List Component) (x : String) : List String :=
  (listedNames cs).filter fun y => NameReaches cs x y ∧ NameReaches cs y x

variable {cs cs' : List Component}

theorem mem_cycleOf {x y : String} :
    y ∈ cycleOf cs x ↔ y ∈ listedNames cs ∧ NameReaches cs x y ∧ NameReaches cs y x := by
  simp [cycleOf]

theorem mem_names_group {g : List Component} (hg : g ∈ groups cs) {c : Component} (hc : c ∈ g)
    (y : String) : y ∈ g.map (·.name) ↔ y ∈ cycleOf cs c.name := by
  have hcycles := areCycles_groups cs
  rw [mem_cycleOf]
  constructor
  · intro hy
    have hlisted := (hcycles.order g hg).mem hy
    exact ⟨hlisted, (hcycles.cycle g hg _ (List.mem_map_of_mem hc) y hlisted).mp hy⟩
  · rintro ⟨hlisted, hreaches⟩
    exact (hcycles.cycle g hg _ (List.mem_map_of_mem hc) y hlisted).mpr hreaches

noncomputable def declarationIn (cs : List Component) (c : Component) : ValidatorDeclaration :=
  ⟨c.name, c.type.validator (cycleOf cs c.name)⟩

theorem validatorDeclarations_eq (cs : List Component) :
    validatorDeclarations cs = (groups cs).flatten.map (declarationIn cs) := by
  rw [List.map_flatten, validatorDeclarations, List.flatMap_def]
  refine congrArg List.flatten (List.map_congr_left fun g hg => ?_)
  refine List.map_congr_left fun c hc => ?_
  rw [declarationIn, TypeExpr.validator_congr (mem_names_group hg hc)]

/-! ## Lists in another order -/

section
variable (hnodup : (cs.map (·.name)).Nodup) (h : cs.Perm cs')
include hnodup

theorem last?_eq_some_iff {x : String} {c : Component} :
    last? cs x = some c ↔ c ∈ cs ∧ c.name = x := by
  have hmem : c ∈ cs ↔ last? cs c.name = some c := by
    rw [← mem_distinct_iff, distinct_of_nodup hnodup]
  constructor
  · intro hlast
    have hname := name_of_last? hlast
    exact ⟨hmem.mpr (hname ▸ hlast), hname⟩
  · rintro ⟨hc, rfl⟩
    exact hmem.mp hc

include h

theorem nodup_names_of_perm : (cs'.map (·.name)).Nodup := (h.map _).nodup_iff.mp hnodup

omit hnodup in
theorem mem_listedNames_of_perm {x : String} : x ∈ listedNames cs ↔ x ∈ listedNames cs' := by
  rw [listedNames, listedNames, List.mem_eraseDups, List.mem_eraseDups, (h.map _).mem_iff]

theorem nameRefers_of_perm : NameRefers cs = NameRefers cs' := by
  have hnodup' := nodup_names_of_perm hnodup h
  funext x y
  simp only [NameRefers, last?_eq_some_iff hnodup, last?_eq_some_iff hnodup', h.mem_iff,
    mem_listedNames_of_perm h]

theorem declarationIn_of_perm (c : Component) : declarationIn cs c = declarationIn cs' c := by
  have hreaches : NameReaches cs = NameReaches cs' := by
    rw [NameReaches, NameReaches, nameRefers_of_perm hnodup h]
  have hcycle : ∀ y, y ∈ cycleOf cs c.name ↔ y ∈ cycleOf cs' c.name := by
    intro y
    rw [mem_cycleOf, mem_cycleOf, mem_listedNames_of_perm h, hreaches]
  rw [declarationIn, declarationIn, TypeExpr.validator_congr hcycle]

theorem flatten_groups_of_perm : (groups cs).flatten.Perm (groups cs').flatten := by
  have hcs := flatten_groups_perm cs
  have hcs' := flatten_groups_perm cs'
  rw [distinct_of_nodup hnodup] at hcs
  rw [distinct_of_nodup (nodup_names_of_perm hnodup h)] at hcs'
  exact hcs.trans (h.trans hcs'.symm)

theorem validatorDeclarations_of_perm :
    (validatorDeclarations cs).Perm (validatorDeclarations cs') := by
  rw [validatorDeclarations_eq, validatorDeclarations_eq,
    List.map_congr_left fun c _ => declarationIn_of_perm hnodup h c]
  exact (flatten_groups_of_perm hnodup h).map _

/-- Components in another order are written if they are written in the first one, each by the same
declaration. -/
theorem validatorsText_of_perm : ∃ ds : List ValidatorDeclaration, ds.Perm (validatorDeclarations cs) ∧
    (ds.map (·.component)).Perm (cs.map (·.name)) ∧
    validatorsText cs' = String.intercalate "\n\n" (ds.map ValidatorDeclaration.text) ∧
    ((validatorsFault? cs').isSome ↔ (validatorsFault? cs).isSome) := by
  have hnames : ((validatorDeclarations cs).map (·.component)).Perm (cs.map (·.name)) := by
    have hgroups := flatten_groups_perm cs
    rw [distinct_of_nodup hnodup] at hgroups
    rw [validatorDeclarations_eq, List.map_map]
    exact hgroups.map _
  have hdeclarations := (validatorDeclarations_of_perm hnodup h).symm
  refine ⟨_, hdeclarations, (hdeclarations.map _).trans hnames, rfl, ?_⟩
  simp only [validatorsFault?, List.findSome?_isSome_iff, (flatten_groups_of_perm hnodup h).mem_iff]

end

def townComponents : List Component :=
  let reference (name : String) : TypeExpr := .identifier .none (componentPath name)
  [⟨"Shop", .union .none [reference "Pet", .array .none (reference "Owner")], none⟩,
    ⟨"Pet", .object .none [("owner", reference "Owner")] [], none⟩,
    ⟨"Owner", .intersection .none [reference "Pet", reference "Owner"], some "keeps a pet"⟩]

theorem validatorsText_reverse : (townComponents.map (·.name)).Nodup ∧
    townComponents.Perm townComponents.reverse ∧
    ∃ ds : List ValidatorDeclaration, ds.Perm (validatorDeclarations townComponents) ∧
      (ds.map (·.component)).Perm (townComponents.map (·.name)) ∧
      validatorsText townComponents.reverse =
        String.intercalate "\n\n" (ds.map ValidatorDeclaration.text) ∧
      ((validatorsFault? townComponents.reverse).isSome ↔
        (validatorsFault? townComponents).isSome) := by
  have hnodup : (townComponents.map (·.name)).Nodup := by decide
  have hperm := (List.reverse_perm townComponents).symm
  exact ⟨hnodup, hperm, validatorsText_of_perm hnodup hperm⟩

end Component

end ApiTypes
