import ApiTypes.Proofs.Groups
import ApiTypes.Proofs.Keyed

/-!
# Cycles of components

Of a name that is listed more than once the first place and the last type count. Two listed names are
in one group exactly when references lead from each to the other, and all that a group refers to
outside is in groups before it.
-/

namespace ApiTypes.Component

open Search

/-! ## Listed names -/

def listedNames (cs : List Component) : List String := (cs.map (·.name)).eraseDups

def last? (cs : List Component) (name : String) : Option Component :=
  (cs.filter fun c => c.name == name).getLast?

variable {cs : List Component}

theorem name_of_last? {name : String} {c : Component} (h : last? cs name = some c) :
    c.name = name :=
  eq_of_beq (List.mem_filter.mp (List.mem_of_getLast? h)).2

theorem exists_last? {name : String} (h : name ∈ listedNames cs) :
    ∃ c, last? cs name = some c := by
  obtain ⟨c, hc, hname⟩ := List.mem_map.mp (List.mem_eraseDups.mp h)
  have hmem : c ∈ cs.filter fun c => c.name == name := List.mem_filter.mpr ⟨hc, beq_iff_eq.mpr hname⟩
  exact ⟨_, List.getLast?_eq_some_getLast (List.ne_nil_of_mem hmem)⟩

theorem distinct_eq (cs : List Component) : distinct cs = (listedNames cs).filterMap (last? cs) := by
  rw [distinct, Table.ofList_map Component.name fun c => c, List.map_filterMap]
  refine List.filterMap_congr fun name _ => ?_
  rw [Option.map_map]
  exact Option.map_id'

theorem names_distinct (cs : List Component) : (distinct cs).map (·.name) = listedNames cs := by
  have h := forall₂_filterMap fun name hname => @exists_last? cs name hname
  rw [← distinct_eq] at h
  have heq : List.Forall₂ Eq (listedNames cs) ((distinct cs).map (·.name)) :=
    List.forall₂_map_right_iff.mpr (h.imp fun _ _ hc => (name_of_last? hc).symm)
  rw [List.forall₂_eq_eq_eq] at heq
  exact heq.symm

theorem mem_distinct_iff {c : Component} : c ∈ distinct cs ↔ last? cs c.name = some c := by
  rw [distinct_eq, List.mem_filterMap]
  constructor
  · rintro ⟨name, _, h⟩
    rwa [name_of_last? h]
  · intro h
    have hc : c ∈ cs := (List.mem_filter.mp (List.mem_of_getLast? h)).1
    exact ⟨c.name, List.mem_eraseDups.mpr (List.mem_map_of_mem hc), h⟩

/-! ## References between names -/

/-- The type of the first name mentions the second one, which is listed. -/
def NameRefers (cs : List Component) (x y : String) : Prop :=
  y ∈ listedNames cs ∧ ∃ c, last? cs x = some c ∧ y ∈ c.type.references

def NameReaches (cs : List Component) : String → String → Prop :=
  Relation.ReflTransGen (NameRefers cs)

theorem named?_distinct (cs : List Component) (name : String) :
    named? (distinct cs) name = last? cs name := by
  refine Option.ext fun c => ?_
  rw [named?_eq_some_iff (nodup_distinct cs), mem_distinct_iff]
  constructor
  · rintro ⟨hlast, rfl⟩
    exact hlast
  · intro hlast
    have hname := name_of_last? hlast
    exact ⟨hname.symm ▸ hlast, hname⟩

theorem nameRefers_iff {x y : String} :
    NameRefers cs x y ↔ Refers (referencesFrom (distinct cs)) x y := by
  rw [Refers, mem_referencesFrom, names_distinct, named?_distinct, NameRefers]

theorem nameReaches_iff {x y : String} :
    NameReaches cs x y ↔ Reaches (referencesFrom (distinct cs)) x y := by
  have hrefers : NameRefers cs = Refers (referencesFrom (distinct cs)) :=
    funext fun _ => funext fun _ => propext nameRefers_iff
  rw [NameReaches, hrefers, Reaches]

/-! ## Groups -/

/-- The names of a list stand in groups by the cycles that they are on. -/
structure AreCycles (cs : List Component) (gs : List (List Component)) : Prop where
  member : ∀ g ∈ gs, ∀ c ∈ g, last? cs c.name = some c
  ne_nil : ∀ g ∈ gs, g ≠ []
  parts : (gs.flatten.map (·.name)).Perm (listedNames cs)
  cycle : ∀ g ∈ gs, ∀ x ∈ g.map (·.name), ∀ y ∈ listedNames cs,
    (y ∈ g.map (·.name) ↔ NameReaches cs x y ∧ NameReaches cs y x)
  before : ∀ front g rest, gs = front ++ g :: rest → ∀ x ∈ g.map (·.name), ∀ y,
    NameRefers cs x y → y ∉ g.map (·.name) → ∃ g' ∈ front, y ∈ g'.map (·.name)
  order : ∀ g ∈ gs, (g.map (·.name)).Sublist (listedNames cs)

/-- However components refer to each other, their groups are the cycles of references, each behind
the groups that it refers to. -/
theorem areCycles_groups (cs : List Component) : AreCycles cs (groups cs) := by
  have hfound := (areGroups_groupNames cs).1
  have hnames : ∀ g ∈ groups cs, g.map (·.name) ∈ groupNames cs := fun g hg =>
    names_groups cs ▸ List.mem_map_of_mem hg
  refine ⟨fun g hg c hc => ?_, fun g hg hnil => ?_, ?_, ?_, ?_, fun g hg => ?_⟩
  · exact mem_distinct_iff.mp (mem_flatten_groups_iff.mp (List.mem_flatten_of_mem hg hc))
  · exact hfound.ne_nil _ (hnames g hg) (by rw [hnil, List.map_nil])
  · rw [← names_distinct]
    exact (flatten_groups_perm cs).map _
  · intro g hg x hx y _
    rw [nameReaches_iff, nameReaches_iff]
    exact hfound.cycle _ (hnames g hg) x hx y
  · intro front g rest h x hx y href hy
    have hsplit := names_groups cs
    rw [h, List.map_append, List.map_cons] at hsplit
    rcases hfound.before _ _ _ hsplit.symm x hx y (nameRefers_iff.mp href) with hin | hin
    · exact absurd hin hy
    · obtain ⟨_, hg', hyg'⟩ := List.mem_flatten.mp hin
      obtain ⟨g', hfront, rfl⟩ := List.mem_map.mp hg'
      exact ⟨g', hfront, hyg'⟩
  · rw [← names_distinct]
    exact hfound.sublist _ (hnames g hg)

end ApiTypes.Component
