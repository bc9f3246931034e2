import ApiTypes.Proofs.Search

/-!
# Groups of components

The groups of a list of components are its parts: every component is in exactly one, and refers only to
its own group and to groups before it.
-/

namespace ApiTypes.Component

open Search

/-! ## Distinct components -/

theorem distinct_of_nodup {cs : List Component} (h : (cs.map (·.name)).Nodup) :
    distinct cs = cs := by
  rw [distinct, Table.ofList_of_nodup, List.map_map]
  · exact List.map_id cs
  · simpa [List.map_map, Function.comp_def] using h

theorem mem_of_mem_distinct {cs : List Component} {c : Component} (h : c ∈ distinct cs) : c ∈ cs := by
  obtain ⟨e, he, rfl⟩ := List.mem_map.mp h
  exact (Table.mem_ofList_self _ _ e he).2

theorem nodup_distinct (cs : List Component) : ((distinct cs).map (·.name)).Nodup :=
  Table.nodup_values_ofList_self _ _

/-! ## Names -/

theorem mem_of_named? {cs : List Component} {name : String} {c : Component}
    (h : named? cs name = some c) : c ∈ cs ∧ c.name = name := by
  unfold named? at h
  have hname := List.find?_some h
  exact ⟨List.mem_of_find?_eq_some h, eq_of_beq hname⟩

theorem named?_eq_some_iff {cs : List Component} (hcs : (cs.map (·.name)).Nodup) {name : String}
    {c : Component} : named? cs name = some c ↔ c ∈ cs ∧ c.name = name := by
  refine ⟨mem_of_named?, ?_⟩
  rintro ⟨hc, rfl⟩
  have hsome : (named? cs c.name).isSome := List.find?_isSome.mpr ⟨c, hc, beq_self_eq_true _⟩
  obtain ⟨d, hd⟩ := Option.isSome_iff_exists.mp hsome
  obtain ⟨hmem, hname⟩ := mem_of_named? hd
  rw [hd, List.inj_on_of_nodup_map hcs hmem hc hname]

theorem mem_referencesFrom {cs : List Component} {j k : String} :
    k ∈ referencesFrom cs j ↔
      k ∈ cs.map (·.name) ∧ ∃ c, named? cs j = some c ∧ k ∈ c.type.references := by
  unfold referencesFrom
  cases named? cs j with
  | none => simp
  | some c =>
    dsimp only
    rw [List.mem_filter, List.contains_iff_mem]
    simp

/-! ## Groups -/

variable {cs : List Component}

def groupNames (cs : List Component) : List (List String) :=
  (Search.run ((distinct cs).map (·.name)) (referencesFrom (distinct cs))).groups

theorem groups_eq (cs : List Component) :
    groups cs = (groupNames cs).map (·.filterMap (named? (distinct cs))) := rfl

theorem areGroups_groupNames (cs : List Component) :
    AreGroups ((distinct cs).map (·.name)) (referencesFrom (distinct cs)) (groupNames cs) ∧
      ∀ k, k ∈ (groupNames cs).flatten ↔ k ∈ (distinct cs).map (·.name) :=
  areGroups_run (nodup_distinct cs) fun _ _ hj => (mem_referencesFrom.mp hj).1

theorem mem_members {g : List String} {c : Component} :
    c ∈ g.filterMap (named? (distinct cs)) ↔ c ∈ distinct cs ∧ c.name ∈ g := by
  rw [List.mem_filterMap]
  constructor
  · rintro ⟨name, hname, hc⟩
    obtain ⟨hmem, rfl⟩ := mem_of_named? hc
    exact ⟨hmem, hname⟩
  · rintro ⟨hc, hname⟩
    exact ⟨c.name, hname, (named?_eq_some_iff (nodup_distinct cs)).mpr ⟨hc, rfl⟩⟩

theorem names_members {g : List String} (hg : ∀ k ∈ g, k ∈ (distinct cs).map (·.name)) :
    (g.filterMap (named? (distinct cs))).map (·.name) = g := by
  induction g with
  | nil => rfl
  | cons k g ih =>
    obtain ⟨hk, hrest⟩ := List.forall_mem_cons.mp hg
    obtain ⟨c, hc, rfl⟩ := List.mem_map.mp hk
    have hnamed := (named?_eq_some_iff (nodup_distinct cs)).mpr ⟨hc, rfl⟩
    rw [List.filterMap_cons_some hnamed, List.map_cons, ih hrest]

theorem names_groups (cs : List Component) :
    (groups cs).map (·.map (·.name)) = groupNames cs := by
  have hsublist := (areGroups_groupNames cs).1.sublist
  rw [groups_eq, List.map_map]
  refine (List.map_congr_left fun g hg => ?_).trans (List.map_id _)
  exact names_members fun k hk => (hsublist g hg).mem hk

theorem mem_group_or_before {before after : List (List Component)} {g : List Component}
    (h : groups cs = before ++ g :: after) {c d : Component} (hc : c ∈ g) (hd : d ∈ distinct cs)
    (href : d.name ∈ c.type.references) : d ∈ g ∨ ∃ g' ∈ before, d ∈ g' := by
  rw [groups_eq] at h
  obtain ⟨pre, rest, hnames, rfl, hrest⟩ := List.map_eq_append_iff.mp h
  obtain ⟨k, post, rfl, rfl, rfl⟩ := List.map_eq_cons_iff.mp hrest
  obtain ⟨hcd, hck⟩ := mem_members.mp hc
  have hrefers : d.name ∈ referencesFrom (distinct cs) c.name := mem_referencesFrom.mpr
    ⟨List.mem_map_of_mem hd, c, (named?_eq_some_iff (nodup_distinct cs)).mpr ⟨hcd, rfl⟩, href⟩
  rcases (areGroups_groupNames cs).1.before pre k post hnames c.name hck d.name hrefers with
    hin | hin
  · exact .inl (mem_members.mpr ⟨hd, hin⟩)
  · obtain ⟨k', hk', hdk'⟩ := List.mem_flatten.mp hin
    exact .inr ⟨_, List.mem_map_of_mem hk', mem_members.mpr ⟨hd, hdk'⟩⟩

theorem nodup_of_nodup_names {cs : List Component} (h : (cs.map (·.name)).Nodup) : cs.Nodup :=
  List.Nodup.of_map _ h

theorem mem_flatten_groups_iff {c : Component} : c ∈ (groups cs).flatten ↔ c ∈ distinct cs := by
  rw [groups_eq, List.mem_flatten]
  constructor
  · rintro ⟨_, hg, hc⟩
    obtain ⟨g, _, rfl⟩ := List.mem_map.mp hg
    exact (mem_members.mp hc).1
  · intro hc
    have hname := ((areGroups_groupNames cs).2 c.name).mpr (List.mem_map_of_mem hc)
    obtain ⟨g, hg, hcg⟩ := List.mem_flatten.mp hname
    exact ⟨_, List.mem_map_of_mem hg, mem_members.mpr ⟨hc, hcg⟩⟩

theorem flatten_groups_perm (cs : List Component) : (groups cs).flatten.Perm (distinct cs) := by
  have hnames : ((groups cs).flatten.map (·.name)).Nodup := by
    rw [List.map_flatten, names_groups]
    exact (areGroups_groupNames cs).1.nodup
  rw [List.perm_ext_iff_of_nodup (nodup_of_nodup_names hnames)
    (nodup_of_nodup_names (nodup_distinct cs))]
  exact fun c => mem_flatten_groups_iff

theorem mem_of_mem_groups {cs g : List Component} (hg : g ∈ groups cs) {c : Component}
    (hc : c ∈ g) : c ∈ cs :=
  mem_of_mem_distinct (mem_flatten_groups_iff.mp (List.mem_flatten_of_mem hg hc))

end ApiTypes.Component
