import Mathlib.Data.List.Chain
import Mathlib.Data.List.Duplicate
import Mathlib.Data.List.Perm.Subperm
import Mathlib.Logic.Relation
import ApiTypes.Proofs.Filling

/-!
# Scalars that do not fit their tags

A text of YAML that is one document fails for a scalar only where the text of a node is no boolean, no
number or no point in time although its tag says so, or where a mapping that stands for a text leads
back to itself. Merging changes neither tags of that kind nor texts, and entries only go to mappings
that take from the one they stood in.
-/

namespace ApiTypes.Yaml

/-! ## Graphs -/

def Tag.IsStrict (t : Tag) : Prop := t = .bool ∨ t = .int ∨ t = .float ∨ t = .time

namespace Graph

variable {g g' : Graph}

def IsMap (g : Graph) (id : Nat) : Prop := ∃ es, g.content id = .map es

/-- A mapping names another one under a merge key. -/
def TakesFrom (g : Graph) (id source : Nat) : Prop :=
  ∃ e ∈ g.entries id, g.tag e.1 = .merge ∧
    (e.2 = source ∨ ∃ sources, g.content e.2 = .seq sources ∧ source ∈ sources)

/-- A mapping has an entry or may take it over. -/
def MayHold (g : Graph) (id : Nat) (e : Nat × Nat) : Prop :=
  ∃ source, Relation.ReflTransGen g.TakesFrom id source ∧ e ∈ g.entries source

theorem MayHold.behind {id source : Nat} {e : Nat × Nat} (h : g.MayHold source e)
    (hsource : Relation.ReflTransGen g.TakesFrom id source) : g.MayHold id e := by
  obtain ⟨source', hsource', he⟩ := h
  exact ⟨source', hsource.trans hsource', he⟩

/-- What merging may change: the entries of mappings, and the tags of keys that become texts. -/
structure Settles (g g' : Graph) : Prop where
  tag : ∀ id, g'.tag id = g.tag id ∨ g'.tag id = .text
  content : ∀ id, g'.content id = g.content id ∨ g.IsMap id ∧ g'.IsMap id
  entries : ∀ id, ∀ e ∈ g'.entries id, g.MayHold id e

theorem Settles.refl (g : Graph) : g.Settles g where
  tag _ := .inl rfl
  content _ := .inl rfl
  entries id _ he := ⟨id, .refl, he⟩

namespace Settles

variable (h : g.Settles g') {id : Nat}
include h

theorem isMap_iff : g'.IsMap id ↔ g.IsMap id := by
  rcases h.content id with hsame | ⟨hmap, hmap'⟩
  · rw [IsMap, IsMap, hsame]
  · exact iff_of_true hmap' hmap

theorem text {s : String} (hid : g'.content id = .text s) : g.content id = .text s := by
  rcases h.content id with hsame | ⟨_, es, hes⟩
  · rw [← hsame, hid]
  · rw [hes] at hid
    cases hid

theorem seq {ids : List Nat} (hid : g'.content id = .seq ids) : g.content id = .seq ids := by
  rcases h.content id with hsame | ⟨_, es, hes⟩
  · rw [← hsame, hid]
  · rw [hes] at hid
    cases hid

theorem tag_eq {t : Tag} (hid : g'.tag id = t) (ht : t ≠ .text) : g.tag id = t := by
  rcases h.tag id with hsame | htext
  · rw [← hsame, hid]
  · exact absurd (hid.symm.trans htext) ht

end Settles

/-! ## Merging -/

theorem tag_setEntries (g : Graph) (id : Nat) (es : List (Nat × Nat)) (j : Nat) :
    (g.setEntries id es).tag j = g.tag j := by
  unfold Graph.tag setEntries
  rw [Array.getElem?_modify]
  split
  · rw [Option.map_map]
    rfl
  · rfl

theorem content_setEntries_self {id : Nat} (h : g.IsMap id) (es : List (Nat × Nat)) :
    (g.setEntries id es).content id = .map es := by
  obtain ⟨old, hold⟩ := h
  unfold Graph.content setEntries at *
  rw [Array.getElem?_modify, if_pos rfl]
  cases hnode : g[id]? with
  | none =>
    rw [hnode] at hold
    cases hold
  | some n => rfl

theorem content_setEntries_of_ne {id j : Nat} (h : id ≠ j) (es : List (Nat × Nat)) :
    (g.setEntries id es).content j = g.content j := by
  unfold Graph.content setEntries
  rw [Array.getElem?_modify, if_neg h]

theorem tag_settleKeys (g : Graph) (es : List (Nat × Nat)) (j : Nat) :
    (g.settleKeys es).tag j = g.tag j ∨ (g.settleKeys es).tag j = .text := by
  have hkey : ∀ (g : Graph) (id : Nat), Graph.tag (g.modify id ({ · with tag := .text })) j =
      g.tag j ∨ Graph.tag (g.modify id ({ · with tag := .text })) j = .text := by
    intro g id
    unfold Graph.tag
    rw [Array.getElem?_modify]
    split
    · cases hnode : g[j]? with
      | none => exact .inl rfl
      | some n => exact .inr rfl
    · exact .inl rfl
  unfold settleKeys
  induction es generalizing g with
  | nil => exact .inl rfl
  | cons e es ih =>
    rw [List.foldl_cons]
    split
    · rcases ih (g.modify e.1 ({ · with tag := .text })) with hsame | htext
      · rw [hsame]
        exact hkey g e.1
      · exact .inr htext
    · exact ih g

theorem content_settleKeys (g : Graph) (es : List (Nat × Nat)) (j : Nat) :
    (g.settleKeys es).content j = g.content j := by
  have hkey : ∀ (g : Graph) (id : Nat),
      Graph.content (g.modify id ({ · with tag := .text })) j = g.content j := by
    intro g id
    unfold Graph.content
    rw [Array.getElem?_modify]
    split
    · rw [Option.map_map]
      rfl
    · rfl
  unfold settleKeys
  induction es generalizing g with
  | nil => rfl
  | cons e es ih =>
    rw [List.foldl_cons]
    split
    · exact (ih _).trans (hkey g e.1)
    · exact ih g

theorem Settles.setEntries (h : g.Settles g') {id : Nat} (hid : g'.IsMap id)
    {es : List (Nat × Nat)} (hes : ∀ e ∈ es, g.MayHold id e) : g.Settles (g'.setEntries id es) where
  tag j := by
    rw [tag_setEntries]
    exact h.tag j
  content j := by
    by_cases hj : id = j
    · exact hj ▸ .inr ⟨h.isMap_iff.mp hid, es, content_setEntries_self hid es⟩
    · rw [IsMap, IsMap, content_setEntries_of_ne hj]
      exact h.content j
  entries j e he := by
    unfold Graph.entries at he
    by_cases hj : id = j
    · subst hj
      rw [content_setEntries_self hid] at he
      exact hes e he
    · rw [content_setEntries_of_ne hj] at he
      exact h.entries j e he

theorem Settles.settleKeys (h : g.Settles g') (es : List (Nat × Nat)) :
    g.Settles (g'.settleKeys es) where
  tag id := by
    rcases tag_settleKeys g' es id with hsame | htext
    · rw [hsame]
      exact h.tag id
    · exact .inr htext
  content id := by
    rw [IsMap, IsMap, content_settleKeys]
    exact h.content id
  entries id e he := by
    unfold Graph.entries at he
    rw [content_settleKeys] at he
    exact h.entries id e he

theorem takeMerge_eq_some {es rest : List (Nat × Nat)} {source : Nat}
    (h : g.takeMerge es = some (source, rest)) :
    (∃ e ∈ es, g.tag e.1 = .merge ∧ e.2 = source) ∧ ∀ e ∈ rest, e ∈ es := by
  induction es generalizing rest with
  | nil => cases h
  | cons e es ih =>
    rw [takeMerge] at h
    split at h
    · rename_i htag
      cases h
      exact ⟨⟨e, List.mem_cons_self, eq_of_beq htag, rfl⟩, fun _ => List.mem_cons_of_mem e⟩
    · obtain ⟨⟨source', rest'⟩, hrest, h⟩ := Option.map_eq_some_iff.mp h
      cases h
      obtain ⟨⟨e', he', hmerge⟩, hsub⟩ := ih hrest
      refine ⟨⟨e', List.mem_cons_of_mem e he', hmerge⟩, fun x hx => ?_⟩
      rcases List.mem_cons.mp hx with rfl | hx
      · exact List.mem_cons_self
      · exact List.mem_cons_of_mem e (hsub x hx)

def Merges (g : Graph) : Except Fault Graph → Prop := Yields g.Settles (· = .malformed)

theorem merges_mergeStep (steps : Nat) {taken : List (Nat × Nat)} {id : Nat} (h : g.Settles g')
    (hid : g.IsMap id) (htaken : ∀ e ∈ taken, g.MayHold id e) :
    g.Merges (mergeStep steps taken g' id) := by
  induction steps generalizing g' taken id with
  | zero => exact .pure h
  | succ steps ih =>
    rw [mergeStep]
    split
    · have hkeys := h.settleKeys (g'.entries id)
      exact .pure (hkeys.setEntries (hkeys.isMap_iff.mpr hid)
        (List.forall_mem_append.mpr ⟨htaken, h.entries id⟩))
    · rename_i source rest hmerge
      obtain ⟨⟨e, he, htag, rfl⟩, hsub⟩ := takeMerge_eq_some hmerge
      have hrest := h.setEntries (h.isMap_iff.mpr hid) fun x hx => h.entries id x (hsub x hx)
      -- the merge key stood in the mapping from the start or in one that it takes from
      have hsource : ∀ source, (e.2 = source ∨ ∃ sources, g.content e.2 = .seq sources ∧
          source ∈ sources) → Relation.ReflTransGen g.TakesFrom id source := by
        intro source hplace
        obtain ⟨j, hj, hej⟩ := h.entries id e he
        exact hj.tail ⟨e, hej, h.tag_eq htag nofun, hplace⟩
      dsimp only
      split
      · rename_i es hes
        have hmap : g.IsMap e.2 := hrest.isMap_iff.mp ⟨es, hes⟩
        refine .bind (ih hrest hmap nofun) fun g'' hg'' => ih hg'' hid ?_
        exact List.forall_mem_append.mpr ⟨htaken, fun x hx =>
          (hg''.entries e.2 x hx).behind (hsource e.2 (.inl rfl))⟩
      · rename_i sources hsources
        refine .bind (P := fun p => g.Settles p.1 ∧ ∀ list ∈ p.2, ∀ x ∈ list, g.MayHold id x) ?_
          fun p hp => ih hp.1 hid ?_
        · refine .foldlM ?_ ⟨hrest, nofun⟩
          rintro source hmem ⟨g'', lists⟩ ⟨hg'', hlists⟩
          dsimp only at hg'' hlists ⊢
          split
          · rename_i es hes
            refine .bind (ih hg'' (hg''.isMap_iff.mp ⟨es, hes⟩) nofun) fun g₃ hg₃ => .pure ⟨hg₃, ?_⟩
            refine List.forall_mem_cons.mpr ⟨fun x hx => ?_, hlists⟩
            exact (hg₃.entries source x hx).behind
              (hsource source (.inr ⟨sources, hrest.seq hsources, hmem⟩))
          · exact .throw rfl
        · refine List.forall_mem_append.mpr ⟨htaken, fun x hx => ?_⟩
          obtain ⟨list, hlist, hx⟩ := List.mem_flatten.mp hx
          exact hp.2 list hlist x hx
      · exact .throw rfl

/-! ## Texts of mappings -/

def StandsFor (g : Graph) (id id' : Nat) : Prop :=
  ∃ es e, g.content id = .map es ∧ es.find? (fun e => g.tag e.1 == .value) = some e ∧ e.2 = id'

/-- A mapping has a `=` key or may take it over. -/
def MayStandFor (g : Graph) (id id' : Nat) : Prop :=
  ∃ e, g.MayHold id e ∧ g.tag e.1 = .value ∧ e.2 = id'

theorem Settles.mayStandFor (h : g.Settles g') {id id' : Nat} (hid : g'.StandsFor id id') :
    g.MayStandFor id id' := by
  obtain ⟨es, e, hes, hfind, rfl⟩ := hid
  have he : e ∈ g'.entries id := by
    rw [Graph.entries, hes]
    exact List.mem_of_find?_eq_some hfind
  have htag := List.find?_some hfind
  exact ⟨e, h.entries id e he, h.tag_eq (eq_of_beq htag) nofun, rfl⟩

theorem StandsFor.isMap {id id' : Nat} : g.StandsFor id id' → g.IsMap id
  | ⟨es, _, hes, _⟩ => ⟨es, hes⟩

theorem nodeText_of_standsFor {id id' : Nat} (h : g.StandsFor id id') (hops : Nat) :
    nodeText g (hops + 1) id = nodeText g hops id' := by
  obtain ⟨es, e, hes, hfind, rfl⟩ := h
  simp only [nodeText, hes, hfind]

theorem nodeText_cases (g : Graph) (hops id : Nat) :
    (∃ s, g.content id = .text s ∧ nodeText g (hops + 1) id = .ok s) ∨
      nodeText g (hops + 1) id = .error .malformed ∨ ∃ id', g.StandsFor id id' := by
  cases hcontent : g.content id with
  | text s => exact .inl ⟨s, rfl, by simp only [nodeText, hcontent]⟩
  | seq ids => exact .inr (.inl (by simp only [nodeText, hcontent]))
  | map es =>
    cases hfind : es.find? fun e => g.tag e.1 == .value with
    | none => exact .inr (.inl (by simp only [nodeText, hcontent, hfind]))
    | some e => exact .inr (.inr ⟨e.2, es, e, hcontent, hfind, rfl⟩)

theorem exists_content_of_nodeText {hops id : Nat} {s : String} (h : nodeText g hops id = .ok s) :
    ∃ j, g.content j = .text s ∧ (j = id ∨ g.IsMap id) := by
  induction hops generalizing id with
  | zero => cases h
  | succ hops ih =>
    rcases nodeText_cases g hops id with ⟨s', hs', htext⟩ | hfault | ⟨id', hid'⟩
    · cases htext.symm.trans h
      exact ⟨id, hs', .inl rfl⟩
    · cases hfault.symm.trans h
    · rw [nodeText_of_standsFor hid'] at h
      obtain ⟨j, hj, _⟩ := ih h
      exact ⟨j, hj, .inr hid'.isMap⟩

/-- The mappings that a node stands for lead around in a circle. -/
def LeadsAround (g : Graph) (id : Nat) : Prop :=
  ∃ id', Relation.ReflTransGen g.StandsFor id id' ∧ Relation.TransGen g.StandsFor id' id'

theorem LeadsAround.exists_standsFor {id : Nat} (h : g.LeadsAround id) :
    ∃ id', g.StandsFor id id' ∧ g.LeadsAround id' := by
  obtain ⟨j, hj, hround⟩ := h
  rcases Relation.ReflTransGen.cases_head hj with rfl | ⟨id', hid', hj'⟩
  · obtain ⟨id', hid', hback⟩ := Relation.TransGen.head'_iff.mp hround
    exact ⟨id', hid', id, hback, hround⟩
  · exact ⟨id', hid', j, hj', hround⟩

theorem nodeText_of_leadsAround {id : Nat} (h : g.LeadsAround id) (hops : Nat) :
    nodeText g hops id = .error (.scalar .endless) := by
  induction hops generalizing id with
  | zero => rfl
  | succ hops ih =>
    obtain ⟨id', hid', h'⟩ := h.exists_standsFor
    rw [nodeText_of_standsFor hid', ih h']

theorem exists_isChain_of_nodeText {hops id : Nat}
    (h : nodeText g hops id = .error (.scalar .endless)) :
    ∃ ids : List Nat, ids.length = hops ∧ ids.IsChain g.StandsFor ∧ (∀ j ∈ ids, g.IsMap j) ∧
      ∀ j ∈ ids.head?, j = id := by
  induction hops generalizing id with
  | zero => exact ⟨[], rfl, .nil, nofun, nofun⟩
  | succ hops ih =>
    rcases nodeText_cases g hops id with ⟨s, _, htext⟩ | hfault | ⟨id', hid'⟩
    · cases htext.symm.trans h
    · cases hfault.symm.trans h
    · rw [nodeText_of_standsFor hid'] at h
      obtain ⟨ids, hlength, hchain, hmaps, hhead⟩ := ih h
      refine ⟨id :: ids, by rw [List.length_cons, hlength], ?_, ?_, by simp⟩
      · exact List.isChain_cons.mpr ⟨fun j hj => hhead j hj ▸ hid', hchain⟩
      · exact List.forall_mem_cons.mpr ⟨hid'.isMap, hmaps⟩

theorem lt_size_of_isMap {id : Nat} (h : g.IsMap id) : id < g.size := by
  obtain ⟨es, hes⟩ := h
  by_contra hsize
  rw [Graph.content, Array.getElem?_eq_none (Nat.le_of_not_lt hsize)] at hes
  cases hes

/-- The search for a text has hops enough: it runs out of them only where it would never end. -/
theorem nodeText_eq_endless_iff {id : Nat} :
    nodeText g (g.size + 1) id = .error (.scalar .endless) ↔ g.LeadsAround id := by
  refine ⟨fun h => ?_, fun h => nodeText_of_leadsAround h _⟩
  obtain ⟨ids, hlength, hchain, hmaps, hhead⟩ := exists_isChain_of_nodeText h
  -- more mappings than the graph has nodes, so one of them comes twice
  have hnot : ¬ ids.Nodup := fun hnodup => by
    have hsubset : ids ⊆ List.range g.size := fun j hj =>
      List.mem_range.mpr (lt_size_of_isMap (hmaps j hj))
    have hle := (List.subperm_of_subset hnodup hsubset).length_le
    rw [List.length_range, hlength] at hle
    omega
  obtain ⟨j, hj⟩ := List.exists_duplicate_iff_not_nodup.mpr hnot
  have hpairwise : ids.Pairwise (Relation.TransGen g.StandsFor) :=
    List.isChain_iff_pairwise.mp (hchain.imp fun _ _ => .single)
  have hround : Relation.TransGen g.StandsFor j j :=
    List.pairwise_pair.mp (hpairwise.sublist (List.duplicate_iff_sublist.mp hj))
  refine ⟨j, ?_, hround⟩
  cases ids with
  | nil => cases hlength
  | cons first ids =>
    cases hhead first rfl
    rcases List.mem_cons.mp hj.mem with rfl | hmem
    · exact .refl
    · exact ((List.pairwise_cons.mp hpairwise).1 j hmem).to_reflTransGen

/-! ## Texts that do not fit -/

structure Misfit (g : Graph) (id : Nat) (fault : ScalarFault) : Prop where
  tag : (g.tag id).IsStrict
  text : ∃ j s isMap, g.content j = .text s ∧ (j = id ∨ g.IsMap id) ∧
    readScalar id (g.tag id) isMap s = .error (.scalar fault)

end Graph

theorem isStrict_of_readScalar {node : Nat} {tag : Tag} {isMap : Bool} {s : String}
    {fault : ScalarFault} (h : readScalar node tag isMap s = .error (.scalar fault)) :
    tag.IsStrict := by
  unfold readScalar at h
  split at h
  · cases h
  · exact .inl rfl
  · exact .inr (.inl rfl)
  · exact .inr (.inr (.inl rfl))
  · unfold readBytes at h
    split at h
    · cases h
    · split at h <;> cases h
  · exact .inr (.inr (.inr rfl))
  · cases h
  · cases h

theorem Graph.Settles.misfit {g g' : Graph} (h : g.Settles g') {id : Nat} {fault : ScalarFault}
    (hid : g'.Misfit id fault) : g.Misfit id fault := by
  obtain ⟨hstrict, j, s, isMap, hj, hplace, hread⟩ := hid
  have htag : g'.tag id = g.tag id := by
    rcases h.tag id with hsame | htext
    · exact hsame
    · rw [htext] at hstrict
      rcases hstrict with h | h | h | h <;> cases h
  rw [htag] at hstrict hread
  exact ⟨hstrict, j, s, isMap, h.text hj, hplace.imp_right h.isMap_iff.mp, hread⟩

/-! ## Filling -/

/-- Why a graph has no document although it is well-formed: the text of a node does not fit its tag, or
a mapping may stand for a text that leads back to itself. -/
inductive Graph.Blocks (g : Graph) : ScalarFault → Prop
  | misfit {id : Nat} {fault : ScalarFault} (h : g.Misfit id fault) : g.Blocks fault
  | endless {id : Nat} (h : Relation.TransGen g.MayStandFor id id) : g.Blocks .endless

def IsKnown (g : Graph) (e : Fault) : Prop := ∀ fault, e = .scalar fault → g.Blocks fault

theorem scalar_of_nodeText {g : Graph} {hops id : Nat} {fault : ScalarFault}
    (h : nodeText g hops id = .error (.scalar fault)) : fault = .endless := by
  induction hops generalizing id with
  | zero =>
    cases h
    rfl
  | succ hops ih =>
    rcases Graph.nodeText_cases g hops id with ⟨s, _, htext⟩ | hfault | ⟨id', hid'⟩
    · cases htext.symm.trans h
    · cases hfault.symm.trans h
    · rw [Graph.nodeText_of_standsFor hid'] at h
      exact ih h

theorem invariant_settles (g : Graph) :
    Fill.Invariant (fun s => g.Settles s.graph) (IsKnown g) where
  malformed := nofun
  text {s id e} hs he fault hfault := by
    subst hfault
    cases scalar_of_nodeText he
    obtain ⟨_, _, hround⟩ := Graph.nodeText_eq_endless_iff.mp he
    exact .endless (Relation.TransGen.mono (fun _ _ => hs.mayStandFor) _ _ hround)
  scalar {s id text isMap e} hs htext he fault hfault := by
    subst hfault
    obtain ⟨j, hj, hplace⟩ := Graph.exists_content_of_nodeText htext
    exact .misfit (hs.misfit ⟨isStrict_of_readScalar he, j, text, _, hj, hplace, he⟩)
  meet _ _ hs := hs
  merge {s id es} hs hes := by
    have hmerge := Graph.merges_mergeStep (s.merges + 1) hs (hs.isMap_iff.mp ⟨es, hes⟩)
      (List.forall_mem_nil _)
    exact ⟨hmerge.ok, fun e he fault hfault => by cases hfault.symm.trans (hmerge.error e he)⟩
  fill _ _ hs _ := hs

theorem blocks_of_toDocument {g : Graph} {root : Nat} {fault : ScalarFault}
    (h : g.toDocument root = .error (.scalar fault)) : g.Blocks fault :=
  (yields_toDocument (invariant_settles g) (.refl g) root).error _ h fault rfl

def HasMisfit (cs : List Char) (fault : ScalarFault) : Prop :=
  Graph.ofTokens (Token.ofText cs) = .error (.scalar fault) ∨
    ∃ g root, Graph.ofTokens (Token.ofText cs) = .ok (g, root) ∧ g.Blocks fault

theorem hasMisfit_of_read {cs : List Char} {fault : ScalarFault}
    (h : read cs = .error (.scalar fault)) : HasMisfit cs fault := by
  unfold read at h
  cases hgraph : Graph.ofTokens (Token.ofText cs) with
  | error e =>
    rw [hgraph] at h
    cases h
    exact .inl hgraph
  | ok p =>
    obtain ⟨g, root⟩ := p
    rw [hgraph] at h
    cases root with
    | none => cases h
    | some root =>
      exact .inr ⟨g, some root, hgraph, blocks_of_toDocument h⟩

end ApiTypes.Yaml
