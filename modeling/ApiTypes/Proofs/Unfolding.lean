import Mathlib.Data.Fintype.EquivFin
import ApiTypes.Proofs.Inside
import ApiTypes.Proofs.Literal

/-!
# Unfolding

A graph in which no container stands inside itself unfolds to a tree, in which a shared container
stands at every place that it is reached on. The snapshot of such a graph is this tree, and reading
a place and then unfolding it comes to the same as reading the tree.
-/

namespace ApiTypes

namespace Value

/-! ## Height -/

mutual

def height : Value → Nat
  | scalar _ | set _ | link _ => 0
  | seq items | tuple items => itemHeight items + 1
  | map entries => entryHeight entries + 1

def itemHeight : List Value → Nat
  | [] => 0
  | v :: vs => max (height v) (itemHeight vs)

def entryHeight : List (Scalar × Value) → Nat
  | [] => 0
  | (_, v) :: es => max (height v) (entryHeight es)

end

theorem itemHeight_le_iff {vs : List Value} {n : Nat} :
    itemHeight vs ≤ n ↔ ∀ v ∈ vs, v.height ≤ n := by
  induction vs with
  | nil => simp [itemHeight]
  | cons v vs ih => rw [itemHeight, Nat.max_le, ih, List.forall_mem_cons]

theorem entryHeight_le_iff {es : List (Scalar × Value)} {n : Nat} :
    entryHeight es ≤ n ↔ ∀ e ∈ es, e.2.height ≤ n := by
  induction es with
  | nil => simp [entryHeight]
  | cons e es ih => rw [entryHeight, Nat.max_le, ih, List.forall_mem_cons]

theorem height_lt_seq {vs : List Value} {v : Value} (h : v ∈ vs) : v.height < (seq vs).height :=
  Nat.lt_succ_of_le (itemHeight_le_iff.mp (Nat.le_refl _) v h)

theorem height_lt_tuple {vs : List Value} {v : Value} (h : v ∈ vs) : v.height < (tuple vs).height :=
  Nat.lt_succ_of_le (itemHeight_le_iff.mp (Nat.le_refl _) v h)

theorem height_lt_map {es : List (Scalar × Value)} {e : Scalar × Value} (h : e ∈ es) :
    e.2.height < (map es).height :=
  Nat.lt_succ_of_le (entryHeight_le_iff.mp (Nat.le_refl _) e h)

end Value

namespace Document

/-! ## Graphs without cycles -/

/-- What stands in a value: its parts or, where it is a link, the container in the cell. -/
inductive Holds (cells : Array Value) : Value → Value → Prop
  | item {vs v} : v ∈ vs → Holds cells (.seq vs) v
  | member {vs v} : v ∈ vs → Holds cells (.tuple vs) v
  | entry {es e} : e ∈ es → Holds cells (.map es) e.2
  | cell {n v} : cells[n]? = some v → Holds cells (.link n) v

/-- Every cell holds a container itself, and no link to another cell. -/
def Placed (cells : Array Value) : Prop := ∀ n m : Nat, cells[n]? ≠ some (.link m)

structure Acyclic (d : Document) : Prop where
  placed : Placed d.cells
  irrefl : ∀ n, Relation.ReflTransGen (Holds d.cells) d.here (.link n) →
    ¬ Relation.TransGen (Holds d.cells) (.link n) (.link n)

def content (cells : Array Value) (n : Nat) : Value := (cells[n]?).getD .null

/-- The tree of a value, in which a tree stands for every part and every link. -/
inductive Unfolds (cells : Array Value) : Value → Value → Prop
  | scalar (s) : Unfolds cells (.scalar s) (.scalar s)
  | set (members) : Unfolds cells (.set members) (.set members)
  | seq {vs} (f : Value → Value) : (∀ v ∈ vs, Unfolds cells v (f v)) →
      Unfolds cells (.seq vs) (.seq (vs.map f))
  | tuple {vs} (f : Value → Value) : (∀ v ∈ vs, Unfolds cells v (f v)) →
      Unfolds cells (.tuple vs) (.tuple (vs.map f))
  | map {es} (f : Value → Value) : (∀ e ∈ es, Unfolds cells e.2 (f e.2)) →
      Unfolds cells (.map es) (.map (es.map fun e => (e.1, f e.2)))
  | link {n t} : (∀ m, content cells n ≠ .link m) → Unfolds cells (content cells n) t →
      Unfolds cells (.link n) t

variable {cells : Array Value}

theorem Unfolds.unique {v t u : Value} (h : Unfolds cells v t) (h' : Unfolds cells v u) :
    t = u := by
  induction h generalizing u with
  | scalar | set =>
    cases h'
    rfl
  | seq f _ ih =>
    cases h' with
    | seq g hg => rw [List.map_congr_left fun v hv => ih v hv (hg v hv)]
  | tuple f _ ih =>
    cases h' with
    | tuple g hg => rw [List.map_congr_left fun v hv => ih v hv (hg v hv)]
  | map f _ ih =>
    cases h' with
    | map g hg => rw [List.map_congr_left fun e he => congrArg (Prod.mk e.1) (ih e he (hg e he))]
  | link _ _ ih =>
    cases h' with
    | link _ h => exact ih h

theorem Unfolds.ne_link {v t : Value} (h : Unfolds cells v t) (n : Nat) : t ≠ .link n := by
  induction h with
  | link _ _ ih => exact ih
  | _ => nofun

/-! ### Trees of graphs without cycles -/

theorem exists_unfolds_of_links {v : Value}
    (h : ∀ n, Relation.ReflTransGen (Holds cells) v (.link n) → ∃ t, Unfolds cells (.link n) t) :
    ∃ t, Unfolds cells v t := by
  induction v with
  | scalar s => exact ⟨_, .scalar s⟩
  | set members => exact ⟨_, .set members⟩
  | seq vs ih =>
    choose! f hf using fun v hv => ih v hv fun n hn => h n (.head (.item hv) hn)
    exact ⟨_, .seq f hf⟩
  | tuple vs ih =>
    choose! f hf using fun v hv => ih v hv fun n hn => h n (.head (.member hv) hn)
    exact ⟨_, .tuple f hf⟩
  | map es ih =>
    have hall : ∀ v ∈ es.map (·.2), ∃ t, Unfolds cells v t :=
      List.forall_mem_map.mpr fun e he => ih e he fun n hn => h n (.head (.entry he) hn)
    choose! f hf using hall
    exact ⟨_, .map f (List.forall_mem_map.mp hf)⟩
  | link n => exact h n .refl

theorem unfolds_dangling {n : Nat} (h : cells.size ≤ n) : Unfolds cells (.link n) .null := by
  have hnull : content cells n = .null := by
    rw [content, Array.getElem?_eq_none h]
    rfl
  refine .link (by rw [hnull]; nofun) ?_
  rw [hnull]
  exact .scalar .null

theorem Acyclic.exists_unfolds {d : Document} (h : d.Acyclic) :
    ∃ t, Unfolds d.cells d.here t := by
  let Under (m n : Fin d.cells.size) : Prop :=
    Relation.ReflTransGen (Holds d.cells) d.here (.link n) ∧
      Relation.TransGen (Holds d.cells) (.link n) (.link m)
  have htrans : IsTrans _ Under := ⟨fun a b c hab hbc => ⟨hbc.1, hbc.2.trans hab.2⟩⟩
  have hirrefl : Std.Irrefl Under := ⟨fun a haa => h.irrefl a haa.1 haa.2⟩
  -- links that lead strictly down are well-founded, as the cells are finitely many
  have hwf : WellFounded Under := Finite.wellFounded_of_trans_of_irrefl Under
  have hcell : ∀ n : Fin d.cells.size, Relation.ReflTransGen (Holds d.cells) d.here (.link n) →
      ∃ t, Unfolds d.cells (.link n) t := by
    intro n
    induction n using hwf.induction with
    | h n ih =>
      intro hn
      have hget : d.cells[n.1]? = some d.cells[n] := Array.getElem?_eq_getElem n.2
      have hcontent : content d.cells n = d.cells[n] := by
        rw [content, hget]
        rfl
      obtain ⟨t, ht⟩ : ∃ t, Unfolds d.cells d.cells[n] t := by
        refine exists_unfolds_of_links fun m hm => ?_
        have hunder := Relation.TransGen.head' (Holds.cell hget) hm
        rcases Nat.lt_or_ge m d.cells.size with hlt | hge
        · exact ih ⟨m, hlt⟩ ⟨hn, hunder⟩ (hn.trans hunder.to_reflTransGen)
        · exact ⟨_, unfolds_dangling hge⟩
      refine ⟨t, .link (fun m hm => h.placed n m ?_) (hcontent ▸ ht)⟩
      rw [hget, ← hcontent, hm]
  refine exists_unfolds_of_links fun n hn => ?_
  rcases Nat.lt_or_ge n d.cells.size with hlt | hge
  · exact hcell ⟨n, hlt⟩ hn
  · exact ⟨_, unfolds_dangling hge⟩

/-! ### Snapshots -/

theorem closeItems_eq_map (follow : Nat → List (Option Nat) → Value) (outer : List (Option Nat))
    (vs : List Value) : closeItems follow outer vs = vs.map (closeWith follow none outer) := by
  induction vs with
  | nil => rfl
  | cons v vs ih => rw [closeItems, ih, List.map_cons]

theorem closeEntries_eq_map (follow : Nat → List (Option Nat) → Value) (outer : List (Option Nat))
    (es : List (Scalar × Value)) :
    closeEntries follow outer es = es.map fun e => (e.1, closeWith follow none outer e.2) := by
  induction es with
  | nil => rfl
  | cons e es ih => rw [closeEntries, ih, List.map_cons]

/-- Where a value is closed whose tree is `t`: the cells around it differ, their trees are higher than
`t`, and with those that may still be entered there are as many as cells. -/
structure Around (cells : Array Value) (hops : Nat) (cell : Option Nat) (outer : List (Option Nat))
    (t : Value) : Prop where
  nodup : ((cell :: outer).filterMap id).Nodup
  lt_size : ∀ n ∈ (cell :: outer).filterMap id, n < cells.size
  length : hops + ((cell :: outer).filterMap id).length = cells.size
  self : ∀ n, cell = some n → Unfolds cells (.link n) t
  higher : ∀ n, some n ∈ outer → ∃ u, Unfolds cells (.link n) u ∧ t.height < u.height

section
variable {hops : Nat} {cell : Option Nat} {outer : List (Option Nat)} {t : Value}

theorem Around.part (h : Around cells hops cell outer t) {u : Value} (hu : u.height < t.height) :
    Around cells hops none (cell :: outer) u where
  nodup := h.nodup
  lt_size := h.lt_size
  length := h.length
  self := nofun
  higher n hn := by
    rcases List.mem_cons.mp hn with hcell | hn
    · exact ⟨t, h.self n hcell.symm, hu⟩
    · obtain ⟨w, hw, htw⟩ := h.higher n hn
      exact ⟨w, hw, hu.trans htw⟩

/-- No cell is entered inside itself, as its tree would be higher than itself. -/
theorem Around.not_mem (h : Around cells hops none outer t) {n : Nat}
    (hn : Unfolds cells (.link n) t) : some n ∉ outer := by
  intro hmem
  obtain ⟨u, hu, htu⟩ := h.higher n hmem
  rw [hn.unique hu] at htu
  exact Nat.lt_irrefl _ htu

theorem Around.enter (h : Around cells hops none outer t) {n : Nat}
    (hn : Unfolds cells (.link n) t) (hlt : n < cells.size) :
    ∃ left, hops = left + 1 ∧ Around cells left (some n) outer t := by
  have hnodup : (n :: outer.filterMap id).Nodup := by
    refine List.nodup_cons.mpr ⟨fun hmem => ?_, h.nodup⟩
    obtain ⟨_, hmem, rfl⟩ := List.mem_filterMap.mp hmem
    exact h.not_mem hn hmem
  have hlt_size : ∀ m ∈ n :: outer.filterMap id, m < cells.size :=
    List.forall_mem_cons.mpr ⟨hlt, h.lt_size⟩
  have hle : (n :: outer.filterMap id).length ≤ cells.size := by
    have hsub : n :: outer.filterMap id ⊆ List.range cells.size := fun m hm =>
      List.mem_range.mpr (hlt_size m hm)
    have hlength := (List.subperm_of_subset hnodup hsub).length_le
    rwa [List.length_range] at hlength
  have hlength : hops + (outer.filterMap id).length = cells.size := h.length
  rw [List.length_cons] at hle
  obtain ⟨left, rfl⟩ : ∃ left, hops = left + 1 := ⟨hops - 1, by omega⟩
  refine ⟨left, rfl, hnodup, hlt_size, ?_, ?_, h.higher⟩
  · show left + ((outer.filterMap id).length + 1) = cells.size
    omega
  · rintro m ⟨⟩
    exact hn

end

theorem closeWith_eq_of_unfolds {v t : Value} (h : Unfolds cells v t) {hops : Nat}
    {cell : Option Nat} {outer : List (Option Nat)} (hcell : ∀ n, v = .link n → cell = none)
    (haround : Around cells hops cell outer t) :
    closeWith (closeCell cells hops) cell outer v = t := by
  induction h generalizing hops cell outer with
  | scalar | set => rw [closeWith]
  | seq f _ ih =>
    rw [closeWith, closeItems_eq_map]
    congr 1
    refine List.map_congr_left fun v hv => ih v hv (fun _ _ => rfl) (haround.part ?_)
    exact Value.height_lt_seq (List.mem_map_of_mem hv)
  | tuple f _ ih =>
    rw [closeWith, closeItems_eq_map]
    congr 1
    refine List.map_congr_left fun v hv => ih v hv (fun _ _ => rfl) (haround.part ?_)
    exact Value.height_lt_tuple (List.mem_map_of_mem hv)
  | map f _ ih =>
    rw [closeWith, closeEntries_eq_map]
    congr 1
    refine List.map_congr_left fun e he => ?_
    rw [ih e he (fun _ _ => rfl) (haround.part ?_)]
    exact Value.height_lt_map (List.mem_map_of_mem (f := fun e => (e.1, f e.2)) he)
  | @link n t hcontent hunfolds ih =>
    obtain rfl := hcell n rfl
    have hn : Unfolds cells (.link n) t := .link hcontent hunfolds
    -- the cells around hold higher trees, so this one is not among them
    have hnew : outer.idxOf? (some n) = none := List.idxOf?_eq_none_iff.mpr (haround.not_mem hn)
    rw [closeWith, hnew]
    dsimp only
    rcases Nat.lt_or_ge n cells.size with hlt | hge
    · obtain ⟨left, rfl, hinner⟩ := haround.enter hn hlt
      exact ih (fun m hm => absurd hm (hcontent m)) hinner
    · have hnull : cells[n]? = none := Array.getElem?_eq_none hge
      rw [hn.unique (unfolds_dangling hge)]
      cases hops with
      | zero => rfl
      | succ left =>
        rw [closeCell, hnull]
        rfl

theorem snapshot_eq_of_unfolds {d : Document} {t : Value} (h : Unfolds d.cells d.here t) :
    d.snapshot = t :=
  closeWith_eq_of_unfolds h (fun _ _ => rfl) ⟨List.nodup_nil, nofun, rfl, nofun, nofun⟩

/-! ## Reading trees -/

def HasTree (d : Document) : Prop := Unfolds d.cells d.here d.snapshot

def closed (d : Document) : Document := .ofValue d.snapshot

theorem hasTree_of_unfolds {d : Document} {t : Value} (h : Unfolds d.cells d.here t) :
    d.HasTree := by
  rw [HasTree, snapshot_eq_of_unfolds h]
  exact h

theorem Acyclic.hasTree {d : Document} (h : d.Acyclic) : d.HasTree := by
  obtain ⟨t, ht⟩ := h.exists_unfolds
  exact hasTree_of_unfolds ht

/-- What is read at a place, with the tree of it: the trees of its parts stand in the tree. -/
inductive Shape (d : Document) : Value → Value → Prop
  | scalar (s) : Shape d (.scalar s) (.scalar s)
  | set (members) : Shape d (.set members) (.set members)
  | seq {vs} : (∀ v ∈ vs, (d.moveTo v).HasTree) →
      Shape d (.seq vs) (.seq (vs.map fun v => (d.moveTo v).snapshot))
  | tuple {vs} : (∀ v ∈ vs, (d.moveTo v).HasTree) →
      Shape d (.tuple vs) (.tuple (vs.map fun v => (d.moveTo v).snapshot))
  | map {es} : (∀ e ∈ es, (d.moveTo e.2).HasTree) →
      Shape d (.map es) (.map (es.map fun e => (e.1, (d.moveTo e.2).snapshot)))

section
variable {d : Document}

theorem HasTree.shape (h : d.HasTree) : Shape d d.value d.snapshot := by
  -- behind the link, if there is one, stands the same tree
  have hvalue : Unfolds d.cells d.value d.snapshot ∧ ∀ n, d.value ≠ .link n := by
    unfold HasTree at h
    unfold value
    split
    · rename_i n hn
      rw [hn] at h
      cases h with
      | link hcontent h => exact ⟨h, hcontent⟩
    · rename_i hn
      exact ⟨h, hn⟩
  obtain ⟨hunfolds, hlink⟩ := hvalue
  have hpart : ∀ {v t}, Unfolds d.cells v t → (d.moveTo v).HasTree ∧ t = (d.moveTo v).snapshot :=
    fun {v t} hv => ⟨hasTree_of_unfolds (d := d.moveTo v) hv,
      (snapshot_eq_of_unfolds (d := d.moveTo v) hv).symm⟩
  generalize d.value = v, d.snapshot = t at *
  cases hunfolds with
  | scalar s => exact .scalar s
  | set members => exact .set members
  | seq f hf =>
    rw [List.map_congr_left fun v hv => (hpart (hf v hv)).2]
    exact .seq fun v hv => (hpart (hf v hv)).1
  | tuple f hf =>
    rw [List.map_congr_left fun v hv => (hpart (hf v hv)).2]
    exact .tuple fun v hv => (hpart (hf v hv)).1
  | map f hf =>
    rw [List.map_congr_left fun e he => congrArg (Prod.mk e.1) (hpart (hf e he)).2]
    exact .map fun e he => (hpart (hf e he)).1
  | link _ _ => exact absurd rfl (hlink _)

theorem HasTree.value_closed (h : d.HasTree) : d.closed.value = d.snapshot := by
  rw [closed, value]
  split
  · rename_i n hn
    exact absurd hn (h.ne_link n)
  · rfl

theorem HasTree.items?_closed (h : d.HasTree) :
    d.closed.items? = d.items?.map (List.map closed) := by
  have hshape := h.shape
  rw [items?, items?, h.value_closed]
  generalize d.value = v, d.snapshot = t at hshape
  cases hshape with
  | seq hvs =>
    dsimp only [Option.map_some]
    rw [List.map_map, List.map_map]
    rfl
  | _ => rfl

theorem HasTree.entries?_closed (h : d.HasTree) :
    d.closed.entries? = d.entries?.map (List.map fun e => (e.1, e.2.closed)) := by
  have hshape := h.shape
  rw [entries?, entries?, h.value_closed]
  generalize d.value = v, d.snapshot = t at hshape
  cases hshape with
  | map hes =>
    dsimp only [Option.map_some]
    rw [List.map_map, List.map_map]
    rfl
  | _ => rfl

theorem HasTree.text?_closed (h : d.HasTree) : d.closed.text? = d.text? := by
  have hshape := h.shape
  rw [text?, text?, h.value_closed]
  generalize d.value = v, d.snapshot = t at hshape
  cases hshape <;> rfl

theorem HasTree.isNull_closed (h : d.HasTree) : d.closed.isNull = d.isNull := by
  have hshape := h.shape
  rw [isNull, isNull, h.value_closed]
  generalize d.value = v, d.snapshot = t at hshape
  cases hshape <;> rfl

theorem HasTree.isTrue_closed (h : d.HasTree) : d.closed.isTrue = d.isTrue := by
  have hshape := h.shape
  rw [isTrue, isTrue, h.value_closed]
  generalize d.value = v, d.snapshot = t at hshape
  cases hshape <;> rfl

theorem HasTree.field_closed (h : d.HasTree) (key : String) :
    d.closed.field key = (d.field key).closed := by
  have hshape := h.shape
  rw [field, field, field?, field?, h.value_closed]
  generalize d.value = v, d.snapshot = t at hshape
  cases hshape with
  | @map es _ =>
    dsimp only
    have hkey : (isKey key ∘ fun e : Scalar × Value => (e.1, (d.moveTo e.2).snapshot)) =
        isKey key := rfl
    rw [List.find?_map, hkey]
    cases es.find? (isKey key) <;> rfl
  | _ => rfl

theorem hasTree_map {es : List (Scalar × Value)} (h : ∀ e ∈ es, (d.moveTo e.2).HasTree) :
    (d.moveTo (.map es)).HasTree :=
  hasTree_of_unfolds (d := d.moveTo (.map es)) (.map (fun v => (d.moveTo v).snapshot) h)

theorem snapshot_map {es : List (Scalar × Value)} (h : ∀ e ∈ es, (d.moveTo e.2).HasTree) :
    (d.moveTo (.map es)).snapshot = .map (es.map fun e => (e.1, (d.moveTo e.2).snapshot)) :=
  snapshot_eq_of_unfolds (d := d.moveTo (.map es)) (.map (fun v => (d.moveTo v).snapshot) h)

theorem HasTree.setField (h : d.HasTree) {es : List (Scalar × Value)} (hmap : d.value = .map es)
    {v : Value} (hv : (d.moveTo v).HasTree) (key : String) : (d.setField key v).HasTree ∧
      (d.setField key v).closed = d.closed.setField key (d.moveTo v).snapshot := by
  have hshape := h.shape
  rw [Document.setField, Document.setField, h.value_closed]
  rw [hmap] at hshape ⊢
  generalize d.snapshot = t at hshape
  cases hshape with
  | map hes =>
    have hreplaced : ∀ e ∈ es.map fun e => if isKey key e then (e.1, v) else e,
        (d.moveTo e.2).HasTree := by
      refine List.forall_mem_map.mpr fun e he => ?_
      split
      · exact hv
      · exact hes e he
    refine ⟨hasTree_map hreplaced, ?_⟩
    dsimp only
    rw [closed, snapshot_map hreplaced, List.map_map, List.map_map]
    congr 2
    refine List.map_congr_left fun e _ => ?_
    have hkey : isKey key (e.1, (d.moveTo e.2).snapshot) = isKey key e := rfl
    dsimp only [Function.comp_apply]
    rw [hkey]
    split <;> rfl

end

theorem hasTree_items {d : Document} {ds : List Document} (h : d.HasTree)
    (hds : d.items? = some ds) : ∀ x ∈ ds, x.HasTree := by
  have hshape := h.shape
  unfold items? at hds
  generalize d.value = v, d.snapshot = t at hshape hds
  cases hshape with
  | seq hvs =>
    cases hds
    exact List.forall_mem_map.mpr hvs
  | _ => cases hds

theorem hasTree_entries {d : Document} {es : List (Scalar × Document)} (h : d.HasTree)
    (hes : d.entries? = some es) : ∀ e ∈ es, e.2.HasTree := by
  have hshape := h.shape
  unfold entries? at hes
  generalize d.value = v, d.snapshot = t at hshape hes
  cases hshape with
  | map hall =>
    cases hes
    exact List.forall_mem_map.mpr hall
  | _ => cases hes

theorem inside_kinds {d : Document} {ks : List Document} (h : (d.field "type").items? = some ks) :
    ∃ x, d.field? "type" = some x ∧ x.items? = some ks ∧ ∀ k ∈ ks, k = d.moveTo k.here := by
  cases hfield : d.field? "type" with
  | none =>
    rw [field, hfield] at h
    cases h
  | some x =>
    rw [field, hfield] at h
    exact ⟨x, rfl, h, fun k hk => ((inside_of_field hfield).item h hk).eq_moveTo⟩

theorem hereditary_hasTree : Hereditary HasTree where
  null _ := hasTree_of_unfolds (.scalar .null)
  items := hasTree_items
  entries := hasTree_entries
  retyped {d ks} h hks k hk := by
    obtain ⟨entries, hmap⟩ := exists_map_of_items? hks
    obtain ⟨x, hx, hitems, hkinds⟩ := inside_kinds hks
    obtain ⟨es, hes, hmem⟩ := exists_entry_of_field? hx
    have htree : k.HasTree := hasTree_items (hasTree_entries h hes _ hmem) hitems k hk
    exact (h.setField hmap (hkinds k hk ▸ htree) "type").1

end Document

end ApiTypes
