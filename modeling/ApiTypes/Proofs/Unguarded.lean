import Mathlib.Data.Prod.Lex
import ApiTypes.Proofs.ClosedTypes

/-!
# Mappers with fewer bounds

`depthBounded` maps a tree and stops at the deepest level only; `unguarded` does not stop at all. A
part of a tree is lower than the tree, or it is the tree itself as one of its kinds, and then its
`type` is lower. So `unguarded` comes to an end, and on a graph without cycles no schema stands
inside itself.
-/

namespace ApiTypes

theorem Document.field_setField_self {d x : Document} {key : String} (h : d.field? key = some x)
    (v : Value) : (d.setField key v).field key = d.moveTo v := by
  unfold field? at h
  split at h
  · rename_i es hmap
    obtain ⟨e, he, _⟩ := Option.map_eq_some_iff.mp h
    have hreplace : (isKey key ∘ fun e => if isKey key e then (e.1, v) else e) = isKey key := by
      funext e
      rw [Function.comp_apply]
      split <;> rfl
    have hmove : (d.setField key v).moveTo = d.moveTo := by
      rw [setField, hmap]
      rfl
    rw [field, field?, value_setField hmap, hmove]
    dsimp only
    rw [List.find?_map, hreplace, he, Option.map_some, if_pos (List.find?_some he)]
    rfl
  · cases h

namespace Schema

open Document

/-! ## Rank -/

/-- The height of a tree and, in trees of one height, that of its `type`. -/
def rank (v : Value) : ℕ ×ₗ ℕ :=
  toLex (v.height, ((Document.ofValue v).field "type").here.height)

theorem rank_lt_of_height_lt {u v : Value} (h : u.height < v.height) : rank u < rank v :=
  Prod.Lex.toLex_lt_toLex.mpr (.inl h)

section
variable {v : Value}

theorem height_of_mem_items {ds : List Document} (h : (ofValue v).items? = some ds) :
    ∀ x ∈ ds, ∃ u, x = .ofValue u ∧ u.height < v.height := by
  cases v with
  | seq vs =>
    cases h
    exact List.forall_mem_map.mpr fun u hu => ⟨u, rfl, Value.height_lt_seq hu⟩
  | _ => cases h

theorem height_of_mem_entries {es : List (Scalar × Document)} (h : (ofValue v).entries? = some es) :
    ∀ e ∈ es, ∃ u, e.2 = .ofValue u ∧ u.height < v.height := by
  cases v with
  | map entries =>
    cases h
    exact List.forall_mem_map.mpr fun e he => ⟨e.2, rfl, Value.height_lt_map he⟩
  | _ => cases h

theorem field_cases (v : Value) (key : String) : ∃ u, (ofValue v).field key = .ofValue u ∧
    ((ofValue v).field? key = some (.ofValue u) ∧ u.height < v.height ∨ u = .null) := by
  cases hfield : (ofValue v).field? key with
  | none => exact ⟨.null, by rw [field, hfield]; rfl, .inr rfl⟩
  | some x =>
    obtain ⟨es, hes, hmem⟩ := exists_entry_of_field? hfield
    obtain ⟨u, rfl, hu⟩ := height_of_mem_entries hes _ hmem
    exact ⟨u, by rw [field, hfield]; rfl, .inl ⟨rfl, hu⟩⟩

theorem height_setField_le {w : Value} (h : w.height < v.height) (key : String) :
    ((ofValue v).setField key w).here.height ≤ v.height := by
  cases v with
  | map es =>
    refine Nat.succ_le_succ (Value.entryHeight_le_iff.mpr (List.forall_mem_map.mpr fun e he => ?_))
    split
    · exact Nat.le_of_lt_succ h
    · exact Nat.le_of_lt_succ (Value.height_lt_map he)
  | link _ => exact Nat.zero_le _
  | _ => exact Nat.le_refl _

theorem ofValue_setField (v w : Value) (key : String) :
    (ofValue v).setField key w = .ofValue ((ofValue v).setField key w).here := by
  cases v <;> rfl

theorem rank_setField_lt {u w : Value} (hfield : (ofValue v).field? "type" = some (.ofValue u))
    (hu : u.height < v.height) (hw : w.height < u.height) :
    rank ((ofValue v).setField "type" w).here < rank v := by
  have htype : ((ofValue v).field "type").here = u := by
    rw [field, hfield]
    rfl
  have hreplaced : ((ofValue ((ofValue v).setField "type" w).here).field "type").here = w := by
    cases v with
    | map es => exact congrArg Document.here (field_setField_self hfield w)
    | _ => cases hfield
  rw [rank, rank, htype, hreplaced]
  refine Prod.Lex.toLex_lt_toLex.mpr ?_
  rcases Nat.lt_or_eq_of_le (height_setField_le (hw.trans hu) "type") with hlt | heq
  · exact .inl hlt
  · exact .inr ⟨heq, hw⟩

theorem rank_lt_of_isPart {p : Document} (h : IsPart (.ofValue v) p) :
    ∃ u, p = .ofValue u ∧ rank u < rank v := by
  cases h with
  | @listed key ds p hitems hmem =>
    obtain ⟨u, hu, h⟩ := field_cases v key
    rw [hu] at hitems
    obtain ⟨w, rfl, hw⟩ := height_of_mem_items hitems p hmem
    rcases h with ⟨_, h⟩ | rfl
    · exact ⟨w, rfl, rank_lt_of_height_lt (hw.trans h)⟩
    · cases hitems
  | items htext =>
    obtain ⟨u, hu, h⟩ := field_cases v "items"
    obtain ⟨w, hw, htype⟩ := field_cases v "type"
    -- where `items` is absent the type alone makes the schema higher
    have hpos : 0 < v.height := by
      rcases htype with ⟨_, htype⟩ | rfl
      · exact Nat.zero_lt_of_lt htype
      · rw [hw] at htext
        cases htext
    refine ⟨u, hu, rank_lt_of_height_lt ?_⟩
    rcases h with ⟨_, h⟩ | rfl
    · exact h
    · exact hpos
  | @property es e hentries hmem =>
    obtain ⟨u, hu, h⟩ := field_cases v "properties"
    rw [hu] at hentries
    obtain ⟨w, hw, hlt⟩ := height_of_mem_entries hentries e hmem
    rcases h with ⟨_, h⟩ | rfl
    · exact ⟨w, hw, rank_lt_of_height_lt (hlt.trans h)⟩
    · cases hentries
  | @kind ks k hkinds hmem =>
    -- a kind replaces the list it stood in
    obtain ⟨u, hu, h⟩ := field_cases v "type"
    rw [hu] at hkinds
    obtain ⟨w, rfl, hw⟩ := height_of_mem_items hkinds k hmem
    rcases h with ⟨hfield, h⟩ | rfl
    · exact ⟨_, ofValue_setField v w _, rank_setField_lt hfield h hw⟩
    · cases hkinds

end

/-! ## Mappers -/

namespace Layer

variable {α : Type}

def attach : (l : Layer α) → Layer {p // p ∈ l.parts}
  | leaf t => .leaf t
  | union ps => .union ps.attach
  | intersection ps => .intersection ps.attach
  | array p => .array ⟨p, List.mem_singleton_self p⟩
  | object i entries required =>
    .object i (entries.attach.map fun e => (e.1.1, ⟨e.1.2, List.mem_map_of_mem e.2⟩)) required

theorem build_attach (l : Layer α) (f : α → Run TypeExpr) :
    (l.attach.build fun p => f p.1) = l.build f := by
  have hattach : ∀ {β γ : Type} (xs : List β) (g : β → Run γ),
      (xs.attach.mapM fun x => g x.1) = xs.mapM g := by
    intro β γ xs g
    conv_rhs => rw [← List.attach_map_subtype_val xs, List.mapM_map]
    rfl
  cases l with
  | leaf t => rfl
  | union ps =>
    have hps := hattach ps f
    rw [build, ← hps]
    rfl
  | intersection ps =>
    have hps := hattach ps f
    rw [build, ← hps]
    rfl
  | array p => rfl
  | object i entries required =>
    have hentries := hattach entries (property f)
    rw [attach, build, build, List.mapM_map, ← hentries]
    rfl

end Layer

/-- The type of a tree, with the deepest level as the one bound. -/
def depthBounded (depth : Int) (v : Value) : Run TypeExpr :=
  match direct? (.ofValue v) with
  | some t => pure t
  | none =>
    if depth ≤ maxDepth then
      (layer (.ofValue v)).build fun p => depthBounded (depth + 1) p.here
    else bounded depth (.ofValue v)
termination_by (maxDepth + 1 - depth).toNat
decreasing_by omega

/-- The type of a tree, with all its parts opened. -/
def unguarded (v : Value) : Run TypeExpr :=
  match direct? (.ofValue v) with
  | some t => pure t
  | none => (layer (.ofValue v)).attach.build fun p => unguarded p.1.here
termination_by rank v
decreasing_by
  obtain ⟨u, hu, hlt⟩ := rank_lt_of_isPart (isPart_of_mem_parts p.1 p.2)
  rw [hu]
  exact hlt

theorem unguarded_eq (v : Value) : unguarded v =
    match direct? (.ofValue v) with
    | some t => pure t
    | none => (layer (.ofValue v)).build fun p => unguarded p.here := by
  rw [unguarded]
  cases direct? (.ofValue v) with
  | some t => rfl
  | none =>
    dsimp only
    rw [Layer.build_attach (layer (.ofValue v)) fun p => unguarded p.here]

/-! ## Calls on graphs without cycles -/

theorem hereditary_cells (cells : Array Value) : Hereditary fun d => d.cells = cells where
  null h := h
  items {d ds} h hds x hx := by
    unfold items? at hds
    split at hds
    · cases hds
      obtain ⟨v, _, rfl⟩ := List.mem_map.mp hx
      exact h
    · cases hds
  entries {d es} h hes e he := by
    unfold entries? at hes
    split at hes
    · cases hes
      obtain ⟨e, _, rfl⟩ := List.mem_map.mp he
      exact h
    · cases hes
  retyped {d ks} h _ k _ := by
    unfold setField
    split <;> exact h

theorem rank_part_lt {s p : Document} (h : s.HasTree) (hp : p ∈ (layer s).parts) :
    rank p.snapshot < rank s.snapshot := by
  have hclosed : p.closed ∈ (layer s.closed).parts := by
    rw [layer_closed h, Layer.parts_closed]
    exact List.mem_map_of_mem hp
  obtain ⟨u, hu, hlt⟩ := rank_lt_of_isPart (isPart_of_mem_parts _ hclosed)
  rwa [show u = p.snapshot from (congrArg Document.here hu).symm] at hlt

namespace Call

variable {c : Call}

structure Descends (c : Call) : Prop where
  hasTree : c.schema.HasTree
  lower : ∀ n ∈ c.outer, rank c.schema.snapshot < rank (c.schema.moveTo (.link n)).snapshot

theorem Descends.isMet_eq_false (h : c.Descends) : c.isMet = false := by
  unfold isMet cell?
  split
  · rename_i n hlink
    have hself : c.schema.moveTo (.link n) = c.schema := by rw [moveTo, ← hlink]
    have hnew : n ∉ c.outer := by
      intro hn
      have hlt := h.lower n hn
      rw [hself] at hlt
      exact lt_irrefl _ hlt
    simpa using hnew
  · rfl

theorem Descends.inner (h : c.Descends) {p : Document} (hp : p ∈ (layer c.schema).parts) :
    (c.inner p).Descends := by
  have hlt := rank_part_lt h.hasTree hp
  have hmove : p.moveTo = c.schema.moveTo := by
    unfold moveTo
    rw [parts_of_hereditary (hereditary_cells c.schema.cells) rfl p hp]
  refine ⟨parts_of_hereditary hereditary_hasTree h.hasTree p hp, fun n hn => ?_⟩
  show rank p.snapshot < rank (p.moveTo (.link n)).snapshot
  rw [hmove]
  rcases List.mem_append.mp hn with hcell | houter
  · unfold cell? at hcell
    split at hcell
    · rename_i m hlink
      rw [List.mem_singleton.mp hcell, moveTo, ← hlink]
      exact hlt
    · cases hcell
  · exact hlt.trans (h.lower n houter)

theorem Descends.reaches (h : c.Descends) {c' : Call} (hc' : c.Reaches c') : c'.Descends := by
  induction hc' with
  | refl => exact h
  | tail _ hlast ih =>
    obtain ⟨_, p, hp, rfl⟩ := hlast
    exact ih.inner hp

theorem Descends.result_depthBounded (h : c.Descends) :
    (depthBounded c.depth c.schema.snapshot).result = c.run.result.map TypeExpr.closed := by
  induction c using Call.induction with
  | step c ih =>
    have hdirect := direct?_closed h.hasTree
    rw [depthBounded, ← Document.closed, hdirect]
    cases hschema : direct? c.schema with
    | some t =>
      rw [run_direct hschema]
      rfl
    | none =>
      dsimp only [Option.map_none]
      by_cases hdepth : c.depth ≤ maxDepth
      · have hopens : c.Opens := ⟨hschema, h.isMet_eq_false, hdepth⟩
        rw [if_pos hdepth, run_opens hopens, layer_closed h.hasTree]
        exact Layer.result_build_closed fun p hp => ih hopens p hp (h.inner hp)
      · rw [if_neg hdepth, run_bounded hschema fun hopens => hdepth hopens.depth_le]
        exact congrArg Except.ok (unopened_closed h.hasTree)

def IsShallow (c : Call) : Prop :=
  ∀ c', c.Reaches c' → maxDepth < c'.depth → c'.schema.entries? = none

theorem Descends.result_unguarded (h : c.Descends) (hshallow : c.IsShallow) :
    (unguarded c.schema.snapshot).result = c.run.result.map TypeExpr.closed := by
  induction c using Call.induction with
  | step c ih =>
    obtain ⟨hself, hinner⟩ := forall_reaches_iff.mp hshallow
    rw [unguarded_eq, ← Document.closed, direct?_closed h.hasTree]
    cases hschema : direct? c.schema with
    | some t =>
      rw [run_direct hschema]
      rfl
    | none =>
      have hdepth : c.depth ≤ maxDepth := by
        by_contra hdeep
        rw [direct?, hself (by omega)] at hschema
        cases hschema
      have hopens : c.Opens := ⟨hschema, h.isMet_eq_false, hdepth⟩
      dsimp only [Option.map_none]
      rw [run_opens hopens, layer_closed h.hasTree]
      exact Layer.result_build_closed fun p hp => ih hopens p hp (h.inner hp) (hinner hopens p hp)

end Call

/-- On a graph without cycles the mapper comes to the type of the tree that the graph unfolds to: no
schema is found inside itself, so only the deepest level bounds it, and where no mapping stands below
that level nothing does. -/
theorem transparent_of_acyclic {d : Document} (h : d.Acyclic) :
    Unfolds d.cells d.here d.snapshot ∧
    (∀ c, (Call.mk 0 [] d).Reaches c → c.isMet = false) ∧
    (typeOf d).result.map TypeExpr.closed = (depthBounded 0 d.snapshot).result ∧
    ((Call.mk 0 [] d).IsShallow →
      (typeOf d).result.map TypeExpr.closed = (unguarded d.snapshot).result) := by
  have hdescends : (Call.mk 0 [] d).Descends := ⟨h.hasTree, nofun⟩
  refine ⟨h.hasTree, fun c hc => (hdescends.reaches hc).isMet_eq_false, ?_, fun hshallow => ?_⟩
  · exact hdescends.result_depthBounded.symm
  · exact (hdescends.result_unguarded hshallow).symm

def twice : Document where
  cells := #[.map [(.text "type", .scalar (.text "string"))]]
  here := .map [
    (.text "type", .scalar (.text "object")),
    (.text "properties", .map [(.text "a", .link 0), (.text "b", .link 0)])]

theorem acyclic_twice : twice.Acyclic where
  placed n m h := by
    obtain ⟨hn, hm⟩ := Array.getElem?_eq_some_iff.mp h
    obtain rfl : n = 0 := Nat.lt_one_iff.mp hn
    cases hm
  irrefl n _ hcycle := by
    have hunder : ∀ v, Relation.TransGen (Holds twice.cells) (.link n) v →
        v = .map [(.text "type", .scalar (.text "string"))] ∨ v = .scalar (.text "string") := by
      intro v hv
      induction hv with
      | single hlast =>
        cases hlast with
        | cell hget =>
          obtain ⟨hn, rfl⟩ := Array.getElem?_eq_some_iff.mp hget
          obtain rfl : n = 0 := Nat.lt_one_iff.mp hn
          exact .inl rfl
      | tail _ hlast ih =>
        rcases ih with rfl | rfl
        · cases hlast with
          | entry he =>
            rw [List.mem_singleton.mp he]
            exact .inr rfl
        · cases hlast
    rcases hunder _ hcycle with h | h <;> cases h

theorem isShallow_twice : (Call.mk 0 [] twice).IsShallow := by
  have hparts : (layer twice).parts = [twice.moveTo (.link 0), twice.moveTo (.link 0)] := rfl
  have hleaf : (layer (twice.moveTo (.link 0))).parts = [] := rfl
  intro c hc hdeep
  rcases Relation.ReflTransGen.cases_head hc with rfl | ⟨_, ⟨_, p, hp, rfl⟩, hc⟩
  · cases hdeep
  · rw [hparts, List.mem_pair, or_self] at hp
    subst hp
    rcases Relation.ReflTransGen.cases_head hc with rfl | ⟨_, ⟨_, q, hq, rfl⟩, _⟩
    · cases hdeep
    · have hnone : q ∈ (layer (twice.moveTo (.link 0))).parts := hq
      rw [hleaf] at hnone
      cases hnone

theorem transparent_twice : twice.Acyclic ∧ (Call.mk 0 [] twice).IsShallow ∧
    (typeOf twice).result.map TypeExpr.closed = (unguarded twice.snapshot).result :=
  ⟨acyclic_twice, isShallow_twice, (transparent_of_acyclic acyclic_twice).2.2.2 isShallow_twice⟩

end Schema

end ApiTypes
