import Mathlib.Logic.Relation
import ApiTypes.Schema
import ApiTypes.Proofs.Run

/-!
# Schemas layer by layer

`layer s` is what a schema asks for when it is opened: a type, or a type put together from those of
the schemas in it. A call of the mapper opens one layer and goes on with its parts, unless one of
the two bounds holds.
-/

namespace ApiTypes

theorem Scalar.written_eq_error {s : Scalar} {fault : WriteFault} (h : s.written = .error fault) :
    fault = .tooLong := by
  unfold Scalar.written Scalar.fault? at h
  split at h
  · rename_i hfault
    split at hfault
    · split at hfault
      · cases hfault
        cases h
        rfl
      · cases hfault
    · cases hfault
  · cases h

theorem Scalar.eq_display_of_written {s : Scalar} {name : String} (h : s.written = .ok name) :
    name = s.display := by
  unfold written at h
  split at h
  · cases h
  · cases h
    rfl

theorem Scalar.exists_written_iff {s : Scalar} : (∃ t, s.written = .ok t) ↔ s.fault? = none := by
  unfold Scalar.written
  cases s.fault? <;> simp

theorem exists_forall₂_iff {α β : Type} {R : α → β → Prop} {xs : List α} :
    (∃ ys, List.Forall₂ R xs ys) ↔ ∀ x ∈ xs, ∃ y, R x y := by
  induction xs with
  | nil => exact ⟨fun _ => List.forall_mem_nil _, fun _ => ⟨[], .nil⟩⟩
  | cons x xs ih =>
    rw [List.forall_mem_cons, ← ih]
    constructor
    · rintro ⟨_, h⟩
      cases h with
      | cons hy hys => exact ⟨⟨_, hy⟩, _, hys⟩
    · rintro ⟨⟨y, hy⟩, ys, hys⟩
      exact ⟨y :: ys, .cons hy hys⟩

namespace Schema

/-! ## Layers -/

inductive Layer (α : Type)
  | leaf (t : TypeExpr)
  | union (parts : List α)
  | intersection (parts : List α)
  | array (part : α)
  | object (info : Info) (entries : List (Scalar × α)) (required : List String)

namespace Layer

variable {α β : Type}

def parts : Layer α → List α
  | leaf _ => []
  | union parts | intersection parts => parts
  | array part => [part]
  | object _ entries _ => entries.map (·.2)

def keys : Layer α → List Scalar
  | object _ entries _ => entries.map (·.1)
  | _ => []

def property (inner : α → Run TypeExpr) (e : Scalar × α) : Run (String × TypeExpr) := do
  pure (← Run.ofWritten e.1.written, ← inner e.2)

def build (inner : α → Run TypeExpr) : Layer α → Run TypeExpr
  | leaf t => pure t
  | union parts => do pure (.union .none (← parts.mapM inner))
  | intersection parts => do pure (.intersection .none (← parts.mapM inner))
  | array part => do pure (.array .none (← inner part))
  | object info entries required => do
    pure (.ofProperties info (← entries.mapM (property inner)) required)

inductive Built (R : α → TypeExpr → Prop) : Layer α → TypeExpr → Prop
  | leaf (t) : Built R (.leaf t) t
  | union {ps ts} : List.Forall₂ R ps ts → Built R (.union ps) (.union .none ts)
  | intersection {ps ts} : List.Forall₂ R ps ts → Built R (.intersection ps) (.intersection .none ts)
  | array {p t} : R p t → Built R (.array p) (.array .none t)
  | object {i entries ps required} :
      List.Forall₂ (fun e p => e.1.written = .ok p.1 ∧ R e.2 p.2) entries ps →
      Built R (.object i entries required) (.ofProperties i ps required)

variable {l : Layer α} {inner : α → Run TypeExpr} {t : TypeExpr}

theorem build_eq_ok : (l.build inner).result = .ok t ↔
    Built (fun p u => (inner p).result = .ok u) l t := by
  constructor
  · intro h
    cases l with
    | leaf u =>
      cases h
      exact .leaf _
    | union ps =>
      obtain ⟨ts, hts, h⟩ := Run.bind_eq_ok.mp h
      cases h
      exact .union (Run.mapM_eq_ok.mp hts)
    | intersection ps =>
      obtain ⟨ts, hts, h⟩ := Run.bind_eq_ok.mp h
      cases h
      exact .intersection (Run.mapM_eq_ok.mp hts)
    | array p =>
      obtain ⟨u, hu, h⟩ := Run.bind_eq_ok.mp h
      cases h
      exact .array hu
    | object i entries required =>
      obtain ⟨ps, hps, h⟩ := Run.bind_eq_ok.mp h
      cases h
      -- a property is a written name and then a built type
      refine .object ((Run.mapM_eq_ok.mp hps).imp fun e p hp => ?_)
      obtain ⟨name, hname, hp⟩ := Run.bind_eq_ok.mp hp
      obtain ⟨u, hu, hp⟩ := Run.bind_eq_ok.mp hp
      cases hp
      exact ⟨Run.ofWritten_eq_ok.mp hname, hu⟩
  · intro h
    cases h with
    | leaf => rfl
    | union hts => exact Run.bind_eq_ok.mpr ⟨_, Run.mapM_eq_ok.mpr hts, rfl⟩
    | intersection hts => exact Run.bind_eq_ok.mpr ⟨_, Run.mapM_eq_ok.mpr hts, rfl⟩
    | array ht => exact Run.bind_eq_ok.mpr ⟨_, ht, rfl⟩
    | object hps =>
      refine Run.bind_eq_ok.mpr ⟨_, Run.mapM_eq_ok.mpr (hps.imp fun e p hp => ?_), rfl⟩
      exact Run.bind_eq_ok.mpr ⟨_, Run.ofWritten_eq_ok.mpr hp.1, Run.bind_eq_ok.mpr ⟨_, hp.2, rfl⟩⟩

theorem exists_built_iff {R : α → TypeExpr → Prop} : (∃ t, Built R l t) ↔
    (∀ key ∈ l.keys, key.fault? = none) ∧ ∀ p ∈ l.parts, ∃ t, R p t := by
  -- a property fails by its key or by its type, independently
  have hentry : ∀ e : Scalar × α, (∃ p : String × TypeExpr, e.1.written = .ok p.1 ∧ R e.2 p.2) ↔
      e.1.fault? = none ∧ ∃ u, R e.2 u := by
    intro e
    rw [← Scalar.exists_written_iff]
    exact ⟨fun ⟨p, hname, hu⟩ => ⟨⟨_, hname⟩, _, hu⟩, fun ⟨⟨_, hname⟩, _, hu⟩ => ⟨(_, _), hname, hu⟩⟩
  have hentries : ∀ entries : List (Scalar × α),
      (∀ e ∈ entries, e.1.fault? = none ∧ ∃ u, R e.2 u) ↔
        (∀ key ∈ entries.map (·.1), key.fault? = none) ∧ ∀ p ∈ entries.map (·.2), ∃ u, R p u := by
    intro entries
    rw [List.forall_mem_map, List.forall_mem_map, ← forall₂_and]
  constructor
  · rintro ⟨t, h⟩
    cases h with
    | leaf => exact ⟨List.forall_mem_nil _, List.forall_mem_nil _⟩
    | union hts => exact ⟨List.forall_mem_nil _, exists_forall₂_iff.mp ⟨_, hts⟩⟩
    | intersection hts => exact ⟨List.forall_mem_nil _, exists_forall₂_iff.mp ⟨_, hts⟩⟩
    | array ht => exact ⟨List.forall_mem_nil _, List.forall_mem_singleton.mpr ⟨_, ht⟩⟩
    | object hps =>
      refine (hentries _).mp fun e he => (hentry e).mp (exists_forall₂_iff.mp ⟨_, hps⟩ e he)
  · rintro ⟨hkeys, hparts⟩
    cases l with
    | leaf u => exact ⟨u, .leaf u⟩
    | union ps =>
      obtain ⟨ts, hts⟩ := exists_forall₂_iff.mpr hparts
      exact ⟨_, .union hts⟩
    | intersection ps =>
      obtain ⟨ts, hts⟩ := exists_forall₂_iff.mpr hparts
      exact ⟨_, .intersection hts⟩
    | array p =>
      obtain ⟨u, hu⟩ := hparts p List.mem_cons_self
      exact ⟨_, .array hu⟩
    | object i entries required =>
      have hall := (hentries entries).mpr ⟨hkeys, hparts⟩
      obtain ⟨ps, hps⟩ := exists_forall₂_iff.mpr fun e he => (hentry e).mpr (hall e he)
      exact ⟨_, .object hps⟩

theorem error_of_build {e : Failure} (h : (l.build inner).result = .error e) :
    e = .unwritable .tooLong ∨ ∃ p ∈ l.parts, (inner p).result = .error e := by
  have hbind : ∀ {β : Type} {x : Run β} {f : β → TypeExpr},
      (x >>= fun b => pure (f b)).result = .error e → x.result = .error e := by
    intro β x f h
    rcases Run.bind_eq_error.mp h with h | ⟨_, _, h⟩
    · exact h
    · cases h
  cases l with
  | leaf t => cases h
  | union ps => exact .inr (Run.exists_of_mapM_eq_error (hbind h))
  | intersection ps => exact .inr (Run.exists_of_mapM_eq_error (hbind h))
  | array p => exact .inr ⟨p, List.mem_singleton_self p, hbind h⟩
  | object i entries required =>
    obtain ⟨⟨key, part⟩, hentry, h⟩ := Run.exists_of_mapM_eq_error (hbind h)
    -- the only failure of its own is a key that is too long
    rcases Run.bind_eq_error.mp h with h | ⟨_, _, h⟩
    · left
      rw [Run.ofWritten, Run.result_ofExcept] at h
      cases hwritten : key.written with
      | ok name =>
        rw [hwritten] at h
        cases h
      | error fault =>
        rw [hwritten] at h
        cases h
        rw [Scalar.written_eq_error hwritten]
    · rcases Run.bind_eq_error.mp h with h | ⟨_, _, h⟩
      · exact .inr ⟨part, List.mem_map_of_mem hentry, h⟩
      · cases h

end Layer

/-- The type of a place that is never opened: one that is no mapping, or a reference. -/
def direct? (s : Document) : Option TypeExpr :=
  if s.entries?.isNone then some .any else (s.fieldText? "$ref").map referenceType

def layer (s : Document) : Layer Document :=
  match (s.field "enum").items? with
  | some values => .leaf (.union .none (values.map (.literal .none)))
  | none =>
  match (s.field "anyOf").items? <|> (s.field "oneOf").items? with
  | some parts => .union parts
  | none =>
  match (s.field "allOf").items? with
  | some parts => .intersection parts
  | none =>
  match (s.field "type").items? with
  | some kinds => .union (kinds.map fun k => s.setField "type" k.here)
  | none =>
  match (s.field "type").text? with
  | some "null" => .leaf (.identifier (info s) "null")
  | some "array" => .array (s.field "items")
  | some "object" =>
    match (s.field "properties").entries? with
    | none => .leaf (unopened s)
    | some entries =>
      .object (info s) entries (((s.field "required").items?.getD []).filterMap Document.text?)
  | _ => .leaf (unopened s)

def bounded (depth : Int) (s : Document) : Run TypeExpr := do
  Run.tell (.unopened depth (s.field "type"))
  pure (unopened s)

theorem typeAt_eq_layer (room : Nat) (depth : Int) (outer : List Nat) (s : Document) :
    typeAt room depth outer s =
      match direct? s with
      | some t => pure t
      | none =>
        match room with
        | 0 => bounded depth s
        | room + 1 =>
          if s.cell?.any outer.contains then bounded depth s
          else (layer s).build (typeAt room (depth + 1) (s.cell?.toList ++ outer)) := by
  rw [typeAt.eq_def, direct?]
  by_cases hmap : s.entries?.isNone = true
  · rw [if_pos hmap, if_pos hmap]
  rw [if_neg hmap, if_neg hmap]
  cases s.fieldText? "$ref" with
  | some ref => rfl
  | none =>
    dsimp only [Option.map_none]
    cases room with
    | zero => rfl
    | succ room =>
      dsimp only
      by_cases hmet : s.cell?.any outer.contains = true
      · rw [if_pos hmet, if_pos hmet]
        rfl
      rw [if_neg hmet, if_neg hmet]
      -- one case for each field that may decide the layer, in the order of the mapper
      unfold layer
      cases (s.field "enum").items? with
      | some values => rfl
      | none =>
      cases ((s.field "anyOf").items? <|> (s.field "oneOf").items? : Option _) with
      | some parts => rfl
      | none =>
      cases (s.field "allOf").items? with
      | some parts => rfl
      | none =>
      cases (s.field "type").items? with
      | some kinds =>
        dsimp only [Layer.build]
        rw [List.mapM_map]
        rfl
      | none =>
        dsimp only
        generalize (s.field "type").text? = kind
        split
        · rfl
        · rfl
        · cases (s.field "properties").entries? with
          | none => rfl
          | some entries => rfl
        · simp [Layer.build]

/-- Where the parts of a schema come from: a list or a mapping in one of its fields, the field
`items`, or the schema itself, as one of its kinds. -/
inductive IsPart (s : Document) : Document → Prop
  | listed {key ds p} : (s.field key).items? = some ds → p ∈ ds → IsPart s p
  | items : (s.field "type").text? = some "array" → IsPart s (s.field "items")
  | property {es e} : (s.field "properties").entries? = some es → e ∈ es → IsPart s e.2
  | kind {ks k} : (s.field "type").items? = some ks → k ∈ ks → IsPart s (s.setField "type" k.here)

theorem isPart_of_mem_parts {s : Document} : ∀ p ∈ (layer s).parts, IsPart s p := by
  unfold layer
  split
  · exact List.forall_mem_nil _
  split
  · rename_i parts hitems
    rw [Option.orElse_eq_orElse, Option.orElse_eq_or, Option.or_eq_some_iff] at hitems
    rcases hitems with hitems | ⟨_, hitems⟩
    · exact fun p hp => .listed hitems hp
    · exact fun p hp => .listed hitems hp
  split
  · rename_i hitems
    exact fun p hp => .listed hitems hp
  split
  · rename_i hkinds
    exact List.forall_mem_map.mpr fun k hk => .kind hkinds hk
  split
  · exact List.forall_mem_nil _
  · rename_i harray
    exact List.forall_mem_singleton.mpr (.items harray)
  · split
    · exact List.forall_mem_nil _
    · rename_i hentries
      exact List.forall_mem_map.mpr fun e he => .property hentries he
  · exact List.forall_mem_nil _

theorem exists_property_of_mem_keys {s : Document} : ∀ key ∈ (layer s).keys,
    ∃ es, (s.field "properties").entries? = some es ∧ ∃ e ∈ es, e.1 = key := by
  unfold layer
  split
  · exact List.forall_mem_nil _
  split
  · exact List.forall_mem_nil _
  split
  · exact List.forall_mem_nil _
  split
  · exact List.forall_mem_nil _
  split
  · exact List.forall_mem_nil _
  · exact List.forall_mem_nil _
  · split
    · exact List.forall_mem_nil _
    · rename_i es hes
      exact List.forall_mem_map.mpr fun e he => ⟨es, hes, e, he, rfl⟩
  · exact List.forall_mem_nil _

/-! ## Calls -/

/-- A schema that is mapped at a depth, inside the mappings in the cells `outer`. -/
structure Call where
  depth : Int
  outer : List Nat
  schema : Document

namespace Call

def run (c : Call) : Run TypeExpr :=
  typeAt (maxDepth + 1 - c.depth).toNat c.depth c.outer c.schema

def isMet (c : Call) : Bool := c.schema.cell?.any c.outer.contains

structure Opens (c : Call) : Prop where
  direct : direct? c.schema = none
  fresh : c.isMet = false
  depth_le : c.depth ≤ maxDepth

def inner (c : Call) (part : Document) : Call :=
  ⟨c.depth + 1, c.schema.cell?.toList ++ c.outer, part⟩

def Calls (c c' : Call) : Prop := c.Opens ∧ ∃ p ∈ (layer c.schema).parts, c' = c.inner p

def Reaches : Call → Call → Prop := Relation.ReflTransGen Calls

variable {c : Call}

theorem run_direct {t : TypeExpr} (h : direct? c.schema = some t) : c.run = pure t := by
  rw [run, typeAt_eq_layer, h]

theorem run_bounded (hdirect : direct? c.schema = none) (h : ¬ c.Opens) :
    c.run = bounded c.depth c.schema := by
  rw [run, typeAt_eq_layer, hdirect]
  by_cases hdepth : c.depth ≤ maxDepth
  · have hmet : c.isMet = true := by
      by_contra hmet
      exact h ⟨hdirect, Bool.eq_false_iff.mpr hmet, hdepth⟩
    obtain ⟨room, hroom⟩ : ∃ room, (maxDepth + 1 - c.depth).toNat = room + 1 :=
      ⟨(maxDepth - c.depth).toNat, by omega⟩
    rw [hroom]
    exact if_pos hmet
  · rw [show (maxDepth + 1 - c.depth).toNat = 0 by omega]

theorem run_opens (h : c.Opens) : c.run = (layer c.schema).build fun p => (c.inner p).run := by
  have hdepth := h.depth_le
  have hroom : (maxDepth + 1 - c.depth).toNat = (maxDepth + 1 - (c.depth + 1)).toNat + 1 := by
    omega
  rw [run, typeAt_eq_layer, h.direct, hroom]
  dsimp only
  exact if_neg (Bool.eq_false_iff.mp h.fresh)

/-- Each call is one level deeper than the call it is made for, so there is no endless chain. -/
theorem induction {motive : Call → Prop}
    (step : ∀ c, (c.Opens → ∀ p ∈ (layer c.schema).parts, motive (c.inner p)) → motive c)
    (c : Call) : motive c := by
  induction hroom : (maxDepth + 1 - c.depth).toNat using Nat.strongRecOn generalizing c with
  | ind room ih =>
    refine step c fun hopens p _ => ih _ ?_ (c.inner p) rfl
    have hdepth := hopens.depth_le
    show (maxDepth + 1 - (c.depth + 1)).toNat < room
    omega

theorem forall_reaches_iff {P : Call → Prop} : (∀ c', c.Reaches c' → P c') ↔
    P c ∧ (c.Opens → ∀ p ∈ (layer c.schema).parts, ∀ c', (c.inner p).Reaches c' → P c') := by
  constructor
  · intro h
    exact ⟨h c Relation.ReflTransGen.refl, fun hopens p hp c' hc' =>
      h c' (Relation.ReflTransGen.head ⟨hopens, p, hp, rfl⟩ hc')⟩
  · rintro ⟨hself, hinner⟩ c' hc'
    rcases Relation.ReflTransGen.cases_head hc' with rfl | ⟨_, ⟨hopens, p, hp, rfl⟩, hc'⟩
    · exact hself
    · exact hinner hopens p hp c' hc'

end Call

end Schema

end ApiTypes
