import ApiTypes.Proofs.Unfolding

/-!
# Types of trees

A type holds documents: examples and the values of literals. `closed` puts the tree of each of them
in its place. The layer of a schema, closed, is the layer of its tree, and a closed layer is built
into a closed type.
-/

namespace ApiTypes

/-! ## Closed types -/

def Info.closed (i : Info) : Info := { i with sample := i.sample.map Document.closed }

namespace TypeExpr

mutual

def closed : TypeExpr → TypeExpr
  | identifier i name => identifier i.closed name
  | literal i value => literal i.closed value.closed
  | array i t => array i.closed (closed t)
  | union i ts => union i.closed (closedMembers ts)
  | intersection i ts => intersection i.closed (closedMembers ts)
  | generic i base ts => generic i.closed (closed base) (closedMembers ts)
  | object i ps required => object i.closed (closedProperties ps) required

def closedMembers : List TypeExpr → List TypeExpr
  | [] => []
  | t :: ts => closed t :: closedMembers ts

def closedProperties : List (String × TypeExpr) → List (String × TypeExpr)
  | [] => []
  | (name, t) :: ps => (name, closed t) :: closedProperties ps

end

theorem closedMembers_eq_map (ts : List TypeExpr) : closedMembers ts = ts.map closed := by
  induction ts with
  | nil => rfl
  | cons t ts ih => rw [closedMembers, ih, List.map_cons]

theorem closedProperties_eq_map (ps : List (String × TypeExpr)) :
    closedProperties ps = ps.map fun p => (p.1, p.2.closed) := by
  induction ps with
  | nil => rfl
  | cons p ps ih => rw [closedProperties, ih, List.map_cons]

end TypeExpr

namespace Table

variable {κ α β : Type} [BEq κ]

theorem put_map_values (f : α → β) (t : Table κ α) (k : κ) (v : α) :
    put (t.map fun e => (e.1, f e.2)) k (f v) = (put t k v).map fun e => (e.1, f e.2) := by
  induction t with
  | nil => rfl
  | cons e es ih =>
    rw [List.map_cons, put, put]
    by_cases h : (e.1 == k) = true
    · rw [if_pos h, if_pos h, List.map_cons]
    · rw [if_neg h, if_neg h, List.map_cons, ih]

theorem ofList_map_values (f : α → β) (es : List (κ × α)) :
    ofList (es.map fun e => (e.1, f e.2)) = (ofList es).map fun e => (e.1, f e.2) := by
  induction es using List.reverseRecOn with
  | nil => rfl
  | append_singleton es e ih =>
    rw [ofList, ofList, List.map_append, List.foldl_append, List.foldl_append]
    exact (congrArg (fun t => put t e.1 (f e.2)) ih).trans (put_map_values f _ _ _)

theorem has_map_values (f : α → β) (t : Table κ α) (k : κ) :
    has (t.map fun e => (e.1, f e.2)) k = has t k := by
  rw [has, has, List.any_map]
  rfl

end Table

theorem TypeExpr.closed_ofProperties (i : Info) (ps : List (String × TypeExpr))
    (required : List String) : (ofProperties i ps required).closed =
      ofProperties i.closed (ps.map fun p => (p.1, p.2.closed)) required := by
  have hhas : Table.has (Table.ofList (ps.map fun p => (p.1, p.2.closed))) =
      Table.has (Table.ofList ps) := by
    funext name
    rw [Table.ofList_map_values, Table.has_map_values]
  rw [ofProperties, ofProperties, closed, closedProperties_eq_map, hhas, Table.ofList_map_values]

namespace Run

variable {α β γ δ : Type}

theorem result_bind_pure (x : Run α) (f : α → β) :
    (x >>= fun a => pure (f a)).result = x.result.map f := by
  rw [result_bind]
  cases x.result <;> rfl

theorem result_mapM_map {f : α → Run β} {g : γ → Run δ} {h : α → γ} {k : β → δ} {xs : List α}
    (hstep : ∀ x ∈ xs, (g (h x)).result = (f x).result.map k) :
    ((xs.map h).mapM g).result = (xs.mapM f).result.map (List.map k) := by
  induction xs with
  | nil => rfl
  | cons x xs ih =>
    obtain ⟨hx, hxs⟩ := List.forall_mem_cons.mp hstep
    rw [List.map_cons, List.mapM_cons, List.mapM_cons, result_bind, result_bind, hx]
    cases (f x).result with
    | error e => rfl
    | ok y =>
      show ((xs.map h).mapM g >>= fun zs => pure (k y :: zs)).result =
        (xs.mapM f >>= fun ys => pure (y :: ys)).result.map (List.map k)
      rw [result_bind_pure, result_bind_pure, ih hxs]
      cases (xs.mapM f).result <;> rfl

end Run

namespace Schema

open Document

/-! ## Closed layers -/

namespace Layer

def closed : Layer Document → Layer Document
  | leaf t => .leaf t.closed
  | union ps => .union (ps.map Document.closed)
  | intersection ps => .intersection (ps.map Document.closed)
  | array p => .array p.closed
  | object i entries required =>
    .object i.closed (entries.map fun e => (e.1, e.2.closed)) required

theorem parts_closed (l : Layer Document) : l.closed.parts = l.parts.map Document.closed := by
  cases l with
  | object i entries required =>
    rw [closed, parts, parts, List.map_map, List.map_map]
    rfl
  | _ => rfl

theorem result_build_closed {l : Layer Document} {f g : Document → Run TypeExpr}
    (h : ∀ p ∈ l.parts, (g p.closed).result = (f p).result.map TypeExpr.closed) :
    (l.closed.build g).result = (l.build f).result.map TypeExpr.closed := by
  have hmembers : ∀ ps : List Document, (∀ p ∈ ps, p ∈ l.parts) →
      ((ps.map Document.closed).mapM g).result =
        (ps.mapM f).result.map TypeExpr.closedMembers := by
    intro ps hps
    rw [funext TypeExpr.closedMembers_eq_map]
    exact Run.result_mapM_map fun p hp => h p (hps p hp)
  cases l with
  | leaf t => rfl
  | union ps =>
    have hps := hmembers ps fun _ => id
    rw [closed, build, build, Run.result_bind_pure, Run.result_bind_pure, hps]
    cases (ps.mapM f).result <;> rfl
  | intersection ps =>
    have hps := hmembers ps fun _ => id
    rw [closed, build, build, Run.result_bind_pure, Run.result_bind_pure, hps]
    cases (ps.mapM f).result <;> rfl
  | array p =>
    rw [closed, build, build, Run.result_bind_pure, Run.result_bind_pure,
      h p (List.mem_singleton_self p)]
    cases (f p).result <;> rfl
  | object i entries required =>
    -- a property writes its name first, which closing leaves alone
    have hentry : ∀ e ∈ entries, (property g (e.1, e.2.closed)).result =
        (property f e).result.map fun p => (p.1, p.2.closed) := by
      intro e he
      rw [property, property, Run.result_bind, Run.result_bind]
      cases (Run.ofWritten e.1.written).result with
      | error e => rfl
      | ok name =>
        show (g e.2.closed >>= fun t => pure (name, t)).result =
          (f e.2 >>= fun t => pure (name, t)).result.map _
        rw [Run.result_bind_pure, Run.result_bind_pure, h e.2 (List.mem_map_of_mem he)]
        cases (f e.2).result <;> rfl
    rw [closed, build, build, Run.result_bind_pure, Run.result_bind_pure,
      Run.result_mapM_map hentry]
    cases (entries.mapM (property f)).result with
    | error e => rfl
    | ok ps => exact congrArg Except.ok (TypeExpr.closed_ofProperties i ps required).symm

end Layer

section
variable {s : Document} (h : s.HasTree)
include h

theorem fieldText?_closed (key : String) : s.closed.fieldText? key = s.fieldText? key := by
  rw [fieldText?, fieldText?, h.field_closed, (hereditary_hasTree.field h key).text?_closed]

theorem info_closed : info s.closed = (info s).closed := by
  have hexample := hereditary_hasTree.field h "example"
  have hnullable := hereditary_hasTree.field h "nullable"
  rw [info, info, Info.closed, fieldText?_closed h, h.field_closed, h.field_closed,
    hexample.isNull_closed, hnullable.isTrue_closed]
  cases (s.field "example").isNull <;> rfl

theorem unopened_closed : unopened s.closed = (unopened s).closed := by
  rw [unopened, unopened, TypeExpr.closed, info_closed h, fieldText?_closed h]

theorem direct?_closed : direct? s.closed = (direct? s).map TypeExpr.closed := by
  rw [direct?, direct?, h.entries?_closed, fieldText?_closed h]
  cases s.entries? with
  | none => rfl
  | some es => cases s.fieldText? "$ref" <;> rfl

theorem required_closed : ((s.closed.field "required").items?.getD []).filterMap text? =
    ((s.field "required").items?.getD []).filterMap text? := by
  have hrequired := hereditary_hasTree.field h "required"
  rw [h.field_closed, hrequired.items?_closed]
  cases hitems : (s.field "required").items? with
  | none => rfl
  | some ds =>
    rw [Option.map_some, Option.getD_some, Option.getD_some, List.filterMap_map]
    exact List.filterMap_congr fun d hd => (hasTree_items hrequired hitems d hd).text?_closed

/-- Unfolding a schema and opening it comes to the same in either order. -/
theorem layer_closed : layer s.closed = (layer s).closed := by
  -- every field that is read is a tree again, so it reads the same when closed
  have hfield : ∀ key, (s.field key).HasTree := hereditary_hasTree.field h
  have hitems : ∀ key, (s.closed.field key).items? = (s.field key).items?.map (List.map closed) :=
    fun key => by rw [h.field_closed, (hfield key).items?_closed]
  have htext : (s.closed.field "type").text? = (s.field "type").text? := by
    rw [h.field_closed, (hfield "type").text?_closed]
  have hentries : (s.closed.field "properties").entries? =
      (s.field "properties").entries?.map (List.map fun e => (e.1, e.2.closed)) := by
    rw [h.field_closed, (hfield "properties").entries?_closed]
  have hchoice : ((s.closed.field "anyOf").items? <|> (s.closed.field "oneOf").items?) =
      ((s.field "anyOf").items? <|> (s.field "oneOf").items?).map (List.map closed) := by
    rw [hitems, hitems]
    cases (s.field "anyOf").items? <;> rfl
  -- the cases follow the order in which the fields decide
  unfold layer
  rw [hitems "enum", hchoice, hitems "allOf", hitems "type", htext, hentries, info_closed h, unopened_closed h,
    required_closed h, h.field_closed "items"]
  cases (s.field "enum").items? with
  | some values =>
    have hvalues : values.map (TypeExpr.literal .none ∘ closed) =
        values.map (TypeExpr.closed ∘ .literal .none) := rfl
    rw [Option.map_some]
    dsimp only [Layer.closed]
    rw [TypeExpr.closed, TypeExpr.closedMembers_eq_map, List.map_map, List.map_map, hvalues]
    rfl
  | none =>
  cases ((s.field "anyOf").items? <|> (s.field "oneOf").items?) with
  | some parts => rfl
  | none =>
  cases (s.field "allOf").items? with
  | some parts => rfl
  | none =>
  cases hkinds : (s.field "type").items? with
  | some kinds =>
    obtain ⟨entries, hmap⟩ := exists_map_of_items? hkinds
    obtain ⟨_, _, _, hinside⟩ := inside_kinds hkinds
    -- each kind is opened in the schema with its own `type`
    have hkind : ∀ k ∈ kinds, s.closed.setField "type" k.closed.here =
        (s.setField "type" k.here).closed := by
      intro k hk
      have htree := hasTree_items (hfield "type") hkinds k hk
      rw [(h.setField hmap (hinside k hk ▸ htree) "type").2, ← hinside k hk]
      rfl
    rw [Option.map_some]
    dsimp only [Layer.closed]
    rw [List.map_map, List.map_map]
    exact congrArg Layer.union (List.map_congr_left hkind)
  | none =>
    dsimp only [Option.map_none]
    split
    · rfl
    · rfl
    · cases (s.field "properties").entries? <;> rfl
    · rfl

end

end Schema

end ApiTypes
