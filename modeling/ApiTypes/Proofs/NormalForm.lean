import ApiTypes.Proofs.TypeTree

/-!
# Normal forms of types

Types that differ only in how their unions and intersections are nested have one normal form: a union
holds no union, an intersection no intersection, neither has a single member, and an empty one has a
name. The names `null`, `true` and `false` become the literals that are written so. What a type says
beside its structure is left out.
-/

namespace ApiTypes.TypeExpr

/-! ## Operators -/

inductive Operator
  | union
  | intersection

namespace Operator

def node : Operator → List TypeExpr → TypeExpr
  | union => TypeExpr.union .none
  | intersection => TypeExpr.intersection .none

def empty : Operator → TypeExpr
  | union => identifier .none "never"
  | intersection => identifier .none "unknown"

/-- The members that the operator stands between. Any other type is the only member. -/
def members : Operator → TypeExpr → List TypeExpr
  | union, .union _ ts => ts
  | intersection, .intersection _ ts => ts
  | _, t => [t]

def join (o : Operator) : List TypeExpr → TypeExpr
  | [] => o.empty
  | [t] => t
  | ts => o.node ts

def merge (o : Operator) (ts : List TypeExpr) : TypeExpr := o.join (ts.flatMap o.members)

end Operator

/-! ## Normal form -/

def ofScalar (s : Scalar) : TypeExpr := literal .none (.ofValue (.scalar s))

def normalName : String → TypeExpr
  | "null" => ofScalar .null
  | "true" => ofScalar (.bool true)
  | "false" => ofScalar (.bool false)
  | name => identifier .none name

mutual

def normal : TypeExpr → TypeExpr
  | identifier _ name => normalName name
  | literal _ value => literal .none (.ofValue value.here)
  | array _ element => array .none element.normal
  | union _ members => Operator.union.merge (normalMembers members)
  | intersection _ members => Operator.intersection.merge (normalMembers members)
  | generic _ base params => generic .none base.normal (normalMembers params)
  | object _ properties required => object .none (normalProperties properties) required

def normalMembers : List TypeExpr → List TypeExpr
  | [] => []
  | t :: ts => t.normal :: normalMembers ts

def normalProperties : List (String × TypeExpr) → List (String × TypeExpr)
  | [] => []
  | (name, t) :: rest => (name, t.normal) :: normalProperties rest

end

theorem normalMembers_eq_map (ts : List TypeExpr) : normalMembers ts = ts.map normal := by
  induction ts with
  | nil => rfl
  | cons t ts ih => simp [normalMembers, ih]

/-! ## Tight types -/

/-- Each operator stands between two members or more, and none of them is made by it. -/
inductive IsTight : TypeExpr → Prop
  | single {t : TypeExpr} : (∀ o : Operator, o.members t = [t]) → IsTight t
  | node (o : Operator) {ts : List TypeExpr} : 2 ≤ ts.length → (∀ t ∈ ts, IsTight t) →
      (∀ t ∈ ts, o.members t = [t]) → IsTight (o.node ts)

namespace Operator

variable {o : Operator}

theorem members_node (o : Operator) (ts : List TypeExpr) : o.members (o.node ts) = ts := by
  cases o <;> rfl

theorem members_node_of_ne {p : Operator} (h : p ≠ o) (ts : List TypeExpr) :
    p.members (o.node ts) = [o.node ts] := by
  cases o <;> cases p
  · exact absurd rfl h
  · rfl
  · rfl
  · exact absurd rfl h

theorem members_empty (o p : Operator) : p.members o.empty = [o.empty] := by
  cases o <;> cases p <;> rfl

theorem join_eq_node {ts : List TypeExpr} (h : 2 ≤ ts.length) : o.join ts = o.node ts := by
  match ts with
  | [] | [_] => simp at h
  | _ :: _ :: _ => rfl

end Operator

section
variable {o : Operator} {t : TypeExpr}

theorem IsTight.members_ne_nil (h : IsTight t) : o.members t ≠ [] := by
  cases h with
  | single h => simp [h o]
  | node p hlength _ _ =>
    by_cases hp : o = p
    · subst hp
      rw [Operator.members_node]
      exact List.ne_nil_of_length_pos (by omega)
    · simp [Operator.members_node_of_ne hp]

theorem IsTight.member (h : IsTight t) : ∀ u ∈ o.members t, IsTight u ∧ o.members u = [u] := by
  have hself : o.members t = [t] → ∀ u ∈ o.members t, IsTight u ∧ o.members u = [u] := by
    intro ht u hu
    rw [ht, List.mem_singleton] at hu
    subst hu
    exact ⟨h, ht⟩
  cases h with
  | single hsingle => exact hself (hsingle o)
  | node p hlength htight hmembers =>
    by_cases hp : o = p
    · subst hp
      rw [Operator.members_node]
      exact fun u hu => ⟨htight u hu, hmembers u hu⟩
    · exact hself (Operator.members_node_of_ne hp _)

theorem IsTight.join_members (h : IsTight t) : o.join (o.members t) = t := by
  cases h with
  | single h => rw [h o, Operator.join]
  | node p hlength _ _ =>
    by_cases hp : o = p
    · subst hp
      rw [Operator.members_node, Operator.join_eq_node hlength]
    · rw [Operator.members_node_of_ne hp, Operator.join]

end

namespace Operator

variable {o : Operator} {ts : List TypeExpr}

theorem member_flatMap (h : ∀ t ∈ ts, IsTight t) :
    ∀ u ∈ ts.flatMap o.members, IsTight u ∧ o.members u = [u] := by
  intro u hu
  obtain ⟨t, ht, hu⟩ := List.mem_flatMap.mp hu
  exact (h t ht).member u hu

theorem isTight_join (h : ∀ t ∈ ts, IsTight t ∧ o.members t = [t]) : IsTight (o.join ts) := by
  match ts with
  | [] => exact .single (members_empty o)
  | [t] => exact (h t List.mem_cons_self).1
  | _ :: _ :: _ => exact .node o (by simp) (fun t ht => (h t ht).1) fun t ht => (h t ht).2

theorem members_join (hne : ts ≠ []) (h : ∀ t ∈ ts, IsTight t ∧ o.members t = [t]) :
    o.members (o.join ts) = ts := by
  match ts with
  | [] => exact absurd rfl hne
  | [t] => exact (h t List.mem_cons_self).2
  | _ :: _ :: _ => exact members_node o _

theorem isTight_merge (h : ∀ t ∈ ts, IsTight t) : IsTight (o.merge ts) :=
  isTight_join (member_flatMap h)

theorem merge_singleton {t : TypeExpr} (h : IsTight t) : o.merge [t] = t := by
  rw [merge, List.flatMap_singleton, h.join_members]

theorem members_merge (hne : ts ≠ []) (h : ∀ t ∈ ts, IsTight t) :
    o.members (o.merge ts) = ts.flatMap o.members := by
  refine members_join ?_ (member_flatMap h)
  obtain ⟨t, rest, rfl⟩ := List.exists_cons_of_ne_nil hne
  rw [List.flatMap_cons]
  exact List.append_ne_nil_of_left_ne_nil (h t List.mem_cons_self).members_ne_nil _

theorem merge_flatMap {α : Type} {as : List α} {f : α → List TypeExpr}
    (h : ∀ a ∈ as, f a ≠ [] ∧ ∀ t ∈ f a, IsTight t) :
    o.merge (as.flatMap f) = o.merge (as.map fun a => o.merge (f a)) := by
  have hgroup : as.map (fun a => (f a).flatMap o.members) =
      as.map fun a => o.members (o.merge (f a)) :=
    List.map_congr_left fun a ha => (members_merge (h a ha).1 (h a ha).2).symm
  rw [merge, merge, List.flatMap_assoc, List.flatMap_map, List.flatMap_def, hgroup, List.flatMap_def]

end Operator

theorem isTight_normalName (name : String) : IsTight (normalName name) := by
  refine .single fun o => ?_
  unfold normalName
  split <;> cases o <;> rfl

theorem isTight_normal (t : TypeExpr) : IsTight t.normal := by
  have hmembers : ∀ (o : Operator) {ts : List TypeExpr}, (∀ t ∈ ts, IsTight t.normal) →
      IsTight (o.merge (normalMembers ts)) := by
    intro o ts h
    rw [normalMembers_eq_map]
    exact Operator.isTight_merge (List.forall_mem_map.mpr h)
  induction t with
  | identifier i name => exact isTight_normalName name
  | union i ts ih => exact hmembers .union ih
  | intersection i ts ih => exact hmembers .intersection ih
  | _ => exact .single fun o => by cases o <;> rfl

end ApiTypes.TypeExpr
