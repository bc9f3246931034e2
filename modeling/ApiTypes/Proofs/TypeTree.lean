import ApiTypes.TypeExpr.Basic

/-!
# Type expressions as trees

Induction over type expressions, and properties of all their nodes.
-/

namespace ApiTypes.TypeExpr

/-- The parts of an expression stand in lists, so each case assumes the statement of all members of
its list. -/
@[elab_as_elim, induction_eliminator]
theorem tree_induction {motive : TypeExpr → Prop}
    (identifier : ∀ i name, motive (.identifier i name))
    (literal : ∀ i value, motive (.literal i value))
    (array : ∀ i t, motive t → motive (.array i t))
    (union : ∀ i ts, (∀ t ∈ ts, motive t) → motive (.union i ts))
    (intersection : ∀ i ts, (∀ t ∈ ts, motive t) → motive (.intersection i ts))
    (generic : ∀ i base ts, motive base → (∀ t ∈ ts, motive t) → motive (.generic i base ts))
    (object : ∀ i ps required, (∀ p ∈ ps, motive p.2) → motive (.object i ps required))
    (t : TypeExpr) : motive t := by
  refine @TypeExpr.rec motive (fun ts => ∀ t ∈ ts, motive t) (fun ps => ∀ p ∈ ps, motive p.2)
    (fun p => motive p.2) identifier literal array union intersection generic
    (fun i ps required h => object i ps required h) ?_ ?_ ?_ ?_ (fun _ _ h => h) t
  · intro t h
    cases h
  · intro t ts ht hts u hu
    rcases List.mem_cons.mp hu with rfl | hu
    · exact ht
    · exact hts u hu
  · intro p h
    cases h
  · intro p ps hp hps q hq
    rcases List.mem_cons.mp hq with rfl | hq
    · exact hp
    · exact hps q hq

/-! ## Properties of all nodes -/

mutual

def Every (p : TypeExpr → Prop) : TypeExpr → Prop
  | identifier i name => p (identifier i name)
  | literal i value => p (literal i value)
  | array i t => p (array i t) ∧ Every p t
  | union i ts => p (union i ts) ∧ EveryMember p ts
  | intersection i ts => p (intersection i ts) ∧ EveryMember p ts
  | generic i base ts => p (generic i base ts) ∧ Every p base ∧ EveryMember p ts
  | object i ps required => p (object i ps required) ∧ EveryProperty p ps

def EveryMember (p : TypeExpr → Prop) : List TypeExpr → Prop
  | [] => True
  | t :: ts => Every p t ∧ EveryMember p ts

def EveryProperty (p : TypeExpr → Prop) : List (String × TypeExpr) → Prop
  | [] => True
  | (_, t) :: ps => Every p t ∧ EveryProperty p ps

end

theorem everyMember_iff {p : TypeExpr → Prop} {ts : List TypeExpr} :
    EveryMember p ts ↔ ∀ t ∈ ts, Every p t := by
  induction ts with
  | nil => simp [EveryMember]
  | cons t ts ih => simp [EveryMember, ih]

theorem everyProperty_iff {p : TypeExpr → Prop} {ps : List (String × TypeExpr)} :
    EveryProperty p ps ↔ ∀ q ∈ ps, Every p q.2 := by
  induction ps with
  | nil => simp [EveryProperty]
  | cons q ps ih => simp [EveryProperty, ih]

theorem Every.imp {p q : TypeExpr → Prop} (h : ∀ t, p t → q t) (t : TypeExpr) (ht : Every p t) :
    Every q t := by
  induction t with
  | identifier i name => exact h _ ht
  | literal i value => exact h _ ht
  | array i t ih => exact ⟨h _ ht.1, ih ht.2⟩
  | union i ts ih =>
    exact ⟨h _ ht.1, everyMember_iff.mpr fun t hm => ih t hm (everyMember_iff.mp ht.2 t hm)⟩
  | intersection i ts ih =>
    exact ⟨h _ ht.1, everyMember_iff.mpr fun t hm => ih t hm (everyMember_iff.mp ht.2 t hm)⟩
  | generic i base ts ihb ih =>
    exact ⟨h _ ht.1, ihb ht.2.1,
      everyMember_iff.mpr fun t hm => ih t hm (everyMember_iff.mp ht.2.2 t hm)⟩
  | object i ps required ih =>
    exact ⟨h _ ht.1, everyProperty_iff.mpr fun q hm => ih q hm (everyProperty_iff.mp ht.2 q hm)⟩

end ApiTypes.TypeExpr
