import ApiTypes.Proofs.Mapping

/-!
# The height of types

A schema may be as deep as it likes, also without end; the height of its type is bounded by the
depth at which it stands. The one thing that keeps a call from coming to a type is a key of a
property with too many digits to be written.
-/

namespace ApiTypes

namespace TypeExpr

mutual

def height : TypeExpr → Nat
  | identifier _ _ | literal _ _ => 0
  | array _ t => height t + 1
  | union _ ts | intersection _ ts => memberHeight ts + 1
  | generic _ base ts => max (height base) (memberHeight ts) + 1
  | object _ ps _ => propertyHeight ps + 1

def memberHeight : List TypeExpr → Nat
  | [] => 0
  | t :: ts => max (height t) (memberHeight ts)

def propertyHeight : List (String × TypeExpr) → Nat
  | [] => 0
  | (_, t) :: ps => max (height t) (propertyHeight ps)

end

theorem memberHeight_le_iff {ts : List TypeExpr} {n : Nat} :
    memberHeight ts ≤ n ↔ ∀ t ∈ ts, t.height ≤ n := by
  induction ts with
  | nil => simp [memberHeight]
  | cons t ts ih => rw [memberHeight, Nat.max_le, ih, List.forall_mem_cons]

theorem propertyHeight_le_iff {ps : List (String × TypeExpr)} {n : Nat} :
    propertyHeight ps ≤ n ↔ ∀ p ∈ ps, p.2.height ≤ n := by
  induction ps with
  | nil => simp [propertyHeight]
  | cons p ps ih => rw [propertyHeight, Nat.max_le, ih, List.forall_mem_cons]

end TypeExpr

namespace Schema

/-! ## Layers -/

theorem Layer.Built.height_le {α : Type} {l : Layer α} {R : α → TypeExpr → Prop} {n : Nat}
    {t : TypeExpr} (h : Built R l t)
    (hleaf : ∀ u, l = .leaf u → u.height ≤ n + 1)
    (hparts : ∀ p ∈ l.parts, ∀ u, R p u → u.height ≤ n) : t.height ≤ n + 1 := by
  have hmembers : ∀ {ps ts}, List.Forall₂ R ps ts → (∀ p ∈ ps, ∀ u, R p u → u.height ≤ n) →
      TypeExpr.memberHeight ts ≤ n := fun hts hps =>
    TypeExpr.memberHeight_le_iff.mpr
      (forall_of_forall₂_imp (hts.imp fun _ _ hu hbound => hbound _ hu) hps)
  cases h with
  | leaf => exact hleaf t rfl
  | union hts => exact Nat.succ_le_succ (hmembers hts hparts)
  | intersection hts => exact Nat.succ_le_succ (hmembers hts hparts)
  | array ht => exact Nat.succ_le_succ (hparts _ (List.mem_singleton_self _) _ ht)
  | object hps =>
    refine Nat.succ_le_succ (TypeExpr.propertyHeight_le_iff.mpr (Table.forall_ofList ?_))
    exact forall_of_forall₂_imp (hps.imp fun _ _ hp hbound => hbound _ hp.2)
      (List.forall_mem_map.mp hparts)

theorem height_direct {s : Document} {t : TypeExpr} (h : direct? s = some t) : t.height = 0 := by
  unfold direct? at h
  split at h
  · cases h
    rfl
  · obtain ⟨_, _, rfl⟩ := Option.map_eq_some_iff.mp h
    rfl

theorem height_leaf_le {s : Document} {t : TypeExpr} (h : layer s = .leaf t) : t.height ≤ 1 := by
  unfold layer at h
  split at h
  · cases h
    refine Nat.succ_le_succ (TypeExpr.memberHeight_le_iff.mpr (List.forall_mem_map.mpr ?_))
    exact fun _ _ => Nat.le_refl 0
  split at h
  · cases h
  split at h
  · cases h
  split at h
  · cases h
  split at h
  · cases h
    exact Nat.zero_le 1
  · cases h
  · split at h
    · cases h
      exact Nat.zero_le 1
    · cases h
  · cases h
    exact Nat.zero_le 1

/-! ## Calls -/

namespace Call

variable {c : Call}

/-- No object that is opened has a key of a property with too many digits. -/
def KeysFit (c : Call) : Prop :=
  ∀ c', c.Reaches c' → c'.Opens → ∀ key ∈ (layer c'.schema).keys, key.fault? = none

theorem keysFit_iff : c.KeysFit ↔ (c.Opens → ∀ key ∈ (layer c.schema).keys, key.fault? = none) ∧
    (c.Opens → ∀ p ∈ (layer c.schema).parts, (c.inner p).KeysFit) :=
  forall_reaches_iff

theorem exists_result_iff (c : Call) : (∃ t, c.run.result = .ok t) ↔ c.KeysFit := by
  induction c using Call.induction with
  | step c ih =>
    rw [keysFit_iff]
    by_cases hopens : c.Opens
    · simp only [run_opens hopens, Layer.build_eq_ok, Layer.exists_built_iff, hopens, true_imp_iff]
      refine and_congr_right fun _ => forall₂_congr fun p hp => ih hopens p hp
    · refine iff_of_true ?_ ⟨fun h => absurd h hopens, fun h => absurd h hopens⟩
      cases hdirect : direct? c.schema with
      | some t => exact ⟨t, by rw [run_direct hdirect]; rfl⟩
      | none => exact ⟨unopened c.schema, by rw [run_bounded hdirect hopens]; rfl⟩

theorem eq_tooLong_of_error (c : Call) {e : Failure} (h : c.run.result = .error e) :
    e = .unwritable .tooLong := by
  induction c using Call.induction with
  | step c ih =>
    by_cases hopens : c.Opens
    · rw [run_opens hopens] at h
      rcases Layer.error_of_build h with he | ⟨p, hp, h⟩
      · exact he
      · exact ih hopens p hp h
    · cases hdirect : direct? c.schema with
      | some t =>
        rw [run_direct hdirect] at h
        cases h
      | none =>
        rw [run_bounded hdirect hopens] at h
        cases h

theorem height_le (c : Call) {t : TypeExpr} (h : c.run.result = .ok t) :
    t.height ≤ (maxDepth + 1 - c.depth).toNat := by
  induction c using Call.induction generalizing t with
  | step c ih =>
    by_cases hopens : c.Opens
    · have hdepth := hopens.depth_le
      have hroom : (maxDepth + 1 - c.depth).toNat = (maxDepth + 1 - (c.depth + 1)).toNat + 1 := by
        omega
      rw [run_opens hopens, Layer.build_eq_ok] at h
      rw [hroom]
      exact h.height_le (fun u hu => (height_leaf_le hu).trans (Nat.succ_le_succ (Nat.zero_le _)))
        fun p hp u hu => ih hopens p hp hu
    · have hzero : t.height = 0 := by
        cases hdirect : direct? c.schema with
        | some u =>
          rw [run_direct hdirect] at h
          cases h
          exact height_direct hdirect
        | none =>
          rw [run_bounded hdirect hopens] at h
          cases h
          rfl
      omega

/-- Every call ends: with a type that is no higher than there are levels left or, where an object has
a key with too many digits, without one. -/
theorem boundedType_or_tooLong (c : Call) :
    (c.KeysFit ∧
      ∃ t, c.run.result = .ok t ∧ (t.height : Int) ≤ max 0 (maxDepth + 1 - c.depth)) ∨
    (¬ c.KeysFit ∧ c.run.result = .error (.unwritable .tooLong)) := by
  rcases Run.exists_ok_or_error c.run with ⟨t, ht⟩ | ⟨e, he⟩
  · have hheight := height_le c ht
    exact .inl ⟨(exists_result_iff c).mp ⟨t, ht⟩, t, ht, by omega⟩
  · refine .inr ⟨fun hfit => ?_, eq_tooLong_of_error c he ▸ he⟩
    obtain ⟨t, ht⟩ := (exists_result_iff c).mpr hfit
    rw [ht] at he
    cases he

def longKeyed : Call where
  depth := 0
  outer := []
  schema := .ofValue (.map [
    (.text "type", .scalar (.text "object")),
    (.text "properties", .map [
      (.int (Int.ofNat (Nat.pow 16 3572)), .map [(.text "type", .scalar (.text "string"))])])])

theorem not_keysFit_longKeyed : ¬ longKeyed.KeysFit := by
  have hopens : longKeyed.Opens := ⟨rfl, rfl, by decide⟩
  have hlong : isTooLong (Int.ofNat (Nat.pow 16 3572)) = true := by decide +kernel
  intro hfit
  have hkey : (Scalar.int (Int.ofNat (Nat.pow 16 3572))).fault? = none :=
    hfit longKeyed Relation.ReflTransGen.refl hopens _ List.mem_cons_self
  rw [Scalar.fault?, if_pos hlong] at hkey
  cases hkey

theorem no_type_longKeyed : ¬ ∃ t, longKeyed.run.result = .ok t :=
  mt (exists_result_iff longKeyed).mp not_keysFit_longKeyed

end Call

end Schema

end ApiTypes
