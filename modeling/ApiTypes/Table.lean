/-!
# Tables

Entries in the order in which their keys came first. `put` overwrites the value of a key at its
place; `putNew` keeps the value that is there.
-/

namespace ApiTypes

abbrev Table (κ α : Type) := List (κ × α)

namespace Table

variable {κ α : Type} [BEq κ]

def get? (t : Table κ α) (k : κ) : Option α := (t.find? fun e => e.1 == k).map (·.2)

def has (t : Table κ α) (k : κ) : Bool := t.any fun e => e.1 == k

/-- The key itself stays as it was first written. -/
def put (t : Table κ α) (k : κ) (v : α) : Table κ α :=
  match t with
  | [] => [(k, v)]
  | e :: es => if e.1 == k then (e.1, v) :: es else e :: put es k v

theorem get?_put_self [LawfulBEq κ] (t : Table κ α) (k : κ) (v : α) :
    get? (put t k v) k = some v := by
  induction t with
  | nil => simp [put, get?]
  | cons e es ih =>
    by_cases h : e.1 == k
    · simp [put, get?, h]
    · simpa [put, get?, h] using ih

theorem get?_put_of_ne [LawfulBEq κ] {j k : κ} (h : j ≠ k) (t : Table κ α) (v : α) :
    get? (put t k v) j = get? t j := by
  induction t with
  | nil => simp [put, get?, Ne.symm h]
  | cons e es ih =>
    by_cases hk : e.1 == k
    · have hj : (e.1 == j) = false := by
        rw [eq_of_beq hk]
        simpa using Ne.symm h
      simp [put, get?, hk, hj]
    · by_cases hj : e.1 == j
      · simp [put, get?, hk, hj]
      · simpa [put, get?, hk, hj] using ih

def putNew (t : Table κ α) (k : κ) (v : α) : Table κ α := if has t k then t else t ++ [(k, v)]

def push (t : Table κ (List α)) (k : κ) (v : α) : Table κ (List α) :=
  match t with
  | [] => [(k, [v])]
  | e :: es => if e.1 == k then (e.1, e.2 ++ [v]) :: es else e :: push es k v

def ofList (es : List (κ × α)) : Table κ α := es.foldl (fun t e => put t e.1 e.2) []

def ofListNew (es : List (κ × α)) : Table κ α := es.foldl (fun t e => putNew t e.1 e.2) []

theorem keys_put [LawfulBEq κ] (t : Table κ α) (k : κ) (v : α) :
    (put t k v).map (·.1) = t.map (·.1) ∨
      (put t k v).map (·.1) = t.map (·.1) ++ [k] ∧ k ∉ t.map (·.1) := by
  induction t with
  | nil => simp [put]
  | cons e es ih =>
    by_cases h : e.1 == k
    · simp [put, h]
    · have hne : k ≠ e.1 := fun he => h (by simp [he])
      rcases ih with ih | ⟨ih, hk⟩
      · left
        simp [put, h, ih]
      · right
        refine ⟨by simp [put, h, ih], fun hk' => ?_⟩
        exact (List.mem_cons.mp hk').elim hne hk

theorem put_of_notMem [LawfulBEq κ] {t : Table κ α} {k : κ} (h : k ∉ t.map (·.1)) (v : α) :
    put t k v = t ++ [(k, v)] := by
  induction t with
  | nil => rfl
  | cons e es ih =>
    rw [List.map_cons, List.mem_cons, not_or] at h
    have hk : (e.1 == k) = false := by simpa using Ne.symm h.1
    simp [put, hk, ih h.2]

theorem forall_put [LawfulBEq κ] {p : κ × α → Prop} {t : Table κ α} {k : κ} {v : α}
    (ht : ∀ e ∈ t, p e) (hv : p (k, v)) : ∀ e ∈ put t k v, p e := by
  induction t with
  | nil => simpa [put] using hv
  | cons e es ih =>
    have hes := fun a ha => ht a (List.mem_cons_of_mem e ha)
    intro a ha
    by_cases h : e.1 == k
    · rw [put, if_pos h] at ha
      rcases List.mem_cons.mp ha with rfl | ha
      · rw [eq_of_beq h]
        exact hv
      · exact hes a ha
    · rw [put, if_neg h] at ha
      rcases List.mem_cons.mp ha with rfl | ha
      · exact ht _ List.mem_cons_self
      · exact ih hes a ha

theorem forall_ofList [LawfulBEq κ] {p : κ × α → Prop} {es : List (κ × α)}
    (h : ∀ e ∈ es, p e) : ∀ e ∈ ofList es, p e :=
  es.foldlRecOn (motive := fun t => ∀ e ∈ t, p e) _ (List.forall_mem_nil _)
    fun _ ht e he => forall_put ht (h e he)

theorem mem_keys_put [LawfulBEq κ] {t : Table κ α} {j k : κ} {v : α} :
    j ∈ (put t k v).map (·.1) ↔ j ∈ t.map (·.1) ∨ j = k := by
  induction t with
  | nil => simp [put]
  | cons e es ih =>
    by_cases h : e.1 == k
    · rw [put, if_pos h, List.map_cons, List.map_cons]
      refine ⟨.inl, fun hj => hj.elim id fun hj => ?_⟩
      rw [hj, ← eq_of_beq h]
      exact List.mem_cons_self
    · rw [put, if_neg h, List.map_cons, List.map_cons, List.mem_cons, List.mem_cons, ih, or_assoc]

theorem mem_keys_ofList [LawfulBEq κ] {es : List (κ × α)} {j : κ} :
    j ∈ (ofList es).map (·.1) ↔ j ∈ es.map (·.1) := by
  have go : ∀ (es : List (κ × α)) (t : Table κ α),
      j ∈ (es.foldl (fun t e => put t e.1 e.2) t).map (·.1) ↔
        j ∈ t.map (·.1) ∨ j ∈ es.map (·.1) := by
    intro es
    induction es with
    | nil => intro t; simp
    | cons e es ih =>
      intro t
      rw [List.foldl_cons, ih, mem_keys_put, List.map_cons, List.mem_cons, or_assoc]
  rw [ofList, go]
  simp

theorem nodup_keys_foldl {ι α β : Type} {step : Table ι β → ι × α → Table ι β}
    (hstep : ∀ t e, (step t e).map (·.1) = t.map (·.1) ∨
      (step t e).map (·.1) = t.map (·.1) ++ [e.1] ∧ e.1 ∉ t.map (·.1)) (es : List (ι × α)) :
    ((es.foldl step []).map (·.1)).Nodup := by
  refine es.foldlRecOn (motive := fun t : Table ι β => (t.map (·.1)).Nodup) _ ?_ ?_
  · exact List.nodup_nil
  intro t ht e _
  rcases hstep t e with h | ⟨h, hk⟩
  · exact h ▸ ht
  · rw [h, List.nodup_append]
    refine ⟨ht, by simp, ?_⟩
    intro a ha b hb
    rw [List.mem_singleton] at hb
    exact fun hab => hk (hb ▸ hab ▸ ha)

theorem nodup_keys_ofList [LawfulBEq κ] (es : List (κ × α)) : ((ofList es).map (·.1)).Nodup :=
  nodup_keys_foldl (fun t e => keys_put t e.1 e.2) es

theorem ofList_of_nodup [LawfulBEq κ] {es : List (κ × α)} (h : (es.map (·.1)).Nodup) :
    ofList es = es := by
  have go : ∀ (es : List (κ × α)) (t : Table κ α), ((t ++ es).map (·.1)).Nodup →
      es.foldl (fun t e => put t e.1 e.2) t = t ++ es := by
    intro es
    induction es with
    | nil => intro t _; simp
    | cons e es ih =>
      intro t ht
      have hk : e.1 ∉ t.map (·.1) := by
        rw [List.map_append, List.nodup_append] at ht
        exact fun hm => ht.2.2 _ hm _ (by simp) rfl
      rw [List.foldl_cons, put_of_notMem hk, ih _ (by simpa using ht)]
      simp
  exact go es [] (by simpa using h)

theorem forall_ofListNew {p : κ × α → Prop} {es : List (κ × α)} (h : ∀ e ∈ es, p e) :
    ∀ e ∈ ofListNew es, p e := by
  refine es.foldlRecOn (motive := fun t => ∀ e ∈ t, p e) _ (List.forall_mem_nil _) ?_
  intro t ht e he
  show ∀ a ∈ putNew t e.1 e.2, p a
  unfold putNew
  split
  · exact ht
  · exact List.forall_mem_append.mpr ⟨ht, by simpa using h e he⟩

theorem ofListNew_ne_nil {es : List (κ × α)} (h : es ≠ []) : ofListNew es ≠ [] := by
  obtain rfl | ⟨init, e, rfl⟩ := List.eq_nil_or_concat es
  · exact absurd rfl h
  rw [List.concat_eq_append, ofListNew, List.foldl_append]
  show putNew _ e.1 e.2 ≠ []
  unfold putNew
  split
  · rename_i hhas
    intro hnil
    rw [hnil] at hhas
    cases hhas
  · simp

def group (es : List (κ × α)) : Table κ (List α) :=
  es.foldl (fun t e => push t e.1 e.2) []

theorem forall_push [LawfulBEq κ] {p : κ → α → Prop} {t : Table κ (List α)} {k : κ} {v : α}
    (ht : ∀ e ∈ t, ∀ x ∈ e.2, p e.1 x) (hv : p k v) : ∀ e ∈ push t k v, ∀ x ∈ e.2, p e.1 x := by
  induction t with
  | nil => simpa [push] using hv
  | cons e es ih =>
    obtain ⟨he, hes⟩ := List.forall_mem_cons.mp ht
    by_cases h : e.1 == k
    · rw [push, if_pos h]
      refine List.forall_mem_cons.mpr ⟨List.forall_mem_append.mpr ⟨he, ?_⟩, hes⟩
      rw [eq_of_beq h]
      simpa using hv
    · rw [push, if_neg h]
      exact List.forall_mem_cons.mpr ⟨he, ih hes⟩

theorem forall_group [LawfulBEq κ] {p : κ → α → Prop} {es : List (κ × α)}
    (h : ∀ e ∈ es, p e.1 e.2) : ∀ e ∈ group es, ∀ x ∈ e.2, p e.1 x :=
  es.foldlRecOn (motive := fun t : Table κ (List α) => ∀ e ∈ t, ∀ x ∈ e.2, p e.1 x) _
    (List.forall_mem_nil _) fun _ ht e he => forall_push ht (h e he)

theorem ne_nil_of_mem_push {t : Table κ (List α)} {k : κ} {v : α} (ht : ∀ e ∈ t, e.2 ≠ []) :
    ∀ e ∈ push t k v, e.2 ≠ [] := by
  induction t with
  | nil => simp [push]
  | cons e es ih =>
    obtain ⟨he, hes⟩ := List.forall_mem_cons.mp ht
    by_cases h : e.1 == k
    · rw [push, if_pos h]
      exact List.forall_mem_cons.mpr ⟨by simp, hes⟩
    · rw [push, if_neg h]
      exact List.forall_mem_cons.mpr ⟨he, ih hes⟩

theorem ne_nil_of_mem_group {es : List (κ × α)} : ∀ e ∈ group es, e.2 ≠ [] :=
  es.foldlRecOn (motive := fun t : Table κ (List α) => ∀ e ∈ t, e.2 ≠ []) _
    (List.forall_mem_nil _) fun _ ht _ _ => ne_nil_of_mem_push ht

theorem keys_push [LawfulBEq κ] (t : Table κ (List α)) (k : κ) (v : α) :
    (push t k v).map (·.1) = t.map (·.1) ∨
      (push t k v).map (·.1) = t.map (·.1) ++ [k] ∧ k ∉ t.map (·.1) := by
  induction t with
  | nil => simp [push]
  | cons e es ih =>
    by_cases h : e.1 == k
    · simp [push, h]
    · have hne : k ≠ e.1 := fun he => h (by simp [he])
      rcases ih with ih | ⟨ih, hk⟩
      · left
        simp [push, h, ih]
      · right
        refine ⟨by simp [push, h, ih], fun hk' => ?_⟩
        exact (List.mem_cons.mp hk').elim hne hk

theorem nodup_keys_group [LawfulBEq κ] (es : List (κ × α)) : ((group es).map (·.1)).Nodup :=
  nodup_keys_foldl (fun t e => keys_push t e.1 e.2) es

/-! ## Values under their own keys -/

section
variable [LawfulBEq κ] (key : α → κ) (xs : List α)

theorem mem_ofList_self :
    ∀ e ∈ ofList (xs.map fun x => (key x, x)), e.1 = key e.2 ∧ e.2 ∈ xs := by
  refine forall_ofList (List.forall_mem_map.mpr ?_)
  exact fun x hx => ⟨rfl, hx⟩

theorem nodup_values_ofList_self :
    (((ofList (xs.map fun x => (key x, x))).map (·.2)).map key).Nodup := by
  have hkeys : ((ofList (xs.map fun x => (key x, x))).map (·.2)).map key =
      (ofList (xs.map fun x => (key x, x))).map (·.1) := by
    rw [List.map_map]
    exact List.map_congr_left fun e he => (mem_ofList_self key xs e he).1.symm
  rw [hkeys]
  exact nodup_keys_ofList _

end

end Table

end ApiTypes
