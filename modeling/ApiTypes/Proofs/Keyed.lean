import Mathlib.Data.List.Basic
import Mathlib.Data.List.Induction
import ApiTypes.Table

/-!
# Tables made of entries

What a table holds, told by its entries: each key at the place where it came first, with all the values
under it if these are gathered, or with the last of them if later ones overwrite earlier ones.
-/

namespace ApiTypes

/-! ## Lists -/

section
variable {α β : Type}

theorem forall₂_filterMap {f : α → Option β} {xs : List α}
    (h : ∀ x ∈ xs, ∃ y, f x = some y) :
    List.Forall₂ (fun x y => f x = some y) xs (xs.filterMap f) := by
  induction xs with
  | nil => exact .nil
  | cons x xs ih =>
    obtain ⟨⟨y, hy⟩, h⟩ := List.forall_mem_cons.mp h
    rw [List.filterMap_cons_some hy]
    exact .cons hy (ih h)

end

namespace Table

variable {κ α : Type}

/-! ## Last values -/

def lasts (t : Table κ (List α)) : Table κ α :=
  t.filterMap fun e => e.2.getLast?.map fun v => (e.1, v)

theorem lasts_cons {k : κ} {vs : List α} {v : α} (h : vs.getLast? = some v) (t : Table κ (List α)) :
    lasts ((k, vs) :: t) = (k, v) :: lasts t := by
  rw [lasts, List.filterMap_cons, h]
  rfl

variable [BEq κ]

theorem put_lasts {t : Table κ (List α)} (ht : ∀ e ∈ t, e.2 ≠ []) (k : κ) (v : α) :
    put (lasts t) k v = lasts (push t k v) := by
  induction t with
  | nil => rfl
  | cons e t ih =>
    obtain ⟨j, vs⟩ := e
    obtain ⟨hvs, ht⟩ := List.forall_mem_cons.mp ht
    have hlast := List.getLast?_eq_some_getLast hvs
    rw [lasts_cons hlast, put, push]
    by_cases hj : j == k
    · rw [if_pos hj, if_pos hj, lasts_cons List.getLast?_concat]
    · rw [if_neg hj, if_neg hj, ih ht, lasts_cons hlast]

/-- Values that overwrite each other leave the last of those that would be gathered. -/
theorem ofList_eq_lasts (es : List (κ × α)) : ofList es = lasts (group es) := by
  induction es using List.reverseRecOn with
  | nil => rfl
  | append_singleton es e ih =>
    have hput : ofList (es ++ [e]) = put (ofList es) e.1 e.2 := by
      rw [ofList, List.foldl_append]
      rfl
    have hpush : group (es ++ [e]) = push (group es) e.1 e.2 := by
      rw [group, List.foldl_append]
      rfl
    rw [hput, hpush, ih, put_lasts ne_nil_of_mem_group]

/-! ## Values under a key -/

def under (es : List (κ × α)) (k : κ) : List α := (es.filter fun e => e.1 == k).map (·.2)

theorem under_map {β : Type} (key : α → κ) (f : α → β) (xs : List α) (k : κ) :
    under (xs.map fun x => (key x, f x)) k = (xs.filter fun x => key x == k).map f := by
  rw [under, List.filter_map, List.map_map]
  rfl

theorem under_self (key : α → κ) (xs : List α) (k : κ) :
    under (xs.map fun x => (key x, x)) k = xs.filter fun x => key x == k := by
  rw [under_map key fun x => x]
  exact List.map_id _

theorem under_concat (es : List (κ × α)) (e : κ × α) (k : κ) :
    under (es ++ [e]) k = under es k ++ if e.1 == k then [e.2] else [] := by
  rw [under, List.filter_append, List.map_append, ← under, List.filter_cons]
  split <;> rfl

/-! ## Tables side by side -/

section
variable {β : Type} {R : α → β → Prop}

def Matches (R : α → β → Prop) : Table κ α → Table κ β → Prop :=
  List.Forall₂ fun e f => e.1 = f.1 ∧ R e.2 f.2

theorem Matches.put {t : Table κ α} {u : Table κ β} (h : Matches R t u) (k : κ) {v : α} {w : β}
    (hv : R v w) : Matches R (put t k v) (put u k w) := by
  induction h with
  | nil => exact .cons ⟨rfl, hv⟩ .nil
  | @cons e f t u hef htu ih =>
    unfold Table.put
    rw [hef.1]
    split
    · exact .cons ⟨rfl, hv⟩ htu
    · exact .cons hef ih

theorem Matches.ofList {es : List (κ × α)} {fs : List (κ × β)} (h : Matches R es fs) :
    Matches R (ofList es) (ofList fs) := by
  have go : ∀ {t : Table κ α} {u : Table κ β}, Matches R t u →
      Matches R (es.foldl (fun t e => Table.put t e.1 e.2) t)
        (fs.foldl (fun t e => Table.put t e.1 e.2) u) := by
    induction h with
    | nil => exact id
    | @cons e f es fs hef _ ih =>
      intro t u htu
      rw [List.foldl_cons, List.foldl_cons, hef.1]
      exact ih (htu.put f.1 hef.2)
  exact go .nil

end

/-! ## Keys -/

variable [LawfulBEq κ]

theorem eraseDups_concat (ks : List κ) (k : κ) : (ks ++ [k]).eraseDups =
    if k ∈ ks.eraseDups then ks.eraseDups else ks.eraseDups ++ [k] := by
  by_cases hk : k ∈ ks
  · simp [List.eraseDups_append, List.removeAll, hk]
  · simp [List.eraseDups_append, List.removeAll, hk, List.eraseDups_cons]

theorem nodup_eraseDups (ks : List κ) : ks.eraseDups.Nodup := by
  induction ks using List.reverseRecOn with
  | nil => simp
  | append_singleton ks k ih =>
    rw [eraseDups_concat]
    split
    · exact ih
    · rename_i hk
      rw [List.nodup_append]
      refine ⟨ih, by simp, fun a ha b hb => ?_⟩
      rw [List.mem_singleton.mp hb]
      rintro rfl
      exact hk ha

/-! ## Gathered values -/

theorem push_map {f : κ → List α} {ks : List κ} (hks : ks.Nodup) {k : κ} (hnew : k ∉ ks → f k = [])
    (v : α) : push (ks.map fun j => (j, f j)) k v =
      (if k ∈ ks then ks else ks ++ [k]).map fun j => (j, f j ++ if k == j then [v] else []) := by
  induction ks with
  | nil =>
    rw [if_neg List.not_mem_nil, List.nil_append, List.map_singleton, hnew List.not_mem_nil]
    simp [push]
  | cons j ks ih =>
    obtain ⟨hj, hks⟩ := List.nodup_cons.mp hks
    have hkept : ∀ {i}, i ≠ k → (i, f i) = (i, f i ++ if k == i then [v] else []) := by
      intro i hi
      simp [Ne.symm hi]
    rw [List.map_cons, push]
    by_cases hjk : j = k
    · subst hjk
      rw [if_pos (beq_self_eq_true j), if_pos List.mem_cons_self, List.map_cons, beq_self_eq_true]
      congr 1
      refine List.map_congr_left fun i hi => hkept ?_
      rintro rfl
      exact hj hi
    · have hmem : k ∈ j :: ks ↔ k ∈ ks := by simp [Ne.symm hjk]
      rw [if_neg (by simpa using hjk), ih hks fun hk => hnew (mt hmem.mp hk), hkept hjk]
      by_cases hk : k ∈ ks
      · rw [if_pos hk, if_pos (hmem.mpr hk), List.map_cons]
      · rw [if_neg hk, if_neg (mt hmem.mp hk), List.cons_append, List.map_cons]

theorem group_eq (es : List (κ × α)) :
    group es = (es.map (·.1)).eraseDups.map fun k => (k, under es k) := by
  induction es using List.reverseRecOn with
  | nil => rfl
  | append_singleton es e ih =>
    have hnew : e.1 ∉ (es.map (·.1)).eraseDups → under es e.1 = [] := by
      intro he
      rw [under, List.map_eq_nil_iff, List.filter_eq_nil_iff]
      intro a ha hae
      exact he (List.mem_eraseDups.mpr (eq_of_beq hae ▸ List.mem_map_of_mem ha))
    have hstep : group (es ++ [e]) = push (group es) e.1 e.2 := by
      rw [group, List.foldl_append]
      rfl
    rw [hstep, ih, push_map (nodup_eraseDups _) hnew, List.map_append, List.map_singleton,
      eraseDups_concat]
    simp only [under_concat]

theorem ofList_eq (es : List (κ × α)) : ofList es =
    (es.map (·.1)).eraseDups.filterMap fun k => (under es k).getLast?.map fun v => (k, v) := by
  rw [ofList_eq_lasts, group_eq, lasts, List.filterMap_map]
  rfl

theorem ofList_map {β : Type} (key : α → κ) (f : α → β) (xs : List α) :
    ofList (xs.map fun x => (key x, f x)) = (xs.map key).eraseDups.filterMap fun k =>
      (xs.filter fun x => key x == k).getLast?.map fun x => (key x, f x) := by
  have hkeys : (xs.map fun x => (key x, f x)).map (·.1) = xs.map key := List.map_map
  rw [ofList_eq, hkeys]
  refine List.filterMap_congr fun k _ => ?_
  rw [under_map, List.getLast?_map, Option.map_map]
  refine Option.map_congr fun x hx => ?_
  rw [Function.comp_apply, eq_of_beq (List.mem_filter.mp (List.mem_of_getLast? hx)).2]

/-! ## First values -/

theorem keys_putNew (t : Table κ α) (k : κ) (v : α) :
    (putNew t k v).map (·.1) = t.map (·.1) ∨
      (putNew t k v).map (·.1) = t.map (·.1) ++ [k] ∧ k ∉ t.map (·.1) := by
  unfold putNew
  split
  · exact .inl rfl
  · rename_i h
    refine .inr ⟨by simp, fun hk => h ?_⟩
    obtain ⟨e, he, hek⟩ := List.mem_map.mp hk
    exact List.any_eq_true.mpr ⟨e, he, beq_iff_eq.mpr hek⟩

theorem nodup_keys_ofListNew (es : List (κ × α)) : ((ofListNew es).map (·.1)).Nodup :=
  nodup_keys_foldl (fun t e => keys_putNew t e.1 e.2) es

theorem get?_putNew (t : Table κ α) (k j : κ) (v : α) :
    get? (putNew t k v) j = (get? t j).or (get? [(k, v)] j) := by
  unfold putNew
  split
  · rename_i h
    by_cases hk : k = j
    · subst hk
      obtain ⟨e, he⟩ := List.find?_isSome.mpr (List.any_eq_true.mp h) |> Option.isSome_iff_exists.mp
      simp [get?, he]
    · simp [get?, hk]
  · simp [get?, List.find?_append, Option.map_or]

theorem get?_ofListNew (es : List (κ × α)) (k : κ) : get? (ofListNew es) k = get? es k := by
  have hfold : ∀ (es : List (κ × α)) (t : Table κ α),
      get? (es.foldl (fun t e => putNew t e.1 e.2) t) k = (get? t k).or (get? es k) := by
    intro es
    induction es with
    | nil => intro t; simp [get?]
    | cons e es ih =>
      intro t
      have hcons : get? (e :: es) k = (get? [(e.1, e.2)] k).or (get? es k) := by
        unfold get?
        rw [List.find?_cons]
        by_cases he : e.1 == k <;> simp [he]
      rw [List.foldl_cons, ih, get?_putNew, Option.or_assoc, hcons]
  rw [ofListNew, hfold]
  rfl

omit [LawfulBEq κ] in
theorem head?_ofListNew (es : List (κ × α)) : (ofListNew es).head? = es.head? := by
  have hput : ∀ {t : Table κ α} (k : κ) (v : α), t ≠ [] → (putNew t k v).head? = t.head? := by
    intro t k v ht
    unfold putNew
    split
    · rfl
    · exact List.head?_append_of_ne_nil _ ht
  cases es with
  | nil => rfl
  | cons e es =>
    refine es.foldlRecOn (motive := fun t : Table κ α => t.head? = some e) _ rfl ?_
    intro t ht e' _
    rw [hput _ _ (by rintro rfl; cases ht), ht]

end Table

end ApiTypes
