import ApiTypes.Proofs.JsonSchema

/-!
# Places inside a document

What is inside a document is reached from it through items and entries. A property of all that is
inside is hereditary, so everything that the readers of schemas and operations look at has it, also
where containers are shared or stand inside themselves.
-/

namespace ApiTypes

namespace Document

inductive Inside (d : Document) : Document → Prop
  | self : Inside d d
  | item {x y ds} : Inside d x → x.items? = some ds → y ∈ ds → Inside d y
  | entry {x e es} : Inside d x → x.entries? = some es → e ∈ es → Inside d e.2

theorem Inside.trans {d x y : Document} (h : d.Inside x) (h' : x.Inside y) : d.Inside y := by
  induction h' with
  | self => exact h
  | item _ hds hy ih => exact .item ih hds hy
  | entry _ hes he ih => exact .entry ih hes he

theorem Inside.eq_moveTo {d x : Document} (h : d.Inside x) : x = d.moveTo x.here := by
  induction h with
  | self => rfl
  | item _ hds hy ih =>
    rw [ih, items?] at hds
    split at hds
    · cases hds
      obtain ⟨v, _, rfl⟩ := List.mem_map.mp hy
      rfl
    · cases hds
  | entry _ hes he ih =>
    rw [ih, entries?] at hes
    split at hes
    · cases hes
      obtain ⟨e, _, rfl⟩ := List.mem_map.mp he
      rfl
    · cases hes

theorem eq_of_inside_null {d x : Document} (h : (d.moveTo .null).Inside x) : x = d.moveTo .null := by
  induction h with
  | self => rfl
  | item _ hds _ ih =>
    subst ih
    cases hds
  | entry _ hes _ ih =>
    subst ih
    cases hes

theorem inside_iff {d x : Document} : d.Inside x ↔ x = d ∨
    (∃ ds, d.items? = some ds ∧ ∃ y ∈ ds, y.Inside x) ∨
      ∃ es, d.entries? = some es ∧ ∃ e ∈ es, e.2.Inside x := by
  constructor
  · intro h
    induction h with
    | self => exact .inl rfl
    | item hx hds hy ih =>
      rcases ih with rfl | ⟨ks, hks, k, hk, h⟩ | ⟨es, hes, e, he, h⟩
      · exact .inr (.inl ⟨_, hds, _, hy, .self⟩)
      · exact .inr (.inl ⟨ks, hks, k, hk, .item h hds hy⟩)
      · exact .inr (.inr ⟨es, hes, e, he, .item h hds hy⟩)
    | entry hx hes he ih =>
      rcases ih with rfl | ⟨ks, hks, k, hk, h⟩ | ⟨ds, hds, y, hy, h⟩
      · exact .inr (.inr ⟨_, hes, _, he, .self⟩)
      · exact .inr (.inl ⟨ks, hks, k, hk, .entry h hes he⟩)
      · exact .inr (.inr ⟨ds, hds, y, hy, .entry h hes he⟩)
  · rintro (rfl | ⟨ds, hds, y, hy, h⟩ | ⟨es, hes, e, he, h⟩)
    · exact .self
    · exact (Inside.item .self hds hy).trans h
    · exact (Inside.entry .self hes he).trans h

/-! ### Closed values -/

theorem forall_inside_scalar {p : Document → Prop} {d : Document} {s : Scalar}
    (hd : d.here = .scalar s) (h : p d) : ∀ x, d.Inside x → p x := by
  intro x hx
  rcases inside_iff.mp hx with rfl | ⟨ds, hds, _⟩ | ⟨es, hes, _⟩
  · exact h
  · rw [items?, value, hd] at hds
    cases hds
  · rw [entries?, value, hd] at hes
    cases hes

theorem forall_inside_seq {p : Document → Prop} {d : Document} {items : List Value}
    (hd : d.here = .seq items) (h : p d) (hitems : ∀ v ∈ items, ∀ x, (d.moveTo v).Inside x → p x) :
    ∀ x, d.Inside x → p x := by
  intro x hx
  rcases inside_iff.mp hx with rfl | ⟨ds, hds, y, hy, hx⟩ | ⟨es, hes, _⟩
  · exact h
  · rw [items?, value, hd] at hds
    cases hds
    obtain ⟨v, hv, rfl⟩ := List.mem_map.mp hy
    exact hitems v hv x hx
  · rw [entries?, value, hd] at hes
    cases hes

theorem forall_inside_map {p : Document → Prop} {d : Document} {entries : List (Scalar × Value)}
    (hd : d.here = .map entries) (h : p d)
    (hentries : ∀ e ∈ entries, ∀ x, (d.moveTo e.2).Inside x → p x) : ∀ x, d.Inside x → p x := by
  intro x hx
  rcases inside_iff.mp hx with rfl | ⟨ds, hds, _⟩ | ⟨es, hes, e, he, hx⟩
  · exact h
  · rw [items?, value, hd] at hds
    cases hds
  · rw [entries?, value, hd] at hes
    cases hes
    obtain ⟨f, hf, rfl⟩ := List.mem_map.mp he
    exact hentries f hf x hx

/-! ## Schemas of one kind -/

theorem exists_map_of_items? {d : Document} {key : String} {ks : List Document}
    (h : (d.field key).items? = some ks) : ∃ entries, d.value = .map entries := by
  cases hv : d.value with
  | map entries => exact ⟨entries, rfl⟩
  | _ =>
    rw [field, field?, hv] at h
    cases h

section
variable {d : Document} {entries : List (Scalar × Value)} (hmap : d.value = .map entries)
include hmap

theorem value_setField (key : String) (v : Value) : (d.setField key v).value =
    .map (entries.map fun e => if isKey key e then (e.1, v) else e) := by
  rw [setField, hmap]
  rfl

theorem field?_setField_of_ne {key other : String} (hne : other ≠ key) (v : Value) :
    (d.setField key v).field? other = d.field? other := by
  have hcells : (d.setField key v).moveTo = d.moveTo := by
    rw [setField, hmap]
    rfl
  have hfind : ∀ es : List (Scalar × Value),
      (es.map fun e => if isKey key e then (e.1, v) else e).find? (isKey other) =
        es.find? (isKey other) := by
    intro es
    induction es with
    | nil => rfl
    | cons e es ih =>
      by_cases hkey : isKey key e = true
      · have hother : ∀ v : Value, isKey other (e.1, v) = false := by
          intro v
          rw [isKey, beq_iff_eq] at hkey
          rw [isKey, hkey]
          simpa using Ne.symm hne
        rw [List.map_cons, if_pos hkey, List.find?_cons_of_neg (by simp [hother]),
          List.find?_cons_of_neg (by simp [hother e.2]), ih]
      · rw [List.map_cons, if_neg hkey, List.find?_cons, List.find?_cons, ih]
  rw [field?, value_setField hmap, field?, hmap, hcells]
  dsimp only
  rw [hfind]

/-- What stands inside a schema of one of its kinds stands inside the schema itself. -/
theorem inside_setField {key : String} {k x : Document} (hk : d.Inside k)
    (h : (d.setField key k.here).Inside x) :
    x = d.setField key k.here ∨ d.Inside x := by
  have hvalue := value_setField hmap key k.here
  have hmove : (d.setField key k.here).moveTo = d.moveTo := by
    rw [setField, hmap]
    rfl
  -- only the changed table leads anywhere new, and its new field leads to `k`
  induction h with
  | self => exact .inl rfl
  | item hx hds hy ih =>
    rcases ih with rfl | ih
    · rw [items?, hvalue] at hds
      cases hds
    · exact .inr (.item ih hds hy)
  | entry hx hes he ih =>
    rcases ih with rfl | ih
    · rw [entries?, hvalue, hmove] at hes
      cases hes
      obtain ⟨_, hreplaced, rfl⟩ := List.mem_map.mp he
      obtain ⟨e, hmem, rfl⟩ := List.mem_map.mp hreplaced
      right
      dsimp only
      split
      · exact hk.eq_moveTo ▸ hk
      · have hes : d.entries? = some (entries.map fun e => (e.1, d.moveTo e.2)) := by
          rw [entries?, hmap]
        exact .entry .self hes (List.mem_map_of_mem hmem)
    · exact .inr (.entry ih hes he)

end

theorem inside_of_field {d x : Document} {key : String} (h : d.field? key = some x) :
    d.Inside x := by
  obtain ⟨es, hes, hmem⟩ := exists_entry_of_field? h
  exact .entry .self hes hmem

theorem hereditary_inside {p : Document → Prop} (hnull : ∀ d : Document, p (d.moveTo .null))
    (hretyped : ∀ {d : Document} {entries}, d.value = .map entries → p d →
      ∀ v, p (d.setField "type" v)) : Hereditary fun d => ∀ x, d.Inside x → p x where
  null := by
    intro d _ x hx
    rw [eq_of_inside_null hx]
    exact hnull d
  items h hds y hy x hx := h x ((Inside.item .self hds hy).trans hx)
  entries h hes e he x hx := h x ((Inside.entry .self hes he).trans hx)
  retyped := by
    intro d ks h hks k hk x hx
    obtain ⟨entries, hmap⟩ := exists_map_of_items? hks
    have hinside : d.Inside k := by
      cases hf : d.field? "type" with
      | none =>
        rw [field, hf] at hks
        cases hks
      | some y =>
        rw [field, hf] at hks
        exact .item (inside_of_field hf) hks hk
    rcases inside_setField hmap hinside hx with rfl | hx
    · exact hretyped hmap (h d .self) k.here
    · exact h x hx

end Document

end ApiTypes
