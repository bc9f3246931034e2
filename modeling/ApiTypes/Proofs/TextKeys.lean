import ApiTypes.Proofs.JsonText

/-!
# Texts as keys

In a document of JSON every mapping has texts for its keys, and each of them once.
-/

namespace ApiTypes

namespace Document

def HasTextKeys (d : Document) : Prop :=
  ∀ es, d.entries? = some es → ∃ keys : List String, es.map (·.1) = keys.map .text ∧ keys.Nodup

def TextKeys (d : Document) : Prop := ∀ x, d.Inside x → x.HasTextKeys

theorem hasTextKeys_null (d : Document) : (d.moveTo .null).HasTextKeys := nofun

theorem TextKeys.field {d : Document} (h : d.TextKeys) (key : String) : (d.field key).TextKeys := by
  intro x hx
  cases hf : d.field? key with
  | none =>
    rw [Document.field, hf] at hx
    rw [eq_of_inside_null hx]
    exact hasTextKeys_null d
  | some y =>
    rw [Document.field, hf] at hx
    exact h x ((inside_of_field hf).trans hx)

/-! ## Entries -/

def textEntries (d : Document) : List (String × Document) :=
  (d.entries?.getD []).filterMap fun e => e.1.text?.map fun key => (key, e.2)

theorem textEntries_of_keys {es : List (Scalar × Document)} {keys : List String}
    (h : es.map (·.1) = keys.map .text) :
    es = (es.filterMap fun e => e.1.text?.map fun key => (key, e.2)).map
        (fun e => (.text e.1, e.2)) ∧
      (es.filterMap fun e => e.1.text?.map fun key => (key, e.2)).map (·.1) = keys := by
  induction es generalizing keys with
  | nil =>
    cases keys with
    | nil => exact ⟨rfl, rfl⟩
    | cons key keys => cases h
  | cons e es ih =>
    cases keys with
    | nil => cases h
    | cons key keys =>
      obtain ⟨k, x⟩ := e
      obtain ⟨hkey, hkeys⟩ := List.cons.inj h
      cases hkey
      obtain ⟨hes, hnames⟩ := ih hkeys
      have hcons : ((Scalar.text key, x) :: es).filterMap
          (fun e => e.1.text?.map fun key => (key, e.2)) =
            (key, x) :: es.filterMap fun e => e.1.text?.map fun key => (key, e.2) := rfl
      rw [hcons, List.map_cons, List.map_cons, ← hes, hnames]
      exact ⟨rfl, rfl⟩

theorem textEntries_of_entries?_eq_none {d : Document} (h : d.entries? = none) :
    d.textEntries = [] := by
  rw [textEntries, h]
  rfl

theorem HasTextKeys.nodup {d : Document} (h : d.HasTextKeys) : (d.textEntries.map (·.1)).Nodup := by
  cases hes : d.entries? with
  | none =>
    rw [textEntries_of_entries?_eq_none hes]
    exact List.nodup_nil
  | some es =>
    obtain ⟨keys, hkeys, hnodup⟩ := h es hes
    rw [textEntries, hes, Option.getD_some, (textEntries_of_keys hkeys).2]
    exact hnodup

end Document

/-! ## Texts of JSON -/

theorem Json.isClosed_textKeys : IsClosed fun v => (Document.ofValue v).TextKeys where
  leaf _ := Document.forall_inside_scalar rfl nofun
  seq h := Document.forall_inside_seq rfl nofun h
  map := by
    intro es hnodup h
    refine Document.forall_inside_map rfl (fun entries hes => ⟨es.map (·.1), ?_, hnodup⟩) ?_
    · cases hes
      simp [keyed, List.map_map, Function.comp_def]
    · exact List.forall_mem_map.mpr h

theorem textKeys_of_readJson {path : Path} {cs : List Char} {d : Document}
    (h : readJson path cs = .ok d) : d.TextKeys := by
  obtain ⟨v, hv, rfl⟩ := read_of_readJson h
  exact Json.read_induction Json.isClosed_textKeys hv

end ApiTypes
