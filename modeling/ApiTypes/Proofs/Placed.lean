import ApiTypes.Proofs.JsonText
import ApiTypes.Proofs.Loading
import ApiTypes.Proofs.Unfolding

/-!
# Cells of loaded documents

The cells of a document that is loaded hold containers themselves, so a loaded document unfolds to a
tree unless a container stands inside itself.
-/

namespace ApiTypes

open Document

namespace Yaml

theorem invariant_placed : Fill.Invariant (fun s => Placed s.cells) (fun _ => True) where
  malformed := trivial
  text _ _ := trivial
  scalar _ _ _ := trivial
  meet _ _ hs := hs
  merge hs _ := ⟨fun _ _ => hs, fun _ _ => trivial⟩
  fill {s} id v hs hv n m hget := by
    rw [Array.getElem?_setIfInBounds] at hget
    split at hget
    · split at hget
      · exact hv m (Option.some_inj.mp hget)
      · cases hget
    · exact hs n m hget

theorem placed_toDocument {g : Graph} {root : Nat} {d : Document} (h : g.toDocument root = .ok d) :
    Placed d.cells := by
  have hstart : Placed (Array.replicate g.size .null) := by
    intro n m hget
    obtain ⟨hn, hv⟩ := Array.getElem?_eq_some_iff.mp hget
    rw [Array.getElem_replicate] at hv
    cases hv
  obtain ⟨s, hs, hcells⟩ := (yields_toDocument invariant_placed hstart root).ok d h
  rw [hcells]
  exact hs

theorem placed_read {cs : List Char} {d : Document} (h : read cs = .ok d) : Placed d.cells := by
  unfold read at h
  cases hgraph : Graph.ofTokens (Token.ofText cs) with
  | error e =>
    rw [hgraph] at h
    cases h
  | ok p =>
    obtain ⟨g, root⟩ := p
    rw [hgraph] at h
    cases root with
    | none =>
      cases h
      nofun
    | some root => exact placed_toDocument h

end Yaml

/-! ## Loading -/

theorem Json.isClosed_unlinked : IsClosed fun v =>
    ∀ n, ¬ Relation.ReflTransGen (Holds #[]) v (.link n) where
  leaf _ n h := by
    rcases Relation.ReflTransGen.cases_head h with h | ⟨_, h, _⟩ <;> cases h
  seq ih n h := by
    rcases Relation.ReflTransGen.cases_head h with h | ⟨v, h, hv⟩
    · cases h
    · cases h with
      | item hmem => exact ih v hmem n hv
  map _ ih n h := by
    rcases Relation.ReflTransGen.cases_head h with h | ⟨_, h, hv⟩
    · cases h
    · cases h with
      | entry hmem =>
        obtain ⟨e, he, rfl⟩ := List.mem_map.mp hmem
        exact ih e he n hv

theorem acyclic_of_readJson {path : Path} {cs : List Char} {d : Document}
    (h : readJson path cs = .ok d) : d.Acyclic := by
  obtain ⟨v, hv, rfl⟩ := read_of_readJson h
  exact ⟨nofun, fun n hn => absurd hn (Json.read_induction Json.isClosed_unlinked hv n)⟩

theorem placed_readAs {path : Path} {format : Format} {cs : List Char} {d : Document}
    (h : readAs path format cs = .ok d) : Placed d.cells := by
  cases format with
  | json => exact (acyclic_of_readJson h).placed
  | yaml =>
    change readYaml path cs = .ok d at h
    unfold readYaml at h
    split at h
    · rename_i hread
      cases h
      exact Yaml.placed_read hread
    · cases h
    · cases h

theorem exists_of_bind_eq_ok {ε α β : Type} {x : Except ε α} {f : α → Except ε β} {b : β}
    (h : x.bind f = .ok b) : ∃ a, x = .ok a ∧ f a = .ok b := by
  cases x with
  | ok a => exact ⟨a, rfl, h⟩
  | error e => cases h

theorem placed_load {look : Look} {path : Path} {format : Option Format} {d : Document}
    (h : load look path format = .ok d) : Placed d.cells := by
  cases hlook : look path.text with
  | file bytes =>
    rw [load_eq hlook] at h
    obtain ⟨f, _, h⟩ := exists_of_bind_eq_ok h
    obtain ⟨cs, _, h⟩ := exists_of_bind_eq_ok h
    obtain ⟨e, hread, h⟩ := exists_of_bind_eq_ok h
    unfold requireMapping at h
    split at h
    · cases h
    · cases h
      exact placed_readAs hread
  | _ =>
    unfold load at h
    rw [hlook] at h
    cases h

end ApiTypes
