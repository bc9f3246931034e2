import ApiTypes.Proofs.IdClashes
import ApiTypes.Proofs.Signatures
import ApiTypes.Proofs.TextKeys

/-!
# Operations of a module

Each part of a module has the same operations in the same order: one for each id of an accepted entry,
where the id comes first, read from the last entry that has it. In the dictionary of paths they stand
under their paths.
-/

namespace ApiTypes

namespace Operation

/-! ## Accepted entries -/

namespace Entry

def hasId (e : Entry) : Bool := (e.operation.fieldText? "operationId").any fun s => !s.isEmpty

def idOf (e : Entry) : String := (declaredId? e.operation).getD (madeId e.method e.path)

theorem id?_eq (e : Entry) (keep : Bool) :
    e.id? keep = if e.hasId || keep then some e.idOf else none := by
  have hdeclared : (declaredId? e.operation).isSome = e.hasId := by
    unfold declaredId? hasId
    cases e.operation.fieldText? "operationId" with
    | none => rfl
    | some s => cases hs : s.isEmpty <;> simp [hs]
  rw [id?, idOf, ← hdeclared]
  cases declaredId? e.operation <;> cases keep <;> rfl

end Entry

theorem byPath_eq (ops : List Operation) : byPath ops =
    (ops.map (·.path)).eraseDups.map fun path => (path, ops.filter fun op => op.path == path) := by
  have hkeys : (ops.map fun op => (op.path, op)).map (·.1) = ops.map (·.path) := List.map_map
  rw [byPath, Table.group_eq, hkeys]
  simp only [Table.under_self]

end Operation

/-! ## Modules -/

namespace Api

open Operation (pathEntry)

/-- A module with the declarations of its components and the namespaces of its operations, where every
part takes the operations as they come. -/
def moduleText (validators : Bool) (components : String) (namespaces : List String)
    (ops : List Operation) : String :=
  let paths := (ops.map (·.path)).eraseDups
  let rows := ops.map fun op => op.id ++ ": " ++ op.responseValidator ++ ","
  let blocks :=
    [headText, if validators then validatorImport else "", noticeText, components,
      "export namespace Paths \x7b\n" ++ String.intercalate "\n\n" namespaces ++ "\n\x7d",
      "export interface OperationMethods \x7b\n" ++
        String.intercalate "\n" (ops.map Operation.member) ++ "\n\x7d",
      "export interface PathsDictionary \x7b\n" ++ String.intercalate "\n"
        (paths.map fun path => pathEntry path (ops.filter fun op => op.path == path)) ++ "\n\x7d",
      if validators then "export const apiResponseValidators = \x7b\n" ++
        String.intercalate "\n" rows ++ "\n\x7d as const" else "",
      tailText]
  String.intercalate "\n\n" (blocks.filter (!·.isEmpty)) ++ "\n"

theorem typings_eq_ok {api : Api} {validators : Bool} {text : String}
    (h : (api.typings validators).result = .ok text) : ∃ namespaces,
      List.Forall₂ (fun op s => (Operation.pathNamespace op).result = .ok s)
        (Operation.lastPerId api.operations) namespaces ∧
      text = moduleText validators (Component.declarationsText api.components validators) namespaces
        (Operation.lastPerId api.operations) := by
  obtain ⟨_, _, h⟩ := Run.bind_eq_ok.mp h
  obtain ⟨components, hcomponents, h⟩ := Run.bind_eq_ok.mp h
  obtain ⟨paths, hpaths, h⟩ := Run.bind_eq_ok.mp h
  obtain ⟨namespaces, hnamespaces, rfl⟩ := Operation.pathsText_eq_ok hpaths
  cases Run.written_eq_ok hcomponents
  refine ⟨namespaces, hnamespaces, (Except.ok.inj h).symm.trans ?_⟩
  have hrows := Operation.validatorTable_of_nodup (Operation.nodup_ids_lastPerId api.operations)
  unfold moduleText Operation.methodsText Operation.dictionaryText Operation.validatorTableText
  rw [hrows, Operation.byPath_eq, List.map_map, List.map_map]
  rfl

end Api

end ApiTypes
