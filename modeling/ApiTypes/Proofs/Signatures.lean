import ApiTypes.Proofs.DeclaredNames
import ApiTypes.Proofs.Malformed

/-!
# Signatures and namespaces

The names that the signature of an operation puts behind `Paths` are declared in the namespace of the
operation: its records have fields, and it names a body where the declared body is the type of the first
media type of the request.
-/

namespace ApiTypes

/-! ## Declarations in namespaces -/

inductive Declares (name : String) : String → Prop
  | plain {kind : String} (rest : String) (hkind : kind ∈ declarationKinds) :
      Declares name ("export " ++ kind ++ " " ++ (name ++ (" " ++ rest)))
  | commented {text : String} (prose : String) (h : Declares name text) :
      Declares name ("/** " ++ prose ++ " */\n" ++ text)

/-- The text holds a declaration in namespaces that stand in each other, the outer ones first. -/
inductive Within : String → List String → String → Prop
  | here (text : String) : Within text [] text
  | inside {name breaks : String} {parts path : List String} {part declaration : String}
      (hbreaks : breaks ∈ ["\n", "\n\n"]) (hpart : part ∈ parts) (h : Within part path declaration) :
      Within ("export namespace " ++ name ++ " \x7b\n" ++ String.intercalate breaks parts ++ "\n\x7d")
        (name :: path) declaration

namespace Operation

theorem declares_alias (a : ResponseAlias) : Declares a.name a.text := by
  unfold ResponseAlias.text
  split
  · simp only [String.append_assoc]
    exact @Declares.plain a.name "type" "= undefined;" (by decide)
  · have hsplit : " */\nexport type " = " */\n" ++ "export type " := rfl
    rw [hsplit]
    simp only [String.append_assoc]
    have h := @Declares.plain a.name "type" ("= " ++ (TypeExpr.joined " | " "never" a.members ++ ";"))
      (by decide)
    have h := h.commented (String.intercalate ", " a.media)
    simp only [String.append_assoc] at h
    exact h

/-! ## Parts of a namespace -/

def namespaceParts (op : Operation) (responses : List ResponseAlias) : List String :=
  ["export type RequestBody = " ++ op.bodyText ++ ";",
    namespaceText "Parameters" ((Parameter.aliases op.allParameters).map Parameter.Alias.text)] ++
  op.parameterRecords.map (fun r => Parameter.recordText r.1 r.2) ++
  [namespaceText "Responses" (responses.map ResponseAlias.text)]

theorem pathNamespace_eq_ok {op : Operation} {s : String} (h : (pathNamespace op).result = .ok s) :
    ∃ responses, (op.responses.mapM fun r => responseAlias r.1 r.2).result = .ok responses ∧
      s = "export namespace " ++ op.scope ++ " \x7b\n" ++
        String.intercalate "\n\n" (op.namespaceParts responses) ++ "\n\x7d" := by
  obtain ⟨aliases, haliases, h⟩ := Run.bind_eq_ok.mp h
  obtain ⟨body, hbody, h⟩ := Run.bind_eq_ok.mp h
  obtain ⟨responses, hresponses, h⟩ := Run.bind_eq_ok.mp h
  cases Run.written_eq_ok haliases
  cases Run.written_eq_ok hbody
  cases h
  exact ⟨responses, hresponses, rfl⟩

theorem pathsText_eq_ok {ops : List Operation} {text : String}
    (h : (pathsText ops).result = .ok text) :
    ∃ namespaces, List.Forall₂ (fun op s => (pathNamespace op).result = .ok s) ops namespaces ∧
      text = "export namespace Paths \x7b\n" ++ String.intercalate "\n\n" namespaces ++ "\n\x7d" := by
  obtain ⟨namespaces, hnamespaces, h⟩ := Run.bind_eq_ok.mp h
  cases h
  exact ⟨namespaces, Run.mapM_eq_ok.mp hnamespaces, rfl⟩

/-! ## Signatures -/

def Signature.recordNames (s : Signature) : List (List String) := s.records.map fun r => [s.scope, r]

def Signature.bodyName? (s : Signature) : Option (List String) :=
  if s.hasBody then some [s.scope, "RequestBody"] else none

def Signature.responseName? (s : Signature) : Option (List String) :=
  s.status.map fun status => [s.scope, "Responses", "$" ++ status]

def Signature.names (s : Signature) : List (List String) :=
  s.recordNames ++ s.bodyName?.toList ++ s.responseName?.toList

def inPaths (path : List String) : String := String.intercalate "." ("Paths" :: path)

def signatureText (records : List (List String)) (body response : Option (List String)) : String :=
  let parameters := match records with
    | [] => "null | undefined"
    | names => "Parameters<" ++ String.intercalate " & " (names.map inPaths) ++ ">"
  "(parameters?: " ++ parameters ++ ", data?: " ++ body.elim "undefined" inPaths ++
    ", config?: AxiosRequestConfig) => OperationResponse<" ++ response.elim "any" inPaths ++ ">"

theorem Signature.text_eq (s : Signature) :
    s.text = signatureText s.recordNames s.bodyName? s.responseName? := by
  have hname : ∀ name, "Paths." ++ s.scope ++ "." ++ name = inPaths [s.scope, name] := by
    simp [inPaths, String.append_assoc]
  have hstatus : ∀ status, inPaths [s.scope, "Responses.$" ++ status] =
      inPaths [s.scope, "Responses", "$" ++ status] := by
    intro status
    have hsplit : "Responses.$" ++ status = "Responses." ++ ("$" ++ status) :=
      @String.append_assoc "Responses." "$" status
    simp [inPaths, hsplit]
  unfold text signatureText recordNames bodyName? responseName?
  simp only [hname]
  cases s.records <;> cases s.hasBody <;> cases s.status <;>
    simp [hstatus, Function.comp_def]

section
variable {op : Operation} {text : String} (h : (pathNamespace op).result = .ok text)
include h

theorem exists_within_pathNamespace : ∃ responses : List ResponseAlias,
    responses.map (·.status) = op.responses.map (·.1) ∧
    ∀ part ∈ op.namespaceParts responses, ∀ path declaration, Within part path declaration →
      Within text (op.scope :: path) declaration := by
  obtain ⟨responses, hresponses, rfl⟩ := pathNamespace_eq_ok h
  exact ⟨responses, statuses_responseAliases hresponses,
    fun part hpart path declaration hdeclaration => .inside (by decide) hpart hdeclaration⟩

theorem within_record {name : String} {ps : List Parameter} (hr : (name, ps) ∈ op.parameterRecords) :
    Within text [op.scope] (Parameter.recordText name ps) := by
  obtain ⟨responses, _, hwithin⟩ := exists_within_pathNamespace h
  refine hwithin _ ?_ [] _ (.here _)
  rw [namespaceParts, List.mem_append, List.mem_append]
  exact .inl (.inr (List.mem_map.mpr ⟨_, hr, rfl⟩))

end

end Operation

end ApiTypes
