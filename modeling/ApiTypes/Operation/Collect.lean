import ApiTypes.Operation.Parameter

/-!
# Operations of a document

Every method of every path that is an operation, in the order of the document. An operation is
named by its `operationId`; one without may be named after its method and path.
-/

namespace ApiTypes.Operation

/-! ## Parts of an operation -/

/-- Only the first media type of a request counts. -/
def readBody (d : Document) : Run (Option Body) := do
  match (d.field "content").entries? with
  | some ((contentType, media) :: _) =>
    pure (some ⟨← Run.ofWritten contentType.written, ← Schema.typeOf (media.field "schema")⟩)
  | _ => pure none

def readMedia (d : Document) : Media :=
  ⟨d.field "schema", d.field "example", d.field "examples", d.field "encoding"⟩

def readContent (d : Document) : Run (Option (Table String Media)) := do
  match d.entries? with
  | none => pure none
  | some entries =>
    let media ← (entries.filter fun e => e.2.entries?.isSome).mapM fun (contentType, media) => do
      pure (← Run.ofWritten contentType.written, readMedia media)
    pure (some (Table.ofList media))

def readResponse (d : Document) : Run Response := do
  pure ⟨d.fieldText? "description", d.field "headers", ← readContent (d.field "content")⟩

def readResponses (d : Document) : Run (Table String Response) := do
  let responses ← (d.entries?.getD []).mapM fun (status, response) => do
    let response ← readResponse response
    pure (← Run.ofWritten status.written, response)
  pure (Table.ofList responses)

def readSummary (id : String) (summary : Document) : Run String := do
  if summary.isTruthy then pure (id ++ " - " ++ (← Run.ofWritten summary.written)) else pure id

def read (id path method : String) (op shared : Document) : Run Operation := do
  let summary ← readSummary id (op.field "summary")
  let parameters ← Parameter.readAll shared (op.field "parameters")
  let body ← readBody (op.field "requestBody")
  let responses ← readResponses (op.field "responses")
  pure { id, path, method, summary, parameters, body, responses
         description := op.fieldText? "description" }

/-! ## Names of operations -/

def methods : List String :=
  ["get", "put", "post", "delete", "options", "head", "patch", "trace"]

/-- Method names are ASCII, so no other letter becomes one of theirs in lower case. -/
def isMethod (s : String) : Bool := methods.contains (s.map Char.toLower)

def declaredId? (op : Document) : Option String :=
  match op.fieldText? "operationId" with
  | some s => if s.isEmpty then none else some (Name.sanitize s)
  | none => none

def madeId (method path : String) : String :=
  let spaced := path.map fun c => if c == '/' || c == '\x7b' || c == '\x7d' then ' ' else c
  Name.sanitize (Name.camelCase (method ++ " " ++ spaced))

/-! ## The walk through the paths -/

structure Entry where
  path : String
  method : String
  operation : Document
  item : Document

def entriesOfItem (path : String) (item : Document) : List (Except WriteFault Entry) :=
  (item.entries?.getD []).filterMap fun (method, op) =>
    match method.written with
    | .error fault => some (.error fault)
    | .ok method =>
      if isMethod method && op.entries?.isSome then some (.ok ⟨path, method, op, item⟩) else none

def entriesOf (paths : List (Scalar × Document)) : List (Except WriteFault Entry) :=
  (paths.filter fun e => e.2.entries?.isSome).flatMap fun (path, item) =>
    match path.written with
    | .error fault => [.error fault]
    | .ok path => entriesOfItem path item

def Entry.label (e : Entry) : String := labelText e.method e.path

def Entry.id? (e : Entry) (keep : Bool) : Option String :=
  declaredId? e.operation <|> if keep then some (madeId e.method e.path) else none

/-- Reads the entries one by one. `holders` lists the ids so far with the entries that had them, the
last one first. -/
def readEntries (keep : Bool) (holders : List (String × String)) :
    List (Except WriteFault Entry) → Run (List Operation)
  | [] => pure []
  | .error fault :: _ => throw (.unwritable fault)
  | .ok e :: rest =>
    match e.id? keep with
    | none => do
      Run.tell (.skipped e.label)
      readEntries keep holders rest
    | some id => do
      match holders.lookup id with
      | some holder => Run.tell (.idClash id e.label holder)
      | none => pure ()
      let op ← read id e.path e.method e.operation (e.item.field "parameters")
      let ops ← readEntries keep ((id, e.label) :: holders) rest
      pure (op :: ops)

def collect (document : Document) (keep : Bool) : Run (List Operation) := do
  let some _ := document.entries? | throw .noMapping
  match (document.field "paths").truthy? with
  | none => pure []
  | some paths =>
    let some entries := paths.entries? | throw .noMapping
    readEntries keep [] (entriesOf entries)

end ApiTypes.Operation
