import ApiTypes.Yaml.Graph

/-!
# Merging

A mapping may take over the entries of others through its merge keys. They come before its own
entries, so that its own win; of several mappings in one list the first one wins.
-/

namespace ApiTypes.Yaml.Graph

def tag (g : Graph) (id : Nat) : Tag := (g[id]?.map (·.tag)).getD .unknown

def content (g : Graph) (id : Nat) : Content := (g[id]?.map (·.content)).getD (.text "")

def entries (g : Graph) (id : Nat) : List (Nat × Nat) :=
  match g.content id with
  | .map es => es
  | _ => []

def setEntries (g : Graph) (id : Nat) (es : List (Nat × Nat)) : Graph :=
  g.modify id fun n => { n with content := .map es }

/-- A key that is written as the mark of a text is a text in a mapping. -/
def settleKeys (g : Graph) (es : List (Nat × Nat)) : Graph :=
  es.foldl (fun g e => if g.tag e.1 == .value then g.modify e.1 ({ · with tag := .text }) else g) g

def takeMerge (g : Graph) : List (Nat × Nat) → Option (Nat × List (Nat × Nat))
  | [] => none
  | e :: es =>
    if g.tag e.1 == .merge then some (e.2, es)
    else (takeMerge g es).map fun (source, rest) => (source, e :: rest)

def mergeCount (g : Graph) : Nat :=
  g.toList.foldl (fun count n =>
    match n.content with
    | .map es => count + es.countP fun e => g.tag e.1 == .merge
    | _ => count) 0

/-- Resolves the merge keys of a mapping, with `taken` taken over already. Each step removes one
merge key from the graph, which bounds the steps. -/
def mergeStep : Nat → List (Nat × Nat) → Graph → Nat → Except Fault Graph
  | 0, _, g, _ => .ok g
  | steps + 1, taken, g, id =>
    match takeMerge g (g.entries id) with
    | none =>
      let own := g.entries id
      .ok ((g.settleKeys own).setEntries id (taken ++ own))
    | some (source, rest) => do
      let g := g.setEntries id rest
      match g.content source with
      | .map _ =>
        let g ← mergeStep steps [] g source
        mergeStep steps (taken ++ g.entries source) g id
      | .seq sources =>
        let (g, lists) ← sources.foldlM (fun (g, lists) source =>
          match g.content source with
          | .map _ => do
            let g ← mergeStep steps [] g source
            pure (g, g.entries source :: lists)
          | _ => throw .malformed) (g, ([] : List (List (Nat × Nat))))
        mergeStep steps (taken ++ lists.flatten) g id
      | .text _ => throw .malformed

def merge (most : Nat) (g : Graph) (id : Nat) : Except Fault Graph := mergeStep (most + 1) [] g id

end ApiTypes.Yaml.Graph
