import ApiTypes.Table
import ApiTypes.Yaml.Tag
import ApiTypes.Yaml.Token

/-!
# Node graphs

The nodes that the tokens of a document describe. Nodes are numbered in the order in which they
begin, and an alias is the number of the node it stands for, so a node may be inside itself.
-/

namespace ApiTypes.Yaml

inductive Content
  | text (s : String)
  | seq (items : List Nat)
  | map (entries : List (Nat × Nat))
  deriving Repr

structure Node where
  tag : Tag
  content : Content
  deriving Repr

instance : Inhabited Node := ⟨⟨.unknown, .text ""⟩⟩

abbrev Graph := Array Node

/-- What is known while a document is read: the tokens that are left, the nodes so far, the numbers
of those with an anchor, and what the handles of tags stand for. -/
structure Composer where
  tokens : List Token
  nodes : Graph
  anchors : List (String × Nat)
  handles : List (String × String)

abbrev Compose := StateT Composer (Except Fault)

namespace Compose

/-! ## Tokens -/

/-- The next token. Where the text breaks off, so does the reading. -/
def peek : Compose Token := do
  match (← get).tokens with
  | [] => throw .malformed
  | .stop (some fault) :: _ => throw fault
  | t :: _ => pure t

def advance : Compose Unit := modify fun s => { s with tokens := s.tokens.tail }

def accept (t : Token) : Compose Bool := do
  if (← peek) == t then
    advance
    pure true
  else pure false

def expect (t : Token) : Compose Unit := do
  if !(← accept t) then throw .malformed

/-! ## Nodes -/

def add (n : Node) : Compose Nat := do
  let id := (← get).nodes.size
  modify fun s => { s with nodes := s.nodes.push n }
  pure id

def fill (id : Nat) (content : Content) : Compose Unit :=
  modify fun s => { s with nodes := s.nodes.modify id fun n => { n with content } }

def name (anchor : Option String) (id : Nat) : Compose Unit := do
  if let some a := anchor then
    if ((← get).anchors.lookup a).isSome then throw .malformed
    modify fun s => { s with anchors := (a, id) :: s.anchors }

def find (anchor : String) : Compose Nat := do
  match (← get).anchors.lookup anchor with
  | some id => pure id
  | none => throw .malformed

def empty : Compose Nat := add ⟨.null, .text ""⟩

/-! ## Tags and anchors -/

def tagText (handle : Option String) (suffix : String) : Compose String := do
  match handle with
  | none => pure suffix
  | some h =>
    match (← get).handles.lookup h with
    | some start => pure (start ++ suffix)
    | none => throw .malformed

def takeAnchor : Compose (Option String) := do
  match ← peek with
  | .anchor a =>
    advance
    pure (some a)
  | _ => pure none

def takeTag : Compose (Option (Option String × String)) := do
  match ← peek with
  | .tag handle suffix =>
    advance
    pure (some (handle, suffix))
  | _ => pure none

def properties : Compose (Option String × Option String) := do
  let first ← takeAnchor
  let tag ← takeTag
  let anchor ← if first.isNone && tag.isSome then takeAnchor else pure first
  let uri ← match tag with
    | none => pure none
    | some (handle, suffix) => do pure (some (← tagText handle suffix))
  pure (anchor, uri)

/-- The tag of a text: one that is plain or marked with `!` goes by its form. -/
def textTag (uri : Option String) (plain : Bool) (s : String) : Tag :=
  match uri with
  | none => if plain then .ofPlain s else .text
  | some uri => if uri == "!" then .ofPlain s else .ofUri uri

def collectionTag (uri : Option String) (usual : Tag) : Tag :=
  match uri with
  | none => usual
  | some uri => if uri == "!" then usual else .ofUri uri

def textNode (anchor : Option String) (tag : Tag) (s : String) : Compose Nat := do
  let id ← add ⟨tag, .text s⟩
  name anchor id
  pure id

def begin (anchor uri : Option String) (usual : Tag) : Compose Nat := do
  let id ← add ⟨collectionTag uri usual, .text ""⟩
  name anchor id
  pure id

/-! ## Collections -/

def isBlockEntryEnd : Token → Bool
  | .blockEntry | .blockEnd => true
  | _ => false

def isIndentlessEntryEnd : Token → Bool
  | .blockEntry | .key | .value | .blockEnd => true
  | _ => false

def isBlockPartEnd : Token → Bool
  | .key | .value | .blockEnd => true
  | _ => false

def isFlowKeyEnd (closing : Token) (t : Token) : Bool :=
  t == .value || t == .flowEntry || t == closing

def isFlowValueEnd (closing : Token) (t : Token) : Bool := t == .flowEntry || t == closing

mutual

/-- Reads a node. In a block it may be a block collection; `indentless` tells that it may be a
sequence at the indentation of the mapping it is in. -/
def node (fuel : Nat) (inBlock indentless : Bool) : Compose Nat :=
  match fuel with
  | 0 => throw .malformed
  | fuel + 1 => do
    match ← peek with
    | .aliasOf a =>
      advance
      find a
    | _ =>
      let (anchor, uri) ← properties
      match ← peek with
      | .blockEntry =>
        if indentless then do
          let id ← begin anchor uri .seq
          fill id (.seq (← indentlessItems fuel))
          pure id
        else if anchor.isSome || uri.isSome then textNode anchor (textTag uri true "") ""
        else throw .malformed
      | .text s plain =>
        advance
        textNode anchor (textTag uri plain s) s
      | .flowSeqStart =>
        advance
        let id ← begin anchor uri .seq
        fill id (.seq (← flowItems fuel true))
        pure id
      | .flowMapStart =>
        advance
        let id ← begin anchor uri .map
        fill id (.map (← flowEntries fuel true))
        pure id
      | t =>
        if inBlock && t == .blockSeqStart then do
          advance
          let id ← begin anchor uri .seq
          fill id (.seq (← blockItems fuel))
          pure id
        else if inBlock && t == .blockMapStart then do
          advance
          let id ← begin anchor uri .map
          fill id (.map (← blockEntries fuel))
          pure id
        else if anchor.isSome || uri.isSome then textNode anchor (textTag uri true "") ""
        else throw .malformed

def nodeOrEmpty (fuel : Nat) (inBlock indentless : Bool) (ends : Token → Bool) : Compose Nat :=
  match fuel with
  | 0 => throw .malformed
  | fuel + 1 => do if ends (← peek) then empty else node fuel inBlock indentless

def blockItems (fuel : Nat) : Compose (List Nat) :=
  match fuel with
  | 0 => throw .malformed
  | fuel + 1 => do
    if ← accept .blockEntry then
      let item ← nodeOrEmpty fuel true false isBlockEntryEnd
      pure (item :: (← blockItems fuel))
    else
      expect .blockEnd
      pure []

def indentlessItems (fuel : Nat) : Compose (List Nat) :=
  match fuel with
  | 0 => throw .malformed
  | fuel + 1 => do
    if ← accept .blockEntry then
      let item ← nodeOrEmpty fuel true false isIndentlessEntryEnd
      pure (item :: (← indentlessItems fuel))
    else pure []

def blockEntries (fuel : Nat) : Compose (List (Nat × Nat)) :=
  match fuel with
  | 0 => throw .malformed
  | fuel + 1 => do
    if ← accept .key then
      let key ← nodeOrEmpty fuel true true isBlockPartEnd
      let value ←
        if ← accept .value then nodeOrEmpty fuel true true isBlockPartEnd else empty
      pure ((key, value) :: (← blockEntries fuel))
    else
      expect .blockEnd
      pure []

def flowValue (fuel : Nat) (closing : Token) : Compose Nat :=
  match fuel with
  | 0 => throw .malformed
  | fuel + 1 => do
    if ← accept .value then nodeOrEmpty fuel false false (isFlowValueEnd closing) else empty

/-- The items of a flow sequence. One with a key is a mapping of its own with one entry. -/
def flowItems (fuel : Nat) (first : Bool) : Compose (List Nat) :=
  match fuel with
  | 0 => throw .malformed
  | fuel + 1 => do
    if ← accept .flowSeqEnd then return []
    if !first then expect .flowEntry
    if ← accept .key then
      let id ← begin none none .map
      let key ← nodeOrEmpty fuel false false (isFlowKeyEnd .flowSeqEnd)
      let value ← flowValue fuel .flowSeqEnd
      fill id (.map [(key, value)])
      return id :: (← flowItems fuel false)
    if ← accept .flowSeqEnd then return []
    let item ← node fuel false false
    return item :: (← flowItems fuel false)

/-- The entries of a flow mapping. One without a key mark has no value. -/
def flowEntries (fuel : Nat) (first : Bool) : Compose (List (Nat × Nat)) :=
  match fuel with
  | 0 => throw .malformed
  | fuel + 1 => do
    if ← accept .flowMapEnd then return []
    if !first then expect .flowEntry
    if ← accept .key then
      let key ← nodeOrEmpty fuel false false (isFlowKeyEnd .flowMapEnd)
      let value ← flowValue fuel .flowMapEnd
      return (key, value) :: (← flowEntries fuel false)
    if ← accept .flowMapEnd then return []
    let key ← node fuel false false
    let value ← empty
    return (key, value) :: (← flowEntries fuel false)

end

/-! ## Documents -/

def usualHandles : List (String × String) := [("!", "!"), ("!!", Tag.standardStart)]

def directives : Nat → Bool → List (String × String) → Compose (List (String × String))
  | 0, _, _ => throw .malformed
  | steps + 1, versioned, handles => do
    match ← peek with
    | .directive d =>
      advance
      match d with
      | .version major =>
        if versioned || major != 1 then throw .malformed
        directives steps true handles
      | .tagHandle handle start =>
        if (handles.lookup handle).isSome then throw .malformed
        directives steps versioned (handles ++ [(handle, start)])
      | .other => directives steps versioned handles
    | _ => pure (handles ++ usualHandles)

def skipAll (t : Token) : Nat → Compose Unit
  | 0 => pure ()
  | steps + 1 => do if ← accept t then skipAll t steps

def endsDocument : Token → Bool
  | .directive _ | .documentStart | .documentEnd | .stop _ => true
  | _ => false

/-- Reads a text of at most one document. Every call takes a token or is one of at most two before
the next token, which bounds the depth. -/
def document : Compose (Option Nat) := do
  let size := (← get).tokens.length
  let fuel := 4 * size + 4
  match ← peek with
  | .stop _ => return none
  | .directive _ | .documentStart =>
    let handles ← directives (size + 1) false []
    expect .documentStart
    modify fun s => { s with handles }
    let root ← if endsDocument (← peek) then empty else node fuel true false
    skipAll .documentEnd size
    expect (.stop none)
    return some root
  | _ =>
    let root ← node fuel true false
    skipAll .documentEnd size
    expect (.stop none)
    return some root

end Compose

def Graph.ofTokens (tokens : List Token) : Except Fault (Graph × Option Nat) := do
  let (root, s) ← Compose.document.run ⟨tokens, #[], [], Compose.usualHandles⟩
  return (s.nodes, root)

end ApiTypes.Yaml
