import ApiTypes.Yaml.Token
import ApiTypes.Yaml.BlockText
import ApiTypes.Yaml.QuotedText

/-!
# The layout of a YAML text

Cuts a text into tokens. Indentation opens and closes block collections, and a token on one line
with a later colon turns out to be a key: the tokens that this puts in front of it are kept beside
it, so that no token ever moves.
-/

namespace ApiTypes.Yaml

structure KeyCandidate where
  number : Nat
  /-- Nothing else than a key can stand there. -/
  required : Bool
  index : Nat
  line : Nat
  column : Nat

/-- How far a text has been cut. There are `count` tokens so far, the last one first; `openers` has
what stands in front of some of them, by their numbers. `indents` has the columns of the open block
collections, the innermost first; `candidates` has one possible key for each depth of flow
collections. -/
structure Layout where
  cursor : Cursor
  tokens : List Token
  count : Nat
  openers : List (Nat × List Token)
  depth : Nat
  indents : List Int
  keyAllowed : Bool
  candidates : List (Nat × KeyCandidate)

namespace Layout

def start (cs : List Char) : Layout := ⟨.start cs, [], 0, [], 0, [], true, []⟩

def indent (s : Layout) : Int := s.indents.head?.getD (-1)

def inFlow (s : Layout) : Bool := s.depth != 0

def emit (s : Layout) (t : Token) : Layout :=
  { s with tokens := t :: s.tokens, count := s.count + 1 }

def moveTo (s : Layout) (c : Cursor) : Layout := { s with cursor := c }

/-! ## Block collections -/

def closeBlocks (s : Layout) (column : Int) : Layout :=
  if s.inFlow then s
  else
    let closed := s.indents.takeWhile (column < ·)
    closed.foldl (fun s _ => s.emit .blockEnd) { s with indents := s.indents.drop closed.length }

def openBlock (s : Layout) (column : Nat) (t : Token) : Layout :=
  if s.indent < column then { s with indents := column :: s.indents }.emit t else s

/-! ## Keys -/

def candidate? (s : Layout) : Option KeyCandidate := s.candidates.lookup s.depth

def dropCandidate (s : Layout) : Layout :=
  { s with candidates := s.candidates.filter fun k => k.1 != s.depth }

def giveUpKey (s : Layout) : Except Fault Layout :=
  if s.candidate?.any (·.required) then .error .malformed else .ok s.dropCandidate

def noteKey (s : Layout) : Except Fault Layout := do
  if !s.keyAllowed then return s
  let s ← s.giveUpKey
  let required := !s.inFlow && s.indent == s.cursor.column
  let key : KeyCandidate :=
    ⟨s.count, required, s.cursor.index, s.cursor.line, s.cursor.column⟩
  return { s with candidates := (s.depth, key) :: s.candidates }

def maxKeyLength : Nat := 1024

def isStale (s : Layout) (k : KeyCandidate) : Bool :=
  k.line != s.cursor.line || maxKeyLength < s.cursor.index - k.index

def dropStaleKeys (s : Layout) : Except Fault Layout :=
  let (stale, live) := s.candidates.partition fun k => s.isStale k.2
  if stale.any (·.2.required) then .error .malformed else .ok { s with candidates := live }

/-- Puts the mark of a key, and before it that of its mapping, in front of a token. -/
def openKey (s : Layout) (k : KeyCandidate) : Layout :=
  let opensMap := !s.inFlow && s.indent < k.column
  let openers := if opensMap then [.blockMapStart, .key] else [.key]
  { s with
    openers := (k.number, openers) :: s.openers
    indents := if opensMap then k.column :: s.indents else s.indents }

/-! ## Single tokens -/

def take (s : Layout) (t : Token) (width : Nat) (keyAllowed : Bool) : Layout :=
  { (s.emit t).moveTo (s.cursor.skip width) with keyAllowed }

def separator (s : Layout) (t : Token) : Except Fault Layout := do
  return (← (s.closeBlocks (-1)).giveUpKey).take t 3 false

def directive (s : Layout) : Except Fault Layout := do
  let s ← (s.closeBlocks (-1)).giveUpKey
  let (t, c) ← Token.readDirective s.cursor
  return { (s.emit t).moveTo c with keyAllowed := false }

def openFlow (s : Layout) (t : Token) : Except Fault Layout := do
  let s ← s.noteKey
  return { s.take t 1 true with depth := s.depth + 1 }

def closeFlow (s : Layout) (t : Token) : Except Fault Layout := do
  let s ← s.giveUpKey
  return { s.take t 1 false with depth := s.depth - 1 }

def flowEntry (s : Layout) : Except Fault Layout := do return (← s.giveUpKey).take .flowEntry 1 true

def openIndented (s : Layout) (t : Token) : Except Fault Layout :=
  if s.inFlow then .ok s
  else if s.keyAllowed then .ok (s.openBlock s.cursor.column t)
  else .error .malformed

def blockEntry (s : Layout) : Except Fault Layout := do
  return (← (← s.openIndented .blockSeqStart).giveUpKey).take .blockEntry 1 true

def keyMark (s : Layout) : Except Fault Layout := do
  return (← (← s.openIndented .blockMapStart).giveUpKey).take .key 1 (!s.inFlow)

def valueMark (s : Layout) : Except Fault Layout := do
  match s.candidate? with
  | some k => return (s.dropCandidate.openKey k).take .value 1 false
  | none => return (← (← s.openIndented .blockMapStart).giveUpKey).take .value 1 (!s.inFlow)

def keyable (s : Layout) (read : Cursor → Except Fault (Token × Bool × Cursor)) :
    Except Fault Layout := do
  let s ← s.noteKey
  let (t, keyAllowed, c) ← read s.cursor
  return { (s.emit t).moveTo c with keyAllowed }

def named (make : String → Token) (c : Cursor) : Except Fault (Token × Bool × Cursor) := do
  let (name, c) ← Token.readName c
  return (make name, false, c)

def tag (c : Cursor) : Except Fault (Token × Bool × Cursor) := do
  let (t, c) ← Token.readTag c
  return (t, false, c)

def quotedText (quote : Char) (c : Cursor) : Except Fault (Token × Bool × Cursor) := do
  let (text, c) ← QuotedText.read quote c
  return (.text text false, false, c)

def plainText (s : Layout) (c : Cursor) : Except Fault (Token × Bool × Cursor) := do
  let (text, newLine, c) ← PlainText.read s.inFlow s.indent c
  return (.text text true, newLine, c)

def blockText (s : Layout) (folded : Bool) : Except Fault Layout := do
  let s ← s.giveUpKey
  let (text, c) ← BlockText.read folded s.indent s.cursor
  return { (s.emit (.text text false)).moveTo c with keyAllowed := true }

def startsPlain (s : Layout) (ch : Char) : Bool :=
  (!isGap ch && !"-?:,[]\x7b\x7d#&*!|>'\"%@\x60".toList.contains ch) ||
    (!endsWord (s.cursor.peekAt 1) && (ch == '-' || (!s.inFlow && (ch == '?' || ch == ':'))))

def token (s : Layout) (ch : Char) : Except Fault Layout :=
  let c := s.cursor
  let alone := endsWord (c.peekAt 1)
  if ch == '%' && c.column == 0 then s.directive
  else if c.column == 0 && c.seesSeparator '-' then s.separator .documentStart
  else if c.column == 0 && c.seesSeparator '.' then s.separator .documentEnd
  else if ch == '[' then s.openFlow .flowSeqStart
  else if ch == '\x7b' then s.openFlow .flowMapStart
  else if ch == ']' then s.closeFlow .flowSeqEnd
  else if ch == '\x7d' then s.closeFlow .flowMapEnd
  else if ch == ',' then s.flowEntry
  else if ch == '-' && alone then s.blockEntry
  else if ch == '?' && (s.inFlow || alone) then s.keyMark
  else if ch == ':' && (s.inFlow || alone) then s.valueMark
  else if ch == '*' then s.keyable (named .aliasOf)
  else if ch == '&' then s.keyable (named .anchor)
  else if ch == '!' then s.keyable tag
  else if ch == '|' && !s.inFlow then s.blockText false
  else if ch == '>' && !s.inFlow then s.blockText true
  else if ch == '\'' || ch == '"' then s.keyable (quotedText ch)
  else if s.startsPlain ch then s.keyable s.plainText
  else .error .malformed

/-! ## The whole text -/

def skipGaps (s : Layout) : Except Fault Layout := do
  let c := s.cursor
  let c := if c.index = 0 && c.sees '\uFEFF' then c.next else c
  let (newLine, c) ← c.iterate false fun newLine c =>
    if c.sees ' ' then .ok (some (newLine, c.next))
    else if c.sees '#' then .ok (some (newLine, c.skipWhile (!isBreak ·)))
    else if c.peek.any isBreak then .ok (some (true, c.takeBreak.2))
    else .ok none
  return { s.moveTo c with keyAllowed := s.keyAllowed || (newLine && !s.inFlow) }

def step (s : Layout) : Except Fault (Option Layout) := do
  let s ← (← s.skipGaps).dropStaleKeys
  let s := s.closeBlocks s.cursor.column
  match s.cursor.peek with
  | some ch => return some (← s.token ch)
  | none => return none

def finish (s : Layout) : Except Fault Unit := do
  let s ← (← s.skipGaps).dropStaleKeys
  let _ ← s.giveUpKey

/-- Takes tokens until the text ends or breaks off. A fault does not undo the tokens before it. -/
def run : Nat → Layout → Layout × Option Fault
  | 0, s => (s, none)
  | steps + 1, s =>
    match s.step with
    | .error fault => (s, some fault)
    | .ok (some s') => run steps s'
    | .ok none =>
      match s.finish with
      | .ok () => (s.closeBlocks (-1), none)
      | .error fault => (s, some fault)

end Layout

/-- The number of tokens of which it is certain what is in front of them. -/
def Layout.settled (s : Layout) : Nat :=
  (s.candidates.filter fun k => !s.isStale k.2).foldl (fun n k => min n k.2.number) s.count

def Layout.firstTokens (s : Layout) (count : Nat) : List Token :=
  let openers := s.openers.foldl (fun table (n, ts) => table.setIfInBounds n ts)
    (Array.replicate s.count [])
  ((openers.toList.zip s.tokens.reverse).take count).flatMap fun (opening, t) => opening ++ [t]

/-- The tokens of a text; the last one is a `stop`. Where a text breaks off, a token that may still
turn out to be a key is not handed on. -/
def Token.ofText (cs : List Char) : List Token :=
  if !cs.all isAllowed then [.stop (some .malformed)]
  else match Layout.run (cs.length + 1) (.start cs) with
    | (s, none) => s.firstTokens s.count ++ [.stop none]
    | (s, some fault) => s.firstTokens s.settled ++ [.stop (some fault)]

end ApiTypes.Yaml
