import ApiTypes.Yaml.Cursor

/-!
# Block texts

A text in lines of its own behind `|`, which keeps the breaks, or `>`, which folds them. A sign
tells what becomes of the breaks at its end, and a digit how far it is indented.
-/

namespace ApiTypes.Yaml.BlockText

inductive Chomping
  | strip
  | clip
  | keep
  deriving Repr, DecidableEq

/-- The mark behind the first character: a sign, a digit, or both in either order. -/
structure Header where
  chomping : Chomping
  increment : Option Nat

def readSign (c : Cursor) : Chomping × Cursor :=
  if c.sees '+' then (.keep, c.next) else if c.sees '-' then (.strip, c.next) else (.clip, c)

def readIncrement (c : Cursor) : Except Fault (Option Nat × Cursor) :=
  match c.peek with
  | some ch =>
    if ch == '0' then .error .malformed
    else if ch.isDigit then .ok (some (ch.toNat - '0'.toNat), c.next)
    else .ok (none, c)
  | none => .ok (none, c)

def readHeader (c : Cursor) : Except Fault (Header × Cursor) := do
  let (sign, c) := readSign c
  let (increment, c) ← readIncrement c
  let (sign, c) := if sign == .clip then readSign c else (sign, c)
  if endsHead c.peek then return (⟨sign, increment⟩, c) else throw .malformed

def leadingBreaks (c : Cursor) : Except Fault ((List Char × Nat) × Cursor) :=
  c.iterate ([], 0) fun (found, greatest) c =>
    if c.sees ' ' then .ok (some ((found, max greatest c.next.column), c.next))
    else if c.peek.any isBreak then
      let (b, c) := c.takeBreak
      .ok (some ((found ++ b, greatest), c))
    else .ok none

def indentTo (column : Nat) (c : Cursor) : Cursor :=
  c.skip ((c.rest.take (column - c.column)).takeWhile (· == ' ')).length

def emptyLines (indent : Nat) (c : Cursor) : Except Fault (List Char × Cursor) :=
  (indentTo indent c).iterate [] fun found c =>
    if c.peek.any isBreak then
      let (b, c) := c.takeBreak
      .ok (some (found ++ b, indentTo indent c))
    else .ok none

/-- The pieces read so far, the last one first, with the break behind the last line and the empty
lines behind it. -/
structure Lines where
  pieces : List (List Char)
  lineBreak : List Char
  empty : List Char

def continues (indent : Nat) (c : Cursor) : Bool := c.column == indent && c.peek.isSome

def isInset (c : Option Char) : Bool := c == some ' ' || c == some '\t'

def joint (folded : Bool) (inset : Bool) (next : Option Char) (lineBreak empty : List Char) :
    List Char :=
  if folded && lineBreak == ['\n'] && !inset && !isInset next then
    if empty.isEmpty then [' '] else []
  else lineBreak

def read (folded : Bool) (outer : Int) (c : Cursor) : Except Fault (String × Cursor) := do
  let (header, c) ← readHeader c.next
  let c ← c.finishLine
  let least := (max (outer + 1) 1).toNat
  let (indent, empty, c) ← match header.increment with
    | some n => do
      let indent := least + n - 1
      let (empty, c) ← emptyLines indent c
      pure (indent, empty, c)
    | none => do
      let ((empty, greatest), c) ← leadingBreaks c
      pure (max least greatest, empty, c)
  let (lines, c) ← c.iterate (⟨[], [], empty⟩ : Lines) fun lines c => do
    if !continues indent c then return none
    let inset := isInset c.peek
    let (line, c) := c.span (!isBreak ·)
    let (lineBreak, c) := c.takeBreak
    let (empty, c) ← emptyLines indent c
    let joint :=
      if continues indent c then joint folded inset c.peek lineBreak empty else []
    return some (⟨joint :: line :: lines.empty :: lines.pieces, lineBreak, empty⟩, c)
  let ending := match header.chomping with
    | .strip => []
    | .clip => lines.lineBreak
    | .keep => lines.lineBreak ++ lines.empty
  return (joinPieces (ending :: lines.pieces), c)

end ApiTypes.Yaml.BlockText
