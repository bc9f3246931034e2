import ApiTypes.Yaml.Cursor

/-!
# Plain texts

A text without quotes ends before a colon or a comment, before what has a meaning in a flow
collection, and in a block where a line is indented less. Lines are folded.
-/

namespace ApiTypes.Yaml.PlainText

def run (inFlow : Bool) : List Char → List Char
  | [] => []
  | c :: cs =>
    let ends := isGap c ||
      (c == ':' && (endsWord cs.head? || (inFlow && cs.head?.any ",[]\x7b\x7d".toList.contains))) ||
      (inFlow && ",?[]\x7b\x7d".toList.contains c)
    if ends then [] else c :: run inFlow cs

/-- What breaks between two parts of a text are folded to: one line feed is a space, and of more
the first is dropped. -/
def folded (first : List Char) (more : List Char) : List Char :=
  if first != ['\n'] then first ++ more else if more.isEmpty then [' '] else more

def breaks (c : Cursor) : Except Fault ((List Char × Bool) × Cursor) :=
  c.iterate ([], c.seesAnySeparator) fun (found, separated) c =>
    if separated then .ok none
    else if c.sees ' ' then .ok (some ((found, false), c.next))
    else if c.peek.any isBreak then
      let (b, c) := c.takeBreak
      .ok (some ((found ++ b, c.seesAnySeparator), c))
    else .ok none

def gap (c : Cursor) : Except Fault (List Char × Bool × Cursor) := do
  let (spaces, c) := c.span (· == ' ')
  if c.peek.any isBreak then
    let (first, c) := c.takeBreak
    let ((more, separated), c) ← breaks c
    return (if separated then [] else folded first more, true, c)
  else return (spaces, false, c)

structure Part where
  pieces : List (List Char)
  gap : List Char
  newLine : Bool
  done : Bool

/-- Reads a plain text in a block indented by `indent`, and tells whether a line ended behind its
last part. -/
def read (inFlow : Bool) (indent : Int) (c : Cursor) : Except Fault (String × Bool × Cursor) := do
  let (part, c) ← c.iterate (⟨[], [], false, false⟩ : Part) fun part c => do
    if part.done || c.sees '#' then return none
    let cs := run inFlow c.rest
    if cs.isEmpty then return none
    let pieces := cs :: part.gap :: part.pieces
    let (gap, newLine, c) ← gap (c.skip cs.length)
    let outside := !inFlow && (c.column : Int) < indent + 1
    return some (⟨pieces, gap, newLine, gap.isEmpty || outside⟩, c)
  return (joinPieces part.pieces, part.newLine, c)

end ApiTypes.Yaml.PlainText
