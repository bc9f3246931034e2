import ApiTypes.Yaml.PlainText
import ApiTypes.Text.Digit

/-!
# Quoted texts

Between single quotes only the quote itself is written twice; between double quotes a backslash
starts an escape. Lines are folded in both.
-/

namespace ApiTypes.Yaml.QuotedText

def escapes : List (Char × Char) :=
  [('0', '\x00'), ('a', '\x07'), ('b', '\x08'), ('t', '\t'), ('\t', '\t'), ('n', '\n'),
    ('v', '\x0b'), ('f', '\x0c'), ('r', '\r'), ('e', '\x1b'), (' ', ' '), ('"', '"'),
    ('\\', '\\'), ('/', '/'), ('N', '\x85'), ('_', '\xa0'), ('L', '\u2028'), ('P', '\u2029')]

def codeLength? (c : Char) : Option Nat :=
  if c == 'x' then some 2 else if c == 'u' then some 4 else if c == 'U' then some 8 else none

def readCode (digits : Nat) (c : Cursor) : Except Fault (Char × Cursor) := do
  let values := (c.rest.take digits).filterMap Text.hexValue?
  if values.length != digits then throw .malformed
  let n := values.foldl (fun n d => 16 * n + d) 0
  if Nat.pow 2 31 ≤ n then throw (.scalar .size)
  if 0x110000 ≤ n then throw (.scalar .form)
  return (if 0xD800 ≤ n && n < 0xE000 then '\uFFFD' else Char.ofNat n, c.skip digits)

def breaks (c : Cursor) : Except Fault (List Char × Cursor) :=
  let trim (c : Cursor) : Except Fault Cursor :=
    if c.seesAnySeparator then .error .malformed
    else .ok (c.skipWhile fun ch => ch == ' ' || ch == '\t')
  do
    let c ← trim c
    c.iterate [] fun found c => do
      if c.peek.any isBreak then
        let (b, c) := c.takeBreak
        return some (found ++ b, ← trim c)
      else return none

def readEscape (c : Cursor) : Except Fault (List Char × Cursor) := do
  match c.peek with
  | none => throw .malformed
  | some ch =>
    match escapes.lookup ch, codeLength? ch with
    | some e, _ => return ([e], c.next)
    | none, some digits =>
      let (e, c) ← readCode digits c.next
      return ([e], c)
    | none, none => if isBreak ch then breaks c.takeBreak.2 else throw .malformed

def read (quote : Char) (c : Cursor) : Except Fault (String × Cursor) := do
  let double := quote == '"'
  let (pieces, c) ← c.next.iterate ([] : List (List Char)) fun pieces c => do
    match c.peek with
    | none => throw .malformed
    | some ch =>
      if ch == quote then
        if !double && c.peekAt 1 == some quote then return some ([quote] :: pieces, c.skip 2)
        else return none
      else if double && ch == '\\' then
        let (cs, c) ← readEscape c.next
        return some (cs :: pieces, c)
      else if isGap ch then
        let (spaces, c) := c.span fun ch => ch == ' ' || ch == '\t'
        match c.peek with
        | none => throw .malformed
        | some ch =>
          if isBreak ch then
            let (first, c) := c.takeBreak
            let (more, c) ← breaks c
            return some (PlainText.folded first more :: pieces, c)
          else return some (spaces :: pieces, c)
      else
        let (cs, c) := c.span fun ch => !isGap ch && ch != quote && !(double && ch == '\\')
        return some (cs :: pieces, c)
  return (joinPieces pieces, c.next)

end ApiTypes.Yaml.QuotedText
