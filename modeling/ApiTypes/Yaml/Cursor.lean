import ApiTypes.Yaml.Fault

/-!
# A place in a YAML text

A cursor knows the rest of the text and where it stands in it. Lines and columns count from 0.
-/

namespace ApiTypes.Yaml

/-! ## Characters -/

def isBreak (c : Char) : Bool :=
  c == '\n' || c == '\r' || c == '\x85' || c == '\u2028' || c == '\u2029'

def isGap (c : Char) : Bool := c == ' ' || c == '\t' || isBreak c

def endsLine (c : Option Char) : Bool := c.all isBreak

def endsWord (c : Option Char) : Bool := c.all isGap

def endsHead (c : Option Char) : Bool := c.all fun c => c == ' ' || isBreak c

def isNameChar (c : Char) : Bool := c.isAlphanum || c == '-' || c == '_'

def isAllowed (c : Char) : Bool :=
  let n := c.toNat
  n == 9 || n == 10 || n == 13 || (0x20 ≤ n && n ≤ 0x7E) || n == 0x85 ||
    (0xA0 ≤ n && n ≤ 0xD7FF) || (0xE000 ≤ n && n ≤ 0xFFFD) || 0x10000 ≤ n

def joinPieces (pieces : List (List Char)) : String := String.ofList pieces.reverse.flatten

/-! ## Cursors -/

/-- A place in a text of `size` characters, `index` of which are before it. -/
structure Cursor where
  size : Nat
  rest : List Char
  index : Nat
  line : Nat
  column : Nat

namespace Cursor

def start (cs : List Char) : Cursor := ⟨cs.length, cs, 0, 0, 0⟩

def peek (c : Cursor) : Option Char := c.rest.head?

def peekAt (c : Cursor) (n : Nat) : Option Char := c.rest[n]?

def sees (c : Cursor) (ch : Char) : Bool := c.peek == some ch

/-- Moves behind the next character. A byte order mark takes no column. -/
def next (c : Cursor) : Cursor :=
  match c.rest with
  | [] => c
  | ch :: rest =>
    let ended := isBreak ch && !(ch == '\r' && rest.head? == some '\n')
    { c with
      rest := rest
      index := c.index + 1
      line := if ended then c.line + 1 else c.line
      column := if ended then 0 else if ch == '\uFEFF' then c.column else c.column + 1 }

def skip (c : Cursor) (n : Nat) : Cursor := Nat.repeat next n c

def span (c : Cursor) (p : Char → Bool) : List Char × Cursor :=
  let run := c.rest.takeWhile p
  (run, c.skip run.length)

def skipWhile (c : Cursor) (p : Char → Bool) : Cursor := (c.span p).2

/-- Takes one break, which is a line feed unless it separates lines or paragraphs. -/
def takeBreak (c : Cursor) : List Char × Cursor :=
  match c.rest with
  | '\r' :: '\n' :: _ => (['\n'], c.skip 2)
  | ch :: _ =>
    if ch == '\u2028' || ch == '\u2029' then ([ch], c.next)
    else if isBreak ch then (['\n'], c.next)
    else ([], c)
  | [] => ([], c)

def seesSeparator (c : Cursor) (mark : Char) : Bool :=
  c.rest.take 3 == [mark, mark, mark] && endsWord (c.peekAt 3)

def seesAnySeparator (c : Cursor) : Bool := c.seesSeparator '-' || c.seesSeparator '.'

/-- Repeats a step until it gives nothing. Each step but the last takes a character, so there are
at most `steps` of them. -/
def repeatStep {σ : Type} (step : σ → Cursor → Except Fault (Option (σ × Cursor))) :
    Nat → σ → Cursor → Except Fault (σ × Cursor)
  | 0, s, c => .ok (s, c)
  | steps + 1, s, c => do
    match ← step s c with
    | none => return (s, c)
    | some (s', c') => repeatStep step steps s' c'

def iterate {σ : Type} (c : Cursor) (s : σ)
    (step : σ → Cursor → Except Fault (Option (σ × Cursor))) : Except Fault (σ × Cursor) :=
  repeatStep step (c.size - c.index + 1) s c

def finishLine (c : Cursor) : Except Fault Cursor :=
  let c := c.skipWhile (· == ' ')
  let c := if c.sees '#' then c.skipWhile (!isBreak ·) else c
  if endsLine c.peek then .ok c.takeBreak.2 else .error .malformed

end Cursor

end ApiTypes.Yaml
