/-!
# Delimiters

`Delimiter.problems` reports the brackets of a module that do not match, outside string literals
and comments, and a string literal left open. The text is read one character at a time.
-/

namespace ApiTypes.Delimiter

inductive Problem
  | unexpected (bracket : Char) (line : Nat)
  | unterminated (quote : Char)
  | unclosed (bracket : Char) (line : Nat)
  deriving Repr, DecidableEq

def Problem.message : Problem → String
  | .unexpected c line => "Unexpected '" ++ c.toString ++ "' (line " ++ toString line ++ ")"
  | .unterminated q => "Unterminated string literal (quote " ++ q.toString ++ ")"
  | .unclosed c line => "Unclosed '" ++ c.toString ++ "' (line " ++ toString line ++ ")"

inductive Mode
  | code
  /-- In code, behind a slash that may open a comment. -/
  | slash
  | literal (quote : Char)
  /-- In a literal, behind a backslash. -/
  | escape (quote : Char)
  | lineComment
  | blockComment
  /-- In a block comment, behind an asterisk that may close it. -/
  | asterisk
  deriving Repr, DecidableEq

/-- The open brackets are innermost first, the problems last first. -/
structure State where
  mode : Mode
  line : Nat
  openings : List (Char × Nat)
  found : List Problem
  deriving Repr, DecidableEq

def start : State := ⟨.code, 1, [], []⟩

def isOpening (c : Char) : Bool := c == '(' || c == '[' || c == '{'

def isQuote (c : Char) : Bool := c == '\'' || c == '"' || c == '\x60'

def partner? (c : Char) : Option Char :=
  if c == ')' then some '(' else if c == ']' then some '[' else if c == '}' then some '{' else none

def modeInCode (c : Char) : Mode :=
  if c == '/' then .slash else if isQuote c then .literal c else .code

def modeAfter (mode : Mode) (c : Char) : Mode :=
  match mode with
  | .code => modeInCode c
  | .slash => if c == '*' then .blockComment else if c == '/' then .lineComment else modeInCode c
  | .literal q => if c == '\\' then .escape q else if c == q then .code else mode
  | .escape q => .literal q
  | .lineComment => if c == '\n' then .code else mode
  | .blockComment => if c == '*' then .asterisk else mode
  | .asterisk => if c == '/' then .code else if c == '*' then mode else .blockComment

def Mode.inCode : Mode → Bool
  | .code | .slash => true
  | _ => false

/-- A line feed behind a backslash in a literal does not count as the end of a line. -/
def lineAfter (s : State) (c : Char) : Nat :=
  match s.mode with
  | .escape _ => s.line
  | _ => if c == '\n' then s.line + 1 else s.line

def bracket (s : State) (c : Char) : State :=
  if isOpening c then { s with openings := (c, s.line) :: s.openings }
  else match partner? c, s.openings with
    | none, _ => s
    | some o, (top, line) :: below =>
      if top == o then { s with openings := below }
      else { s with openings := (top, line) :: below, found := .unexpected c s.line :: s.found }
    | some _, [] => { s with found := .unexpected c s.line :: s.found }

def step (s : State) (c : Char) : State :=
  let next := if s.mode.inCode then bracket s c else s
  { next with mode := modeAfter s.mode c, line := lineAfter s c }

def State.unfinished (s : State) : List Problem :=
  (match s.mode with
    | .literal q | .escape q => [.unterminated q]
    | _ => []) ++
  s.openings.reverse.map fun (c, line) => .unclosed c line

def problems (text : String) : List Problem :=
  let s := text.toList.foldl step start
  s.found.reverse ++ s.unfinished

end ApiTypes.Delimiter
