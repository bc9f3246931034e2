import ApiTypes.Text.Blank
import ApiTypes.Text.Line

/-!
# Prose

Descriptions and comments. `oneLine` brings a description of any shape to one line of plain text;
`blockComment` writes lines of text as a comment that ends only where it is closed.
-/

namespace ApiTypes.Prose

/-! ## Descriptions -/

/-- Removes tags. A tag is `<`, at least one character other than `>`, and the next `>`, or the end
of the text where there is none. The flag tells whether a tag is open. -/
def stripTags : Bool → List Char → List Char
  | _, [] => []
  | true, c :: cs => stripTags (c != '>') cs
  | false, '<' :: c :: cs =>
    if c == '>' then '<' :: '>' :: stripTags false cs else stripTags true cs
  | false, c :: cs => c :: stripTags false cs

def joinLines (cs : List Char) : List Char :=
  let lines := (Text.pieces Text.isLineEnd cs).map Text.trim
  [' '].intercalate (lines.filter (! ·.isEmpty))

def oneLine (s : String) : String := String.ofList (joinLines (stripTags false s.toList))

def oneLine? (s : Option String) : Option String :=
  match s with
  | none => none
  | some s => if s.isEmpty then none else some (oneLine s)

/-! ## Comments -/

def guardClose : List Char → List Char
  | [] => []
  | '*' :: '/' :: cs => '*' :: '\\' :: '/' :: guardClose cs
  | c :: cs => c :: guardClose cs

def commentLines (lead : String) (entries : List String) : List String :=
  entries.flatMap fun entry =>
    (Text.pieces (· == '\n') entry.toList).map fun line =>
      lead ++ String.ofList (guardClose line)

def blockComment (entries : List String) (lead : String) : String :=
  String.intercalate "\n" ("/**" :: commentLines lead entries ++ [" */"])

def commentLead : String := " * "

def lineComment (s : String) : String := "/** " ++ oneLine s ++ " */\n"

end ApiTypes.Prose
