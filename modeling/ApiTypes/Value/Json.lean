import ApiTypes.Value.Inspect

/-!
# Values as JSON

`Value.json` writes a closed value on one line. What JSON has no form for becomes the text that
messages show. `Value.jsonFault?` finds the first part with no written form at all.
-/

namespace ApiTypes

namespace Scalar

def json : Scalar → String
  | null => "null"
  | bool b => if b then "true" else "false"
  | int n => toString n
  | float x => Decimal.floatText "Infinity" x
  | nan _ => "NaN"
  | text s => Text.quoted s
  | s => Text.quoted s.display

def jsonKey : Scalar → String
  | text s => Text.quoted s
  | s => Text.quoted s.json

def keyFault? : Scalar → Option WriteFault
  | date _ => some (.keyKind "datetime.date")
  | dateTime _ => some (.keyKind "datetime.datetime")
  | bytes _ => some (.keyKind "bytes")
  | s => s.fault?

end Scalar

namespace Value

mutual

def json : Value → String
  | scalar s => s.json
  | seq items | tuple items => bracketed "[" "]" (jsonItems items)
  | map entries => bracketed "\x7b" "\x7d" (jsonEntries entries)
  | set members => Text.quoted (set members).inspect
  | link _ => "null"

def jsonItems : List Value → List String
  | [] => []
  | v :: vs => json v :: jsonItems vs

def jsonEntries : List (Scalar × Value) → List String
  | [] => []
  | (k, v) :: rest => (k.jsonKey ++ ": " ++ json v) :: jsonEntries rest

end

mutual

def jsonFault? : Value → Option WriteFault
  | scalar s => s.fault?
  | seq items | tuple items => jsonItemsFault? items
  | map entries => jsonEntriesFault? entries
  | set members => (set members).fault?
  | link _ => some .cycle

def jsonItemsFault? : List Value → Option WriteFault
  | [] => none
  | v :: vs => jsonFault? v <|> jsonItemsFault? vs

def jsonEntriesFault? : List (Scalar × Value) → Option WriteFault
  | [] => none
  | (k, v) :: rest => k.keyFault? <|> jsonFault? v <|> jsonEntriesFault? rest

end

end Value

end ApiTypes
