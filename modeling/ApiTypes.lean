import ApiTypes.CommandLine.Outcome
import ApiTypes.Main
import ApiTypes.Proofs.Groups
import ApiTypes.Proofs.Lexeme
import ApiTypes.Proofs.Number
import ApiTypes.Proofs.TypeTree
import ApiTypes.Proofs.Expression
import ApiTypes.Proofs.Literal
import ApiTypes.Proofs.Validator
import ApiTypes.Proofs.Mapping
import ApiTypes.Proofs.Lookup
import ApiTypes.Proofs.Declarations
import ApiTypes.Proofs.Comment
import ApiTypes.Proofs.TypeSyntax
import ApiTypes.Proofs.Declared
import ApiTypes.Proofs.Accepts
import ApiTypes.Proofs.Meaning
import ApiTypes.Proofs.Balanced
import ApiTypes.Proofs.Delimited
import ApiTypes.Proofs.JsonSchema
import ApiTypes.Proofs.Closing
import ApiTypes.Proofs.Collected
import ApiTypes.Proofs.ComponentNames
import ApiTypes.Proofs.JsonText
import ApiTypes.Proofs.Keyed
import ApiTypes.Proofs.Malformed
import ApiTypes.Proofs.Mentions
import ApiTypes.Proofs.ModuleMentions
import ApiTypes.Proofs.Nullable
import ApiTypes.Proofs.Clashes
import ApiTypes.Proofs.DeclaredNames
import ApiTypes.Proofs.IdClashes
import ApiTypes.Proofs.Inside
import ApiTypes.Proofs.OperationNames
import ApiTypes.Proofs.ParameterKeys
import ApiTypes.Proofs.Quoted
import ApiTypes.Proofs.Resolution
import ApiTypes.Proofs.Run
import ApiTypes.Proofs.Signatures
import ApiTypes.Proofs.TextKeys
import ApiTypes.Proofs.TypeMentions
import ApiTypes.Proofs.WrittenOperations
import ApiTypes.Proofs.LegalNames
import ApiTypes.Proofs.Cycles
import ApiTypes.Proofs.ParameterReferences
import ApiTypes.Proofs.Outcomes
import ApiTypes.Proofs.JsonDigits
import ApiTypes.Proofs.Utf8
import ApiTypes.Proofs.Filling
import ApiTypes.Proofs.YamlScalars
import ApiTypes.Proofs.Loading
import ApiTypes.Proofs.Brackets
import ApiTypes.Proofs.Glyphs
import ApiTypes.Proofs.Problems
import ApiTypes.Proofs.Layers
import ApiTypes.Proofs.Height
import ApiTypes.Proofs.Unfolding
import ApiTypes.Proofs.ClosedTypes
import ApiTypes.Proofs.Unguarded
import ApiTypes.Proofs.Placed
import ApiTypes.Proofs.ComponentOrder
import ApiTypes.Proofs.Overriding
import ApiTypes.Proofs.Occurrences
import ApiTypes.Proofs.Laziness
import ApiTypes.Proofs.Rounding
import ApiTypes.Proofs.ShortestDecimal
import ApiTypes.Proofs.NumberText
import ApiTypes.Proofs.FloatText
import ApiTypes.Proofs.NormalForm
import ApiTypes.Proofs.ReadBack
import ApiTypes.Proofs.Words
import ApiTypes.Proofs.MadeIds
import ApiTypes.Proofs.OneLine
import ApiTypes.Proofs.Keeping
import ApiTypes.Proofs.RequiredNames
import ApiTypes.Proofs.BlockComment
import ApiTypes.Proofs.Image
import ApiTypes.Proofs.ValidatorReferences
import ApiTypes.Proofs.ResponseTypes
