import Pgify.Proofs.Attributes
import Pgify.Proofs.Backquotes
import Pgify.Proofs.CaseFolding
import Pgify.Proofs.ColumnOptions
import Pgify.Proofs.Concat
import Pgify.Proofs.Conservation
import Pgify.Proofs.Containment
import Pgify.Proofs.DoublePrecision
import Pgify.Proofs.DumpScript
import Pgify.Proofs.EnumSet
import Pgify.Proofs.Escapes
import Pgify.Proofs.FirstToken
import Pgify.Proofs.FunctionIf
import Pgify.Proofs.Fusion
import Pgify.Proofs.GeneratedNames
import Pgify.Proofs.Handing
import Pgify.Proofs.HiddenText
import Pgify.Proofs.History
import Pgify.Proofs.IfnullCasts
import Pgify.Proofs.IndexColumns
import Pgify.Proofs.Layout
import Pgify.Proofs.LetterCase
import Pgify.Proofs.LexicalGrammar
import Pgify.Proofs.LockTables
import Pgify.Proofs.Names
import Pgify.Proofs.OnUpdate
import Pgify.Proofs.Pieces
import Pgify.Proofs.Program
import Pgify.Proofs.ReadBack
import Pgify.Proofs.Renderings
import Pgify.Proofs.Reproduction
import Pgify.Proofs.SchemaFilter
import Pgify.Proofs.Separators
import Pgify.Proofs.Splices
import Pgify.Proofs.StartRule
import Pgify.Proofs.StringLiteral
