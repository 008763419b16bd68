import Loon.Analysis
import Loon.Data.Json
import Loon.Data.Yaml
import Loon.Proofs.DefinitionOrder
import Loon.Proofs.Evaluated
import Loon.Proofs.Grammar
import Loon.Proofs.MergeOrder
import Loon.Proofs.Resolution.Transparency
import Loon.Proofs.Visibility
import Loon.Proofs.Dependence
import Loon.Proofs.Tree
import Loon.Proofs.RoundTrip
import Loon.Proofs.Reading.InPlace
import Loon.Proofs.FailingLine
import Loon.Proofs.Addressable
import Loon.Proofs.ErrorPlaces
import Loon.Proofs.ImportCycles
import Loon.Proofs.Injection
import Loon.Proofs.MovedBlocks
import Loon.Proofs.Reuse
import Loon.Proofs.SpaceRegistry
import Loon.Proofs.NestedImports
import Loon.Proofs.Layout
import Loon.Proofs.Blocks
import Loon.Proofs.SuccessiveImports
import Loon.Proofs.Resolution.Lookup
import Loon.Proofs.Resolution.InPlace
import Loon.Proofs.Resolution.Ranks
import Loon.Proofs.Resolution.Spelling
import Loon.Proofs.SpaceHistory
import Loon.Proofs.SignificantLines
import Loon.Proofs.NormalForm
import Loon.Proofs.Number.Nearest
import Loon.Proofs.Number.Numeral
import Loon.Proofs.Tokens
import Loon.Proofs.NumberTokens
import Loon.Proofs.Data
import Loon.Proofs.Warnings
