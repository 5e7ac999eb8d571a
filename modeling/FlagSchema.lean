import FlagSchema.Text.Blank
import FlagSchema.Text.Quoted
import FlagSchema.Text.Numeral
import FlagSchema.Source
import FlagSchema.Decimal.Layout
import FlagSchema.Scalar
import FlagSchema.Token.Scan
import FlagSchema.Error
import FlagSchema.Lowering.Schema
import FlagSchema.Report.Json
import FlagSchema.Code.Generate
import FlagSchema.Hart.Session
import FlagSchema.Main
import FlagSchema.Proofs.FieldTypes
import FlagSchema.Proofs.Texts
import FlagSchema.Proofs.Emission
import FlagSchema.Proofs.Paths
import FlagSchema.Proofs.Accessors
import FlagSchema.Proofs.Significance
import FlagSchema.Proofs.Documents
import FlagSchema.Proofs.Gists
import FlagSchema.Proofs.Tiling
import FlagSchema.Proofs.Offences
import FlagSchema.Proofs.Printing
import FlagSchema.Proofs.Spelling
import FlagSchema.Proofs.Recovery
import FlagSchema.Proofs.ReadingBack
import FlagSchema.Proofs.Inversion
import FlagSchema.Proofs.Numbering
import FlagSchema.Proofs.Generation
import FlagSchema.Proofs.Reordering
import FlagSchema.Proofs.Resolution
import FlagSchema.Proofs.Traversals
import FlagSchema.Proofs.Braces
import FlagSchema.Proofs.FlagDefaults
import FlagSchema.Proofs.FlagValues
import FlagSchema.Proofs.Spans
import FlagSchema.Proofs.Integers
import FlagSchema.Proofs.Insertions
import FlagSchema.Proofs.Calls
import FlagSchema.Proofs.Readable
import FlagSchema.Proofs.Bounds
