import PhpGraft.Declaration.Accessors
import PhpGraft.Model.Literal.Reader
import PhpGraft.Output.FileStore
import PhpGraft.Text.Naming
import PhpGraft.Proofs.Tree
import PhpGraft.Proofs.Graft.Change
import PhpGraft.Proofs.Graft.Growth
import PhpGraft.Proofs.Graft.Run
import PhpGraft.Proofs.Graft.Conservation
import PhpGraft.Proofs.Model.Name
import PhpGraft.Proofs.Graft.Settled
import PhpGraft.Proofs.Graft.Stages
import PhpGraft.Proofs.Graft.Idempotence
import PhpGraft.Proofs.Graft.Slots
import PhpGraft.Proofs.Graft.Filling
import PhpGraft.Proofs.Graft.Realization
import PhpGraft.Proofs.Syntax.Lexing
import PhpGraft.Proofs.Decimal.Numeral
import PhpGraft.Proofs.Syntax.Words
import PhpGraft.Proofs.Syntax.Literal
import PhpGraft.Proofs.Syntax.Reading
import PhpGraft.Proofs.Syntax.Pieces
import PhpGraft.Proofs.Syntax.Members
import PhpGraft.Proofs.Syntax.Items
import PhpGraft.Proofs.Syntax.Statements
import PhpGraft.Proofs.Syntax.Headers
import PhpGraft.Proofs.Syntax.DocComments
import PhpGraft.Proofs.Model.DocBlock
import PhpGraft.Proofs.Syntax.Reflowing
import PhpGraft.Proofs.Syntax.Dedenting
import PhpGraft.Proofs.Syntax.Multiline
import PhpGraft.Proofs.Syntax.Bodies
import PhpGraft.Proofs.Syntax.Blocks
import PhpGraft.Proofs.Syntax.Printing
import PhpGraft.Proofs.Syntax.Cutting
import PhpGraft.Proofs.Syntax.Continuing
import PhpGraft.Proofs.Syntax.Framing
import PhpGraft.Proofs.Syntax.Heredocs
import PhpGraft.Proofs.Syntax.Locality
import PhpGraft.Proofs.Syntax.Stops
import PhpGraft.Proofs.Syntax.Captures
import PhpGraft.Proofs.Graft.Outcome
import PhpGraft.Proofs.Graft.Increment
import PhpGraft.Proofs.Graft.Layout
import PhpGraft.Proofs.Declaration.Recovered
import PhpGraft.Proofs.Syntax.Captured
import PhpGraft.Proofs.Syntax.Safety
import PhpGraft.Proofs.Output.Generation
import PhpGraft.Proofs.Graft.Lines
import PhpGraft.Proofs.Graft.Marker
import PhpGraft.Proofs.Syntax.Attaching
import PhpGraft.Proofs.Syntax.Adjoining
import PhpGraft.Proofs.Decimal.Written
import PhpGraft.Proofs.Syntax.Rereading
import PhpGraft.Proofs.Syntax.Numerals
import PhpGraft.Proofs.Syntax.Regenerating
import PhpGraft.Proofs.Syntax.Lossless
import PhpGraft.Proofs.Syntax.Values
import PhpGraft.Proofs.Model.Members
import PhpGraft.Proofs.Syntax.HeredocLines
import PhpGraft.Proofs.Model.TypeGrammar
import PhpGraft.Proofs.Graft.Prepending
import PhpGraft.Proofs.Declaration.Enclosing
import PhpGraft.Proofs.Declaration.Accessors
import PhpGraft.Proofs.Output.Batch
import PhpGraft.Proofs.Output.Resolution
import PhpGraft.Proofs.Output.PrefixGrammar
import PhpGraft.Proofs.Config.KeyPlace
import PhpGraft.Proofs.Graft.Interfaces
import PhpGraft.Proofs.Syntax.StoredDocs
import PhpGraft.Proofs.Graft.Fresh
import PhpGraft.Proofs.Model.PrintedMembers
import PhpGraft.Proofs.Output.RoundTrip
