import FluentBuilders.Source.File
import FluentBuilders.Report
import FluentBuilders.Json.Reader
import FluentBuilders.Json.Printer
import FluentBuilders.Number.Duration
import FluentBuilders.Resolve.Extraction
import FluentBuilders.Builder.Check
import FluentBuilders.Builder.Live
import FluentBuilders.Builder.Render
import FluentBuilders.Builder.Synthesis
import FluentBuilders.Config.Save
import FluentBuilders.Main
import FluentBuilders.Proofs.Source.Contents
import FluentBuilders.Proofs.Syntax.Lexeme
import FluentBuilders.Proofs.Resolve.UnionFlag
import FluentBuilders.Proofs.Source.Items
import FluentBuilders.Proofs.Source.Parameters
import FluentBuilders.Proofs.Syntax.RoundTrip
import FluentBuilders.Proofs.Resolve.Reachability
import FluentBuilders.Proofs.Resolve.Alike
import FluentBuilders.Proofs.Resolve.Instantiation
import FluentBuilders.Proofs.Resolve.Termination
import FluentBuilders.Proofs.Source.LineBreaks
import FluentBuilders.Proofs.Source.Declarations
import FluentBuilders.Proofs.Source.Imports
import FluentBuilders.Proofs.Source.Statements
import FluentBuilders.Proofs.Source.Files
import FluentBuilders.Proofs.Builder.Methods
import FluentBuilders.Proofs.Resolve.Locality
import FluentBuilders.Proofs.Resolve.Inheritance
import FluentBuilders.Proofs.Source.Chunks
import FluentBuilders.Proofs.Source.ObjectBody
import FluentBuilders.Proofs.Builder.LastWrite
import FluentBuilders.Proofs.Builder.Plan
import FluentBuilders.Proofs.Config.SaveLoad
import FluentBuilders.Proofs.Generation.Writing
import FluentBuilders.Proofs.Builder.FieldAccess
import FluentBuilders.Proofs.Resolve.Composition
import FluentBuilders.Proofs.Builder.References
import FluentBuilders.Proofs.Builder.Alternatives
import FluentBuilders.Proofs.Source.Progress
import FluentBuilders.Proofs.Source.Splitting
import FluentBuilders.Proofs.Source.Comments
import FluentBuilders.Proofs.Resolve.ReadBack
