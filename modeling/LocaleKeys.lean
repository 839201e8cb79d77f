import LocaleKeys.Main
import LocaleKeys.Proofs.Branch
import LocaleKeys.Proofs.Candidate
import LocaleKeys.Proofs.Flattening
import LocaleKeys.Proofs.Grouping
import LocaleKeys.Proofs.Growth
import LocaleKeys.Proofs.History
import LocaleKeys.Proofs.Independence
import LocaleKeys.Proofs.Lossless
import LocaleKeys.Proofs.Members
import LocaleKeys.Proofs.Nesting
import LocaleKeys.Proofs.Numbering
import LocaleKeys.Proofs.Overlap
import LocaleKeys.Proofs.Placement
import LocaleKeys.Proofs.Progress
import LocaleKeys.Proofs.Reading
import LocaleKeys.Proofs.RoundTrip
import LocaleKeys.Proofs.Segments
import LocaleKeys.Proofs.Stability
import LocaleKeys.Proofs.Table
import LocaleKeys.Proofs.FileSystem
import LocaleKeys.Proofs.Path
import LocaleKeys.Proofs.Lineage
import LocaleKeys.Proofs.Boundary
import LocaleKeys.Proofs.Storing
import LocaleKeys.Proofs.Program
import LocaleKeys.Proofs.TableFile
import LocaleKeys.Proofs.Context
import LocaleKeys.Proofs.Arguments
import LocaleKeys.Proofs.CommandLine
import LocaleKeys.Proofs.Commands
import LocaleKeys.Proofs.Runs
import LocaleKeys.Proofs.Limit
import LocaleKeys.Proofs.Depth
import LocaleKeys.Proofs.Exporting
import LocaleKeys.Proofs.Loading
import LocaleKeys.Proofs.Contents
import LocaleKeys.Proofs.Looking
import LocaleKeys.Proofs.DryRun
import LocaleKeys.Proofs.FirstFit
import LocaleKeys.Proofs.Remaining
import LocaleKeys.Proofs.LeafOrder
import LocaleKeys.Proofs.Outline
import LocaleKeys.Proofs.Detection
import LocaleKeys.Proofs.Regrouping
import LocaleKeys.Proofs.Confinement
import LocaleKeys.Proofs.SourceFile
import LocaleKeys.Proofs.Spelling
import LocaleKeys.Proofs.LetterRuns
import LocaleKeys.Proofs.Roles
import LocaleKeys.Proofs.Directories
