import ImportWatch.Main
import ImportWatch.Proofs.Nested
import ImportWatch.Proofs.CrossProduct
import ImportWatch.Proofs.OneLine
import ImportWatch.Proofs.StrayBraces
import ImportWatch.Proofs.Concatenation
import ImportWatch.Proofs.Agreement
import ImportWatch.Proofs.Spans
import ImportWatch.Proofs.Reproduction
import ImportWatch.Proofs.Schedule
import ImportWatch.Proofs.TreeExpansion
import ImportWatch.Proofs.TreeLayout
import ImportWatch.Proofs.LineReader
import ImportWatch.Proofs.Sources
import ImportWatch.Proofs.Labels
import ImportWatch.Proofs.Isolation
import ImportWatch.Proofs.PathPieces
import ImportWatch.Proofs.Spellings
import ImportWatch.Proofs.LineForm
import ImportWatch.Proofs.CanonicalForm
import ImportWatch.Proofs.Patterns
import ImportWatch.Proofs.Respacing
import ImportWatch.Proofs.Reexpansion
import ImportWatch.Proofs.Locations
import ImportWatch.Proofs.Growth
import ImportWatch.Proofs.Reruns
import ImportWatch.Proofs.Accounts
import ImportWatch.Proofs.Rows
import ImportWatch.Proofs.Summaries
import ImportWatch.Proofs.Saving
import ImportWatch.Proofs.Groups
import ImportWatch.Proofs.Flattening
import ImportWatch.Proofs.Rosters
import ImportWatch.Proofs.ByteOrder
import ImportWatch.Proofs.SourceWalk
import ImportWatch.Proofs.Decoding
