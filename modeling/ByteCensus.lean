import ByteCensus.Evidence.Serial
import ByteCensus.Session
import ByteCensus.Proofs.Coverage.Sweep
import ByteCensus.Proofs.Coverage.Merge
import ByteCensus.Proofs.Search
import ByteCensus.Proofs.Arbitration
import ByteCensus.Proofs.Ingest.Report
import ByteCensus.Proofs.Ingest.Schedule
import ByteCensus.Proofs.Coverage.Queries
import ByteCensus.Proofs.Coverage.Bytes
import ByteCensus.Proofs.Ingest.Rulings
import ByteCensus.Proofs.Findings
import ByteCensus.Proofs.Coverage.Order
import ByteCensus.Proofs.Authority
import ByteCensus.Proofs.Ingest.Answered
import ByteCensus.Proofs.Kept
import ByteCensus.Proofs.Ingest.Collect
import ByteCensus.Proofs.Ingest.Policies
import ByteCensus.Proofs.Ingest.Conflicts
import ByteCensus.Proofs.Ingest.Extents
import ByteCensus.Proofs.Bystander
import ByteCensus.Proofs.SymbolOrder
import ByteCensus.Proofs.Ingest.Applied
import ByteCensus.Proofs.Json.Scan
import ByteCensus.Proofs.Json.Value
import ByteCensus.Proofs.Toolchain.Grammar
import ByteCensus.Proofs.Serial
import ByteCensus.Proofs.History
import ByteCensus.Proofs.Ingest.Tallies
import ByteCensus.Proofs.Ingest.Again
import ByteCensus.Proofs.Ingest.FindingOrder
import ByteCensus.Proofs.Coverage.Groups
import ByteCensus.Proofs.Attachment
import ByteCensus.Proofs.Arena
import ByteCensus.Proofs.Config
import ByteCensus.Proofs.Toolchain.Order
import ByteCensus.Proofs.Toolchain.Display
import ByteCensus.Proofs.Coverage.Crowding
import ByteCensus.Proofs.Combining
