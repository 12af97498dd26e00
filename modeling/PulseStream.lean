import PulseStream.Lib.Machine
import PulseStream.Lib.Progress
import PulseStream.Lib.Refinement
import PulseStream.Lib.Delimited
import PulseStream.Lib.KeySort
import PulseStream.Lib.Find
import PulseStream.Lib.LexCode
import PulseStream.Lib.Table
import PulseStream.Lib.Hex
import PulseStream.Core.Number
import PulseStream.Core.Json
import PulseStream.Core.Event
import PulseStream.Core.Canonical
import PulseStream.Core.Serde
import PulseStream.Core.Uuid
import PulseStream.Core.Idempotency
import PulseStream.Core.Reference
import PulseStream.Core.Config
import PulseStream.Store.Jsonb
import PulseStream.Store.Schema
import PulseStream.Store.Calls
import PulseStream.Store.Steps
import PulseStream.Store.Invariant
import PulseStream.Store.Trail
import PulseStream.Store.History
import PulseStream.Store.Admission
import PulseStream.Store.Delivery
import PulseStream.Store.Leases
import PulseStream.Store.ClaimRun
import PulseStream.Store.Completion
import PulseStream.Store.Progress
import PulseStream.Store.Atomic
import PulseStream.Store.Chronology
import PulseStream.Store.Get
import PulseStream.Store.ClaimExact
import PulseStream.Store.RoundTrip
import PulseStream.Store.TestDatabase
import PulseStream.Api.Ingest
import PulseStream.Worker.Runtime
import PulseStream.Worker.Steps
import PulseStream.Worker.Execution
import PulseStream.Worker.Accounting
import PulseStream.Worker.Shutdown
import PulseStream.System.Machine
import PulseStream.System.Invariant
import PulseStream.System.Executions
import PulseStream.System.Guarantees
import PulseStream.System.Report
import PulseStream.System.View
import PulseStream.System.Deliveries
import PulseStream.System.LostClaims
import PulseStream.System.Processing
import PulseStream.System.Recovery
import PulseStream.Api.Lookup
import PulseStream.Api.Service
import PulseStream.Api.Guarantees
