import LedgerCache.Main
import LedgerCache.Operation
import LedgerCache.Workload.Filling
import LedgerCache.Proofs.Changes
import LedgerCache.Proofs.Excess
import LedgerCache.Proofs.Planning
import LedgerCache.Proofs.Runs
import LedgerCache.Proofs.Queue
import LedgerCache.Proofs.History
import LedgerCache.Proofs.RepeatedVictims
import LedgerCache.Proofs.DistinctVictims
import LedgerCache.Proofs.Refusals
import LedgerCache.Proofs.Conservation
import LedgerCache.Proofs.PolicyCalls
import LedgerCache.Proofs.Reads
import LedgerCache.Proofs.Replay
import LedgerCache.Proofs.Offsets
import LedgerCache.Proofs.Capacities
import LedgerCache.Proofs.Writers
import LedgerCache.Proofs.Totals
import LedgerCache.Proofs.Workers
import LedgerCache.Workload.Crew
import LedgerCache.Proofs.Crews
import LedgerCache.Clients
import LedgerCache.Proofs.Linearization
import LedgerCache.Proofs.LoneWorkers
import LedgerCache.Proofs.Loads
import LedgerCache.Supervision
import LedgerCache.Proofs.Supervision
import LedgerCache.Proofs.Reporting
import LedgerCache.Proofs.Acceptance
import LedgerCache.Session
import LedgerCache.Proofs.Fates
import LedgerCache.Proofs.Sessions
import LedgerCache.Proofs.Completion
import LedgerCache.Proofs.Schedules
import LedgerCache.Proofs.Closing
import LedgerCache.Proofs.Latecomers
import LedgerCache.Proofs.AdmissionLog
import LedgerCache.Proofs.Settings
import LedgerCache.Proofs.SyntheticPayloads
import LedgerCache.Proofs.Texts
