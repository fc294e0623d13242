import LedgerCache.Config
import LedgerCache.Reporter
import LedgerCache.Workload.Worker

namespace LedgerCache

/-- The work on the cache: what the workers reported together, and what ended it early. -/
structure Work (nominate : Nomination) where
  cache : Cache nominate
  total : Report := {}
  failure : Option Failure := none
  events : Array Event := #[]

namespace Work

variable {nominate : Nomination}

/-- Adds the report of a worker that is done. -/
def collect (w : Work nominate) (t : Turn nominate) : Work nominate :=
  let w := { w with cache := t.cache, events := w.events ++ t.events }
  match t.worker.result with
  | none => w
  | some (.error f) => { w with failure := some f }
  | some (.ok report) =>
    let (total, fault) := w.total.merge report
    { w with total, failure := fault.map .fault }

/-- The workers of the owners `owner`, `owner + 1`, …, until one fails. -/
def workers (entries size : Nat) : Nat → Nat → Work nominate → Work nominate
  | 0, _, w => w
  | n + 1, owner, w =>
    let t := (Worker.start (Int64.ofNat owner) entries size).run w.cache
    let w := w.collect t
    if w.failure.isSome then w else workers entries size n (owner + 1) w

end Work

/-- What came of the workers and of the shutdown, which follows whether the work failed or not. -/
structure Load where
  total : Report
  failure : Option Failure
  shutdown : Except Failure (Stats × UInt64)
  closed : Bool
  /-- What the cache and the workers emitted, then what the shutdown did. -/
  events : List Event

/-- Runs the load of a configuration whose settings are accepted. -/
def Config.load (c : Config) : Except Error Load := do
  let opened ← Cache.create .oldestFirst c.capacityBytes
  let work := Work.workers (signedCount c.entriesPerWorker) c.entrySize.toNat
    (signedCount c.workers) 0 { cache := opened.cache }
  let reporter : Task := { job := .report (1000 * c.statsInterval.toNat) }
  let shutdown := Supervised.closeAndJoin { cache := work.cache, task := reporter }
  return {
    total := work.total
    failure := work.failure
    shutdown := shutdown.result
    closed := shutdown.final.cache.closed
    events := opened.events ++ work.events.toList ++ shutdown.events.map (·.event) }

/-- The load that the environment asks for. -/
def Load.ofEnvironment (env : Environment) : Except Error Load := do
  let config := Config.ofEnvironment env
  config.validate
  config.load

end LedgerCache
