import LedgerCache.Load
import LedgerCache.Wording

namespace LedgerCache

structure Exit where
  code : Nat
  stderr : String
  records : List Record

/-- The exit with those of its records that a filter of this rank lets through. -/
def Exit.logged (e : Exit) (rank : Nat) : Exit :=
  { e with records := e.records.filter (·.level.rank ≤ rank) }

namespace Verbosity

def levelNamed? (name : String) : Option Nat :=
  if name = "off" then some 0
  else [Level.error, .warn, .info, .debug, .trace].findSome? fun l =>
    if l.name.toLower = name then some l.rank else none

/-- The rank of the most detailed records that are logged, from the text of a filter: a level for
all or for this program. With no filter or one that cannot be read, it is that of `info`. -/
def ofFilter (filter : Option String) : Nat :=
  (do
    let text ← filter
    let name := if text.startsWith "read_cache=" then (text.drop 11).toString else text
    levelNamed? name).getD Level.info.rank

def filterVariable : String := "RUST_LOG"

def ofEnvironment (env : Environment) : Nat :=
  ofFilter ((env filterVariable).bind fun bytes => String.fromUTF8? ⟨bytes.toArray⟩)

end Verbosity

namespace Program

def note (message : String) (fields : List (String × Field) := []) : Record :=
  ⟨.info, .driver, message, fields⟩

/-- The exit with a failure: the message of what was being done, then those of the causes. -/
def fail (words : Wording) (chain : List String) (records : List Record) : Exit :=
  ⟨1, "Error: " ++ words.failure chain ++ "\n", records⟩

def configured (c : Config) : Record :=
  note (s!"Configuration loaded: capacity_bytes={c.capacityBytes}, workers={c.workers}, " ++
    s!"entries_per_worker={c.entriesPerWorker}, entry_size={c.entrySize}, " ++
    s!"stats_interval={c.statsInterval}s")

def completed (words : Wording) (total : Report) (reports : UInt64) : Record :=
  note s!"Workload complete: {words.figures total.figures}"
    [("elapsed_ms", .elapsed), ("stats_reports", .nat reports.toNat)]

def finalStats (words : Wording) (s : Stats) : Record :=
  note ("Final cache stats: " ++ words.figures s.figures)

/-- The messages of what ended the work. A worker that ends with a fault has panicked. -/
def causes : Failure → List String
  | .refused e => [e.message]
  | .fault f => ["worker panicked", f.message]

/-- What is logged and shown after the shutdown. -/
def conclude (words : Wording) (load : Load) : Exit :=
  match load.shutdown, load.failure with
  | .error f, _ => fail words [f.message] []
  | .ok (stats, _), some f => fail words ("workload failed" :: causes f) [finalStats words stats]
  | .ok (stats, reports), none =>
    ⟨0, "", [completed words load.total reports, finalStats words stats,
      note "Read cache load driver shutdown complete"]⟩

def starting : Record := note "Starting read cache load driver"

/-- The exit if the settings are not accepted. -/
def refuse (words : Wording) (e : Error) : Exit :=
  fail words ["invalid configuration", e.message] [starting]

/-- The exit if the cache cannot be created. -/
def abandon (words : Wording) (c : Config) (e : Error) : Exit :=
  fail words [e.message] [starting, configured c]

/-- The exit after a load, with all that was logged. -/
def finish (words : Wording) (c : Config) (load : Load) : Exit :=
  let e := conclude words load
  { e with records := [starting, configured c] ++ load.events.map Event.record ++ e.records }

/-- All that the program would log, whatever the filter. -/
def full (words : Wording) (env : Environment) : Exit :=
  let config := Config.ofEnvironment env
  match config.validate with
  | .error e => refuse words e
  | .ok () =>
    match config.load with
    | .error e => abandon words config e
    | .ok load => finish words config load

/-- A run of the program, with the records that its filter lets through. -/
def run (env : Environment) (words : Wording := .plain) : Exit :=
  (full words env).logged (Verbosity.ofEnvironment env)

end Program

end LedgerCache
