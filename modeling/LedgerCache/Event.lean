import LedgerCache.Counters
import LedgerCache.Error

namespace LedgerCache

inductive Level where
  | error | warn | info | debug | trace
  deriving DecidableEq, Repr

namespace Level

def name : Level → String
  | error => "ERROR" | warn => "WARN" | info => "INFO" | debug => "DEBUG" | trace => "TRACE"

/-- How much detail a level stands for. -/
def rank : Level → Nat
  | error => 1 | warn => 2 | info => 3 | debug => 4 | trace => 5

end Level

inductive Source where
  | driver | store | workload | reporter
  deriving DecidableEq, Repr

def Source.name : Source → String
  | .driver => "read_cache"
  | .store => "read_cache::cache::store"
  | .workload => "read_cache::workload"
  | .reporter => "read_cache::tasks::reporter"

inductive Field where
  | nat (n : Nat)
  | int (n : Int)
  | rate (x : Float)
  | text (s : String)
  /-- The time that the work took, which whoever writes the record fills in. -/
  | elapsed

def Field.render (elapsed : String) : Field → String
  | .nat n => toString n
  | .int n => toString n
  | .rate x => toString x
  | .text s => s
  | .elapsed => elapsed

structure Record where
  level : Level
  source : Source
  message : String
  fields : List (String × Field) := []

/-- The message, then each field as `name=value`. -/
def Record.text (elapsed : String) (r : Record) : String :=
  r.fields.foldl (fun line f => line ++ s!" {f.1}=" ++ f.2.render elapsed) r.message

inductive Event where
  | cacheCreated (capacity : UInt64)
  | putRejected (key : Key) (error : Error)
  | evicted (key : Key) (bytes : Nat)
  | cacheClosed (entries bytes : Nat)
  | workerStopping (key : Key)
  | corruptRead (key : Key)
  /-- The interval is in milliseconds. -/
  | reporterStarted (interval : Nat)
  | report (stats : Stats)
  | reporterExiting (reports : UInt64)
  | reporterLost
  deriving DecidableEq, Repr

/-- A span of milliseconds in whole and decimal seconds from one second on, else in milliseconds. -/
def spanText (ms : Nat) : String :=
  if ms = 0 then "0ns"
  else if ms < 1000 then s!"{ms}ms"
  else
    let digits := ((toString (1000 + ms % 1000)).toList.drop 1).reverse.dropWhile (· == '0')
    let whole := toString (ms / 1000)
    if digits.isEmpty then whole ++ "s" else whole ++ "." ++ String.ofList digits.reverse ++ "s"

namespace Event

/-- The fields that name the key: a put that finds no room is reported by its key, one that is
refused before by the two ids it came with. -/
def rejectionFields (k : Key) : Error → List (String × Field)
  | e@(.noRoom ..) => [("key", .text k.text), ("error", .text e.message)]
  | e => [("owner_id", .int k.owner.toInt), ("sequence_id", .int k.sequence.toInt),
      ("error", .text e.message)]

def statsFields (s : Stats) : List (String × Field) :=
  [("entries", .nat s.totalEntries.toNat), ("used_bytes", .nat s.usedBytes.toNat),
   ("capacity_bytes", .nat s.capacityBytes.toNat), ("hits", .nat s.hits.toNat),
   ("misses", .nat s.misses.toNat), ("evictions", .nat s.evictions.toNat),
   ("rejections", .nat s.rejections.toNat),
   ("hit_rate", .rate (Stats.share s.hits (s.hits + s.misses))),
   ("utilization", .rate s.utilization)]

def record : Event → Record
  | cacheCreated capacity =>
      ⟨.info, .store, "read cache created", [("capacity_bytes", .nat capacity.toNat)]⟩
  | putRejected k e => ⟨.debug, .store, "put rejected", rejectionFields k e⟩
  | evicted k bytes =>
      ⟨.debug, .store, "evicted entry", [("key", .text k.text), ("bytes", .nat bytes)]⟩
  | cacheClosed entries bytes =>
      ⟨.info, .store, "read cache closed", [("entries", .nat entries), ("bytes", .nat bytes)]⟩
  | workerStopping k =>
      ⟨.debug, .workload, "cache closed, worker stopping",
        [("owner_id", .int k.owner.toInt), ("sequence_id", .int k.sequence.toInt)]⟩
  | corruptRead k =>
      ⟨.warn, .workload, "cached entry does not match written bytes",
        [("owner_id", .int k.owner.toInt), ("read_id", .int k.sequence.toInt)]⟩
  | reporterStarted interval =>
      ⟨.info, .reporter, "starting read cache stats reporter",
        [("interval", .text (spanText interval))]⟩
  | report s => ⟨.info, .reporter, "read cache stats", statsFields s⟩
  | reporterExiting reports =>
      ⟨.debug, .reporter, "read cache closed, stats reporter exiting",
        [("reports", .nat reports.toNat)]⟩
  | reporterLost => ⟨.warn, .reporter, "stats reporter did not finish cleanly", []⟩

end Event

end LedgerCache
