import LedgerCache.Error

namespace LedgerCache

/-- The value of each variable that is set, as bytes, which need not be text. -/
abbrev Environment := String → Option (List UInt8)

namespace Decimal

/-- The digit that an ASCII byte stands for. -/
def digit (b : UInt8) : Option Nat :=
  if 48 ≤ b.toNat ∧ b.toNat ≤ 57 then some (b.toNat - 48) else none

/-- The number that starts with `value` and goes on with the digits, unless it is no word. -/
def extend (value : Nat) : List UInt8 → Option Nat
  | [] => some value
  | b :: bs => do
    let value := 10 * value + (← digit b)
    if value < wordLimit then extend value bs else none

/-- One plus sign may come first; there is at least one digit. -/
def word (bytes : List UInt8) : Option UInt64 :=
  let digits := if bytes.head? = some 43 then bytes.tail else bytes
  if digits.isEmpty then none else (extend 0 digits).map UInt64.ofNat

end Decimal

structure Config where
  capacityBytes : UInt64 := 268435456
  /-- Seconds between two reports. -/
  statsInterval : UInt64 := 5
  workers : UInt64 := 4
  entriesPerWorker : UInt64 := 10000
  entrySize : UInt64 := 1024
  deriving DecidableEq, Repr

namespace Config

def capacityVariable : String := "READ_CACHE_CAPACITY_BYTES"
def intervalVariable : String := "STATS_INTERVAL"
def workersVariable : String := "WORKLOAD_WORKERS"
def entriesVariable : String := "WORKLOAD_ENTRIES_PER_WORKER"
def sizeVariable : String := "WORKLOAD_ENTRY_SIZE"

/-- The word in the variable, or `default`. -/
def setting (env : Environment) (name : String) (default : UInt64) : UInt64 :=
  ((env name).bind Decimal.word).getD default

def ofEnvironment (env : Environment) : Config :=
  let d : Config := {}
  { capacityBytes := setting env capacityVariable d.capacityBytes
    statsInterval := setting env intervalVariable d.statsInterval
    workers := setting env workersVariable d.workers
    entriesPerWorker := setting env entriesVariable d.entriesPerWorker
    entrySize := setting env sizeVariable d.entrySize }

def mustBePositive (name : String) : Error :=
  .invalidSetting (name ++ " must be greater than zero")

/-- Refuses settings that are zero; a worker may have no entries to write. -/
def validate (c : Config) : Except Error Unit :=
  if c.capacityBytes = 0 then .error (mustBePositive capacityVariable)
  else if c.statsInterval = 0 then .error (mustBePositive intervalVariable)
  else if c.workers = 0 then .error (mustBePositive workersVariable)
  else if c.entrySize = 0 then .error (mustBePositive sizeVariable)
  else .ok ()

end Config

end LedgerCache
