import LedgerCache.Fault

namespace LedgerCache

structure Report where
  puts : UInt64 := 0
  cacheHits : UInt64 := 0
  /-- Reads that the durable store has to serve. -/
  fallbacks : UInt64 := 0
  corruptReads : UInt64 := 0
  deriving DecidableEq, Repr

namespace Report

/-- Adds `other` field by field. A sum that is no word is a fault: the fields before it are added,
it and those after it are not. -/
def merge (total other : Report) : Report × Option Fault :=
  match addWords total.puts other.puts with
  | .error f => (total, some f)
  | .ok puts =>
    let total := { total with puts }
    match addWords total.cacheHits other.cacheHits with
    | .error f => (total, some f)
    | .ok cacheHits =>
      let total := { total with cacheHits }
      match addWords total.fallbacks other.fallbacks with
      | .error f => (total, some f)
      | .ok fallbacks =>
        let total := { total with fallbacks }
        match addWords total.corruptReads other.corruptReads with
        | .error f => (total, some f)
        | .ok corruptReads => ({ total with corruptReads }, none)

/-- Adds the reports one after another, up to a fault. -/
def mergeAll (total : Report) : List Report → Report × Option Fault
  | [] => (total, none)
  | r :: rs =>
    match total.merge r with
    | (total, none) => total.mergeAll rs
    | (total, some f) => (total, some f)

/-- The counts with the names under which they are shown. -/
def figures (r : Report) : List (String × UInt64) :=
  [("puts", r.puts), ("cache_hits", r.cacheHits), ("fallbacks", r.fallbacks),
    ("corrupt_reads", r.corruptReads)]

end Report

end LedgerCache
