import LedgerCache.Fault

namespace LedgerCache

/-- Machine words that wrap. -/
structure Counters where
  hits : UInt64 := 0
  misses : UInt64 := 0
  evictions : UInt64 := 0
  rejections : UInt64 := 0
  deriving DecidableEq, Repr

structure Stats where
  hits : UInt64 := 0
  misses : UInt64 := 0
  evictions : UInt64 := 0
  rejections : UInt64 := 0
  totalEntries : UInt64 := 0
  usedBytes : UInt64 := 0
  capacityBytes : UInt64 := 0
  deriving DecidableEq, Repr

namespace Counters

def hit (c : Counters) : Counters := { c with hits := c.hits + 1 }

def miss (c : Counters) : Counters := { c with misses := c.misses + 1 }

def evict (c : Counters) (count : UInt64) : Counters := { c with evictions := c.evictions + count }

def reject (c : Counters) : Counters := { c with rejections := c.rejections + 1 }

def snapshot (c : Counters) (entries used capacity : UInt64) : Stats where
  hits := c.hits
  misses := c.misses
  evictions := c.evictions
  rejections := c.rejections
  totalEntries := entries
  usedBytes := used
  capacityBytes := capacity

end Counters

namespace Stats

/-- The share of `part` in `whole`: both are rounded to doubles, then divided. Nothing has no
share. -/
def share (part whole : UInt64) : Float :=
  if whole = 0 then 0 else part.toFloat / whole.toFloat

/-- How many lookups there were, if the sum of hits and misses is a word. -/
def lookups (s : Stats) : Except Fault UInt64 := addWords s.hits s.misses

def hitRate (s : Stats) : Except Fault Float := s.lookups.map (share s.hits)

def utilization (s : Stats) : Float := share s.usedBytes s.capacityBytes

/-- The figures with the names under which they are shown. -/
def figures (s : Stats) : List (String × UInt64) :=
  [("hits", s.hits), ("misses", s.misses), ("evictions", s.evictions),
    ("rejections", s.rejections), ("total_entries", s.totalEntries), ("used_bytes", s.usedBytes),
    ("capacity_bytes", s.capacityBytes)]

end Stats

end LedgerCache
