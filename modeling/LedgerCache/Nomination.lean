import LedgerCache.AdmissionOrder

namespace LedgerCache

/-- The keys that may be evicted, first victim first. A policy may leave keys out, name keys that
are not resident and name a key twice. -/
abbrev Nomination := AdmissionOrder → Nominees

/-- What the cache tells its policy. -/
inductive PolicyCall where
  | admitted (key : Key) (stamp : Nat)
  | forgotten (stamp : Nat)
  | cleared
  deriving DecidableEq, Repr

namespace Nomination

/-- First in, first out. -/
def oldestFirst : Nomination := AdmissionOrder.nominees

/-- Nothing may be evicted. -/
def nobody : Nomination := fun _ => .none

def newestFirst : Nomination := fun o => .ofList o.keys.reverse

def byKey : Nomination := fun o => .ofList (Key.sort o.keys)

def oldestOnly : Nomination := fun o => o.nominees.take 1

/-- First in, first out, but no entry of `owner` is given up. -/
def sparing (owner : Int64) : Nomination := fun o => o.nominees.filter (·.owner != owner)

/-- A key that no cache holds is named before each tracked one. -/
def amongStrangers : Nomination := fun o => o.nominees.flatMap fun k => [⟨-1, k.sequence⟩, k]

/-- Each tracked key is named twice in a row. -/
def twice : Nomination := fun o => o.nominees.flatMap fun k => [k, k]

end Nomination

end LedgerCache
