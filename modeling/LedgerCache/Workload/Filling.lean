import LedgerCache.Cache

namespace LedgerCache

structure Filling (nominate : Nomination) where
  cache : Cache nominate
  failed : Nat := 0
  /-- What stopped a writer before it could put. -/
  fault : Option Fault := none

namespace Filling

variable {nominate : Nomination}

def put (f : Filling nominate) (k : Key) (size : Nat) : Filling nominate :=
  match Payload.generate k size with
  | .error fault => { f with fault := some fault }
  | .ok payload =>
    let s := f.cache.put k payload
    { f with cache := s.cache, failed := f.failed + if s.result.isOk then 0 else 1 }

/-- One writer: the entries 0, 1, … of `owner`. -/
def write (f : Filling nominate) (owner : Int64) (puts size : Nat) : Filling nominate :=
  (List.range puts).foldl (fun f n => f.put ⟨owner, Int64.ofNat n⟩ size) f

/-- The writers one after another. -/
def writers (f : Filling nominate) (owners : List Int64) (puts size : Nat) : Filling nominate :=
  owners.foldl (fun f owner => f.write owner puts size) f

end Filling

end LedgerCache
