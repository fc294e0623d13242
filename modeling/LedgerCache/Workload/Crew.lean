import LedgerCache.Workload.Worker

namespace LedgerCache

/-- What happens next. -/
inductive Act where
  /-- The worker at this place makes its next call. -/
  | turn (place : Nat)
  | close
  deriving DecidableEq, Repr

/-- Workers that take turns on one cache, one call at a time. -/
structure Crew (nominate : Nomination) where
  workers : List Worker
  cache : Cache nominate

namespace Crew

variable {nominate : Nomination}

/-- One worker for each of the owners from zero on. -/
def start (c : Cache nominate) (workers entries size : Nat) : Crew nominate where
  workers := (List.range workers).map fun owner => Worker.start (Int64.ofNat owner) entries size
  cache := c

def act (crew : Crew nominate) : Act → Crew nominate
  | .turn place =>
    match crew.workers[place]? with
    | none => crew
    | some w =>
      let t := w.step crew.cache
      { workers := crew.workers.set place t.worker, cache := t.cache }
  | .close => { crew with cache := crew.cache.close.cache }

def run (crew : Crew nominate) (acts : List Act) : Crew nominate := acts.foldl act crew

/-- What each worker has to report, as far as it is done. -/
def results (crew : Crew nominate) : List (Option (Except Failure Report)) :=
  crew.workers.map Worker.result

/-- What the workers have counted so far. -/
def reports (crew : Crew nominate) : List Report := crew.workers.map (·.report)

/-- All workers are done. -/
def Finished (crew : Crew nominate) : Prop := ∀ w ∈ crew.workers, w.result.isSome

instance (crew : Crew nominate) : Decidable crew.Finished :=
  inferInstanceAs (Decidable (∀ w ∈ crew.workers, w.result.isSome))

theorem run_append (crew : Crew nominate) (acts more : List Act) :
    crew.run (acts ++ more) = (crew.run acts).run more := List.foldl_append

end Crew

end LedgerCache
