import LedgerCache.Cache

namespace LedgerCache

/-- What a background task does. A reporter reports once per interval, in milliseconds, up to the
first tick that finds the cache closed. -/
inductive Job where
  | report (interval : Nat)
  | yield (value : UInt64)
  /-- Ends without a value. -/
  | fail
  deriving DecidableEq, Repr

inductive Phase where
  | spawned
  | ticking (reports : UInt64) (next : Nat)
  /-- Over, with the value of a task that was neither aborted nor failed. -/
  | ended (value : Option UInt64)
  deriving DecidableEq, Repr

structure Task where
  job : Job
  phase : Phase := .spawned
  deriving DecidableEq, Repr

/-- An event with the time at which it was emitted. -/
structure Timed where
  time : Nat
  event : Event
  deriving DecidableEq, Repr

/-- What a task does on the cache: how it stands then, the cache that it leaves and what it
emitted. -/
structure Stint (nominate : Nomination) where
  task : Task
  cache : Cache nominate
  events : Array Timed := #[]

namespace Task

variable {nominate : Nomination}

/-- Lets a task that was only spawned run for the first time. -/
def start (t : Task) (now : Nat) : Task × List Timed :=
  match t.phase, t.job with
  | .spawned, .report interval =>
    ({ t with phase := .ticking 0 (now + interval) }, [⟨now, .reporterStarted interval⟩])
  | .spawned, .yield value => ({ t with phase := .ended (some value) }, [])
  | .spawned, .fail => ({ t with phase := .ended none }, [])
  | _, _ => (t, [])

/-- One tick. If the lookups overflow, the rates cannot be reported and the task fails. -/
def tick (t : Task) (c : Cache nominate) : Stint nominate :=
  match t.phase, t.job with
  | .ticking reports now, .report interval =>
    let taken := c.stats
    match taken.result with
    | .error _ =>
      ⟨{ t with phase := .ended (some reports) }, taken.cache, #[⟨now, .reporterExiting reports⟩]⟩
    | .ok s =>
      match s.hitRate with
      | .error _ => ⟨{ t with phase := .ended none }, taken.cache, #[]⟩
      | .ok _ =>
        -- at one report a millisecond the clock ends before this count wraps
        ⟨{ t with phase := .ticking (reports + 1) (now + interval) }, taken.cache,
          #[⟨now, .report s⟩]⟩
  | _, _ => { task := t, cache := c }

/-- How many ticks come up to `time`, if the task goes on. -/
def due (t : Task) (time : Nat) : Nat :=
  match t.phase, t.job with
  | .ticking _ next, .report interval => if next ≤ time then (time - next) / interval + 1 else 0
  | _, _ => 0

end Task

/-- Up to so many ticks behind what was done so far; a task that is over has no more of them. -/
def Stint.ticks {nominate : Nomination} : Nat → Stint nominate → Stint nominate
  | 0, s => s
  | n + 1, s =>
    match s.task.phase with
    | .ended _ => s
    | _ =>
      let next := s.task.tick s.cache
      ticks n { next with events := s.events ++ next.events }

namespace Task

variable {nominate : Nomination}

/-- The task while the time passes from `now` to `time` and nobody else uses the cache. -/
def pass (t : Task) (c : Cache nominate) (now time : Nat) : Stint nominate :=
  let (t, started) := t.start now
  Stint.ticks (t.due time) { task := t, cache := c, events := started.toArray }

def abort (t : Task) : Task :=
  match t.phase with
  | .ended _ => t
  | _ => { t with phase := .ended none }

/-- Waits for the task, on a cache that was closed: a reporter runs to its next tick and ends. -/
def join (t : Task) (c : Cache nominate) (now : Nat) : Stint nominate :=
  let (t, started) := t.start now
  let last := t.tick c
  { last with events := started.toArray ++ last.events }

def value (t : Task) : Option UInt64 :=
  match t.phase with
  | .ended value => value
  | _ => none

end Task

/-- A cache with its background task and the time. -/
structure Supervised (nominate : Nomination) where
  cache : Cache nominate
  task : Task
  clock : Nat := 0

/-- The end of a supervised cache. -/
structure Shutdown (nominate : Nomination) where
  result : Except Failure (Stats × UInt64)
  final : Supervised nominate
  events : List Timed
  calls : List PolicyCall

namespace Supervised

variable {nominate : Nomination}

def sleep (s : Supervised nominate) (span : Nat) : Supervised nominate × List Timed :=
  let t := s.task.pass s.cache s.clock (s.clock + span)
  ({ cache := t.cache, task := t.task, clock := s.clock + span }, t.events.toList)

def abort (s : Supervised nominate) : Supervised nominate := { s with task := s.task.abort }

/-- Takes the statistics, closes the cache and waits for the task. A task that did not end with a
value counts as having reported nothing. -/
def closeAndJoin (s : Supervised nominate) : Shutdown nominate :=
  let taken := s.cache.stats
  match taken.result with
  | .error f => ⟨.error f, { s with cache := taken.cache }, [], []⟩
  | .ok stats =>
    let closing := taken.cache.close
    let closed := closing.events.map (Timed.mk s.clock)
    match closing.result with
    | .error f => ⟨.error f, { s with cache := closing.cache }, closed, closing.calls⟩
    | .ok () =>
      let last := s.task.join closing.cache s.clock
      let lost := if last.task.value.isNone then [⟨s.clock, .reporterLost⟩] else []
      ⟨.ok (stats, last.task.value.getD 0), { s with cache := last.cache, task := last.task },
        closed ++ last.events.toList ++ lost, closing.calls⟩

end Supervised

end LedgerCache
