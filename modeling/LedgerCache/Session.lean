import LedgerCache.Program
import LedgerCache.Workload.Crew

namespace LedgerCache

/-- How far the driver has come. -/
inductive Stage where
  /-- It waits for the workers at these places, and has added up the reports of the others. -/
  | collecting (waiting : List Nat) (total : Report)
  | collected (total : Report) (failure : Option Failure)
  /-- It has taken the statistics and is about to close the cache. -/
  | closing (total : Report) (failure : Option Failure) (stats : Stats)
  /-- It waits for the reporter. -/
  | joining (total : Report) (failure : Option Failure) (stats : Stats)
  | exited (exit : Exit)

namespace Stage

/-- The driver joins the worker at this place, which has ended so. -/
def join (waiting : List Nat) (total : Report) (place : Nat) : Except Failure Report → Stage
  | .error f => .collected total (some f)
  | .ok report =>
    match total.merge report with
    | (total, none) => .collecting (waiting.erase place) total
    | (total, some f) => .collected total (some (.fault f))

end Stage

/-- The load driver with all its workers and the reporter at work at once. -/
structure Session where
  words : Wording
  config : Config
  crew : Crew .oldestFirst
  reporter : Task
  clock : Nat := 0
  stage : Stage
  events : List Event

namespace Session

/-- What happens next. -/
inductive Action where
  /-- The worker at this place makes its next call. -/
  | turn (place : Nat)
  /-- So many milliseconds pass. -/
  | pass (span : Nat)
  /-- The driver joins the worker at this place, if it waits for it and the worker is done. -/
  | join (place : Nat)
  /-- The driver takes its next step. -/
  | proceed
  deriving DecidableEq, Repr

/-- All workers and the reporter are started on a new cache. -/
def start (words : Wording) (c : Config) (opened : Step .oldestFirst Unit) : Session where
  words
  config := c
  crew := .start opened.cache (signedCount c.workers) (signedCount c.entriesPerWorker)
    c.entrySize.toNat
  reporter := { job := .report (1000 * c.statsInterval.toNat) }
  stage := .collecting (List.range (signedCount c.workers)) {}
  events := opened.events

/-- The cache with the reporter. -/
def supervised (s : Session) : Supervised .oldestFirst := ⟨s.crew.cache, s.reporter, s.clock⟩

def turn (s : Session) (place : Nat) : Session :=
  match s.crew.workers[place]? with
  | none => s
  | some w =>
    { s with
      crew := s.crew.act (.turn place)
      events := s.events ++ (w.step s.crew.cache).events.toList }

def pass (s : Session) (span : Nat) : Session :=
  let (after, emitted) := s.supervised.sleep span
  { s with
    crew := { s.crew with cache := after.cache }
    reporter := after.task
    clock := after.clock
    events := s.events ++ emitted.map Timed.event }

def join (s : Session) (place : Nat) : Session :=
  match s.stage, s.crew.workers[place]?.bind Worker.result with
  | .collecting waiting total, some result =>
    if place ∈ waiting then { s with stage := .join waiting total place result } else s
  | _, _ => s

/-- The end of the session, with what the shutdown has answered. -/
def conclude (s : Session) (total : Report) (failure : Option Failure)
    (shutdown : Except Failure (Stats × UInt64)) : Session :=
  let load : Load :=
    { total, failure, shutdown, closed := s.crew.cache.closed, events := s.events }
  { s with stage := .exited (Program.finish s.words s.config load) }

/-- The next step of the driver, which waits as long as there are workers to be joined. -/
def proceed (s : Session) : Session :=
  match s.stage with
  | .collecting [] total => { s with stage := .collected total none }
  | .collected total failure =>
    let taken := s.crew.cache.stats
    let s := { s with crew := { s.crew with cache := taken.cache } }
    match taken.result with
    | .error f => s.conclude total failure (.error f)
    | .ok stats => { s with stage := .closing total failure stats }
  | .closing total failure stats =>
    let closing := s.crew.cache.close
    let s :=
      { s with crew := { s.crew with cache := closing.cache }, events := s.events ++ closing.events }
    match closing.result with
    | .error f => s.conclude total failure (.error f)
    | .ok () => { s with stage := .joining total failure stats }
  | .joining total failure stats =>
    let last := s.reporter.join s.crew.cache s.clock
    let lost := if last.task.value.isNone then [Event.reporterLost] else []
    let s :=
      { s with
        crew := { s.crew with cache := last.cache }
        reporter := last.task
        events := s.events ++ last.events.toList.map Timed.event ++ lost }
    s.conclude total failure (.ok (stats, last.task.value.getD 0))
  | _ => s

/-- After the exit nothing happens. -/
def act (s : Session) (a : Action) : Session :=
  match s.stage, a with
  | .exited _, _ => s
  | _, .turn place => s.turn place
  | _, .pass span => s.pass span
  | _, .join place => s.join place
  | _, .proceed => s.proceed

def run (s : Session) (acts : List Action) : Session := acts.foldl act s

def exit? (s : Session) : Option Exit :=
  match s.stage with
  | .exited e => some e
  | _ => none

theorem run_append (s : Session) (acts more : List Action) :
    s.run (acts ++ more) = (s.run acts).run more := List.foldl_append

end Session

namespace Program

/-- The session that the environment asks for, or the exit without one. -/
def launch (words : Wording) (env : Environment) : Except Exit Session :=
  let config := Config.ofEnvironment env
  match config.validate with
  | .error e => .error (refuse words e)
  | .ok () =>
    match Cache.create .oldestFirst config.capacityBytes with
    | .error e => .error (abandon words config e)
    | .ok opened => .ok (.start words config opened)

/-- The exit of the program, if the actions lead to one, with all that it would log. -/
def outcome (words : Wording) (env : Environment) (acts : List Session.Action) : Option Exit :=
  match launch words env with
  | .error e => some e
  | .ok s => (s.run acts).exit?

end Program

end LedgerCache
