import LedgerCache.Cache
import LedgerCache.Workload.Report

namespace LedgerCache

/-- How far behind the last written entry a worker reads. -/
def readLag : Nat := 64

/-- The number of things that a word asks for: it is read as a signed word, and a negative one asks
for none. -/
def signedCount (n : UInt64) : Nat := if n.toNat < 9223372036854775808 then n.toNat else 0

inductive Progress where
  /-- About to write the entry with this sequence id. -/
  | writing (sequence : Nat)
  /-- Has written this entry and is about to read an earlier one. -/
  | reading (sequence : Nat)
  | stopped
  | failed (f : Failure)
  deriving DecidableEq, Repr

/-- How a read was served. -/
inductive Served where
  | missing | faithful | corrupt
  deriving DecidableEq, Repr

def Report.served (r : Report) : Served → Report
  | .missing => { r with fallbacks := r.fallbacks + 1 }
  | .faithful => { r with cacheHits := r.cacheHits + 1 }
  | .corrupt => { r with cacheHits := r.cacheHits + 1, corruptReads := r.corruptReads + 1 }

/-- Writes the entries of one ledger in sequence and, behind each write, reads back the entry a
fixed lag before. Its steps are single calls on the cache. -/
structure Worker where
  owner : Int64
  entries : Nat
  size : Nat
  progress : Progress
  /-- No count exceeds the number of entries, so adding one never wraps. -/
  report : Report := {}
  deriving DecidableEq, Repr

/-- A worker and the cache that it works on, with what was emitted so far. -/
structure Turn (nominate : Nomination) where
  worker : Worker
  cache : Cache nominate
  events : Array Event := #[]
  calls : Array PolicyCall := #[]

namespace Worker

def writeOrStop (entries sequence : Nat) : Progress :=
  if sequence < entries then .writing sequence else .stopped

def start (owner : Int64) (entries size : Nat) : Worker :=
  { owner, entries, size, progress := writeOrStop entries 0 }

def key (w : Worker) (sequence : Nat) : Key := ⟨w.owner, Int64.ofNat sequence⟩

/-- What the worker has to report, once it is done. -/
def result (w : Worker) : Option (Except Failure Report) :=
  match w.progress with
  | .stopped => some (.ok w.report)
  | .failed f => some (.error f)
  | _ => none

/-- The worker after it wrote an entry. -/
def wrote (w : Worker) (sequence : Nat) : Worker :=
  { w with
    report := { w.report with puts := w.report.puts + 1 }
    progress :=
      if sequence < readLag then writeOrStop w.entries (sequence + 1) else .reading sequence }

/-- Compares what was read with what was written under this sequence id. -/
def inspect (w : Worker) (sequence : Nat) : Option Payload → Served
  | none => .missing
  | some view =>
    if view = Payload.synthetic (w.key sequence) w.size then .faithful else .corrupt

/-- The worker after it read back, behind the entry with this sequence id. -/
def readBack (w : Worker) (sequence : Nat) (s : Served) : Worker :=
  { w with report := w.report.served s, progress := writeOrStop w.entries (sequence + 1) }

variable {nominate : Nomination}

/-- Writes one entry. A closed cache stops the worker without a failure, but not before the payload
is made. -/
def write (w : Worker) (n : Nat) (c : Cache nominate) : Turn nominate :=
  match Payload.generate (w.key n) w.size with
  | .error f => { worker := { w with progress := .failed (.fault f) }, cache := c }
  | .ok payload =>
    let s := c.put (w.key n) payload
    match s.result with
    | .ok () => ⟨w.wrote n, s.cache, s.events.toArray, s.calls.toArray⟩
    | .error (.refused .closed) =>
      ⟨{ w with progress := .stopped }, s.cache,
        s.events.toArray.push (.workerStopping (w.key n)), s.calls.toArray⟩
    | .error f => ⟨{ w with progress := .failed f }, s.cache, s.events.toArray, s.calls.toArray⟩

/-- Reads one entry back. -/
def read (w : Worker) (n : Nat) (c : Cache nominate) : Turn nominate :=
  let s := c.get (w.key (n - readLag))
  match s.result with
  | .ok view =>
    let served := w.inspect (n - readLag) view
    let events :=
      if served = .corrupt then s.events.toArray.push (.corruptRead (w.key (n - readLag)))
      else s.events.toArray
    ⟨w.readBack n served, s.cache, events, s.calls.toArray⟩
  | .error (.refused .closed) =>
    ⟨{ w with progress := .stopped }, s.cache, s.events.toArray, s.calls.toArray⟩
  | .error f => ⟨{ w with progress := .failed f }, s.cache, s.events.toArray, s.calls.toArray⟩

/-- The next call on the cache; a worker that is done makes none. -/
def step (w : Worker) (c : Cache nominate) : Turn nominate :=
  match w.progress with
  | .writing n => w.write n c
  | .reading n => w.read n c
  | _ => { worker := w, cache := c }

/-- No run takes more steps: each entry is written once and read back at most once. -/
def stepBound (w : Worker) : Nat := 2 * w.entries

end Worker

namespace Turn

variable {nominate : Nomination}

def next (t : Turn nominate) : Turn nominate :=
  let u := t.worker.step t.cache
  { u with events := t.events ++ u.events, calls := t.calls ++ u.calls }

/-- At most so many steps, fewer if the worker is done before. -/
def steps : Nat → Turn nominate → Turn nominate
  | 0, t => t
  | n + 1, t => if t.worker.result.isSome then t else steps n t.next

end Turn

/-- The worker alone on the cache, until it is done. -/
def Worker.run {nominate : Nomination} (w : Worker) (c : Cache nominate) : Turn nominate :=
  Turn.steps w.stepBound { worker := w, cache := c }

end LedgerCache
