import LedgerCache.Operation

namespace LedgerCache

variable {nominate : Nomination}

/-- What is seen of an operation, beside what it makes of the cache. -/
structure Outcome where
  result : Except Failure Reply
  events : List Event
  calls : List PolicyCall

def Step.outcome (s : Step nominate Reply) : Outcome := ⟨s.result, s.events, s.calls⟩

/-- Whether the first step of an operation takes the lock. -/
def Operation.locks : Operation → Bool
  | .put .. => false
  | .capacity => false
  | .isClosed => false
  | _ => true

structure Client where
  /-- A put that has passed its check and is still to be admitted. -/
  checked : Option (Key × Payload) := none
  /-- The calls to make after that. -/
  todo : List Operation
  deriving DecidableEq, Repr

namespace Client

/-- Whether the next step takes the lock. -/
def waits (client : Client) : Bool :=
  match client.checked, client.todo with
  | some _, _ => true
  | none, op :: _ => op.locks
  | none, [] => false

/-- The calls that have not returned, unless it is a close that holds the lock. -/
def calls (client : Client) : List Operation :=
  (client.checked.map fun x => Operation.put x.1 x.2).toList ++ client.todo

end Client

/-- A call that has returned. -/
structure Call where
  place : Nat
  operation : Operation
  outcome : Outcome

/-- Clients of one cache, whose steps may come in any order. A put is checked without the lock and
admitted under it; a close holds the lock from its first step, which takes the resident set, to its
second, which sets the flag. Every other operation is one step. -/
structure Clients (nominate : Nomination) where
  clients : List Client
  cache : Cache nominate
  /-- Held for a close of the client at this place, which has taken this resident set. -/
  lock : Option (Nat × Resident) := none
  /-- The calls that have returned, the latest last. -/
  log : List Call := []

namespace Clients

def start (c : Cache nominate) (programs : List (List Operation)) : Clients nominate where
  clients := programs.map fun todo => { todo }
  cache := c

/-- A call of the client at `place` returns. -/
def answer (s : Clients nominate) (place : Nat) (client : Client) (op : Operation)
    (t : Step nominate Reply) : Clients nominate :=
  { s with
    clients := s.clients.set place client
    cache := t.cache
    log := s.log ++ [⟨place, op, t.outcome⟩] }

/-- The next step of a client that need not wait. -/
def proceed (s : Clients nominate) (place : Nat) (client : Client) : Clients nominate :=
  match client.checked, client.todo with
  | some (key, payload), todo =>
    s.answer place { todo } (.put key payload) ((s.cache.accept key payload).map fun _ => .done)
  | none, [] => s
  | none, .put key payload :: todo =>
    let t := s.cache.check key payload.size
    match t.result with
    | .ok () =>
      { s with clients := s.clients.set place { checked := some (key, payload), todo }
               cache := t.cache }
    | .error _ => s.answer place { todo } (.put key payload) (t.map fun _ => .done)
  | none, .close :: todo =>
    match s.cache.resident with
    | none => s.answer place { todo } .close s.cache.refuseClosed
    | some r =>
      { s with clients := s.clients.set place { todo }
               cache := { s.cache with resident := none }
               lock := some (place, r) }
  | none, op :: todo => s.answer place { todo } op (s.cache.perform op)

/-- The client at `place` makes its next step, unless it has to wait for the lock. -/
def turn (s : Clients nominate) (place : Nat) : Clients nominate :=
  match s.clients[place]? with
  | none => s
  | some client =>
    match s.lock with
    | none => s.proceed place client
    | some (holder, r) =>
      if holder = place then
        { s.answer place client .close ((s.cache.finishClose r).map fun _ => .done) with
          lock := none }
      else if client.waits then s
      else s.proceed place client

/-- The turns in the order of a schedule, which names the client of each. -/
def run (s : Clients nominate) (schedule : List Nat) : Clients nominate := schedule.foldl turn s

/-- The operations of all calls that have returned, in the order in which they did. -/
def operations (s : Clients nominate) : List Operation := s.log.map (·.operation)

/-- Those of the calls that the client at `place` made. -/
def operationsOf (s : Clients nominate) (place : Nat) : List Operation :=
  (s.log.filter (·.place = place)).map (·.operation)

/-- The operations that the client at `place` has still to finish. -/
def pendingOf (s : Clients nominate) (place : Nat) : List Operation :=
  (if s.lock.any (·.1 = place) then [.close] else []) ++
    ((s.clients[place]?).map Client.calls).getD []

end Clients

end LedgerCache
