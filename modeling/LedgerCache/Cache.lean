import LedgerCache.Resident

namespace LedgerCache

/-- A cache whose evictions follow `nominate`. The flag tells puts of a close before they look at
the resident set; every other operation looks at the set. -/
structure Cache (nominate : Nomination) where
  capacity : UInt64
  closed : Bool := false
  resident : Option Resident
  counters : Counters := {}

/-- What an operation answers, the cache it leaves, the events it emits and the calls it makes on
the policy. -/
structure Step (nominate : Nomination) (α : Type) where
  result : Except Failure α
  cache : Cache nominate
  events : List Event := []
  calls : List PolicyCall := []

namespace Step

variable {nominate : Nomination} {α β : Type}

def map (f : α → β) (s : Step nominate α) : Step nominate β := { s with result := s.result.map f }

@[simp] theorem cache_map (f : α → β) (s : Step nominate α) : (s.map f).cache = s.cache := rfl

@[simp] theorem events_map (f : α → β) (s : Step nominate α) : (s.map f).events = s.events := rfl

@[simp] theorem calls_map (f : α → β) (s : Step nominate α) : (s.map f).calls = s.calls := rfl

/-- Goes on with the cache that `s` leaves, unless `s` failed. -/
def andThen (s : Step nominate α) (next : α → Cache nominate → Step nominate β) :
    Step nominate β :=
  match s.result with
  | .error f => { s with result := .error f }
  | .ok a =>
    let t := next a s.cache
    { t with events := s.events ++ t.events, calls := s.calls ++ t.calls }

end Step

namespace Cache

variable {nominate : Nomination}

/-- A new cache over a policy in any state, whose keys are forgotten first. -/
def create (nominate : Nomination) (capacity : UInt64) (order : AdmissionOrder := {}) :
    Except Error (Step nominate Unit) :=
  if capacity = 0 then .error (.invalidCapacity 0)
  else .ok
    { result := .ok ()
      cache := { capacity, resident := some (.empty capacity.toNat order) }
      events := [.cacheCreated capacity]
      calls := [.cleared] }

/-- An operation that is refused since the cache is closed. -/
def refuseClosed {α : Type} (c : Cache nominate) : Step nominate α :=
  ⟨.error (.refused .closed), c, [], []⟩

/-- Reads the resident set and changes nothing. -/
def query {α : Type} (c : Cache nominate) (f : Resident → α) : Step nominate α :=
  match c.resident with
  | none => c.refuseClosed
  | some r => ⟨.ok (f r), c, [], []⟩

@[simp] theorem cache_query {α : Type} (c : Cache nominate) (f : Resident → α) :
    (c.query f).cache = c := by
  unfold query; split <;> rfl

@[simp] theorem events_query {α : Type} (c : Cache nominate) (f : Resident → α) :
    (c.query f).events = [] := by
  unfold query; split <;> rfl

@[simp] theorem calls_query {α : Type} (c : Cache nominate) (f : Resident → α) :
    (c.query f).calls = [] := by
  unfold query; split <;> rfl

/-- Why a put of `size` bytes is refused before it looks at the resident set. -/
def objection (c : Cache nominate) (key : Key) (size : Nat) : Option Error :=
  if c.closed then some .closed
  else if key.owner < 0 then some (.negativeOwner key)
  else if size = 0 then some .emptyPayload
  else if c.capacity.toNat < size then some (.oversizedPayload size c.capacity.toNat)
  else none

/-- Counts and reports a put that is refused. -/
def reject {α : Type} (c : Cache nominate) (key : Key) (e : Error) : Step nominate α where
  result := .error (.refused e)
  cache := { c with counters := c.counters.reject }
  events := [.putRejected key e]

/-- The first half of a put. -/
def check (c : Cache nominate) (key : Key) (size : Nat) : Step nominate Unit :=
  match c.objection key size with
  | none => ⟨.ok (), c, [], []⟩
  | some .closed => c.refuseClosed
  | some e => c.reject key e

/-- The second half of a put, for a put that was checked. -/
def accept (c : Cache nominate) (key : Key) (payload : Payload) : Step nominate Unit :=
  match c.resident with
  | none => c.refuseClosed
  | some r =>
    match r.plan nominate key payload.size with
    | .error f => ⟨.error (.fault f), c, [], []⟩
    | .ok none => c.reject key (.noRoom payload.size r.budget.available)
    | .ok (some victims) =>
      let change := r.accept key payload victims
      let c := { c with resident := some change.resident }
      match change.fault with
      | some f => ⟨.error (.fault f), c, change.events.toList, change.calls.toList⟩
      | none =>
        let counters := c.counters.evict (UInt64.ofNat victims.length)
        ⟨.ok (), { c with counters }, change.events.toList, change.calls.toList⟩

/-- Stores the payload under `key`; whether the caller's bytes are copied makes no difference. -/
def put (c : Cache nominate) (key : Key) (payload : Payload) : Step nominate Unit :=
  (c.check key payload.size).andThen fun _ c => c.accept key payload

/-- The payload under exactly this key, which may have ids of any sign. -/
def get (c : Cache nominate) (key : Key) : Step nominate (Option Payload) :=
  match c.resident with
  | none => c.refuseClosed
  | some r =>
    match r.index[key]? with
    | some e => ⟨.ok (some e.payload), { c with counters := c.counters.hit }, [], []⟩
    | none => ⟨.ok none, { c with counters := c.counters.miss }, [], []⟩

/-- Whether an entry is resident; this counts as no lookup. -/
def has (c : Cache nominate) (key : Key) : Step nominate Bool := c.query (·.index.contains key)

/-- The resident keys, of each owner's sequences from `first` to `last`. With nothing to look up,
not even a closed cache refuses. -/
def scan (c : Cache nominate) (owners : List Int64) (first last : Int64) :
    Step nominate (List Key) :=
  if owners = [] ∨ last < first then ⟨.ok [], c, [], []⟩
  else c.query fun r => owners.flatMap fun owner => r.keysOf owner first last

def count (c : Cache nominate) : Step nominate Nat := c.query (·.index.size)

/-- The resident bytes. -/
def size (c : Cache nominate) : Step nominate Nat := c.query (·.budget.used)

def stats (c : Cache nominate) : Step nominate Stats :=
  c.query fun r =>
    c.counters.snapshot (UInt64.ofNat r.index.size) (UInt64.ofNat r.budget.used) c.capacity

/-- The end of a close that has taken the resident set. -/
def finishClose (c : Cache nominate) (r : Resident) : Step nominate Unit :=
  let c := { c with closed := true }
  if r.order.size = r.index.size then
    ⟨.ok (), c, [.cacheClosed r.index.size r.budget.used], [.cleared]⟩
  else ⟨.error (.fault (.lengthsDiffer r.order.size r.index.size)), c, [], []⟩

/-- Gives up the resident set for good. -/
def close (c : Cache nominate) : Step nominate Unit :=
  match c.resident with
  | none => c.refuseClosed
  | some r => { c with resident := none }.finishClose r

end Cache

end LedgerCache
