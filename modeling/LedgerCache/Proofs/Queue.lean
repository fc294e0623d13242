import LedgerCache.Proofs.Runs

namespace LedgerCache

open Std

/-- The pairs that are held, oldest put first, and what was counted. -/
structure Queue where
  capacity : UInt64
  pairs : List (Key × Payload) := []
  hits : UInt64 := 0
  misses : UInt64 := 0
  evictions : UInt64 := 0
  rejections : UInt64 := 0
  closed : Bool := false

namespace Queue

/-- What an operation answers, the queue it leaves and the pairs it drops. -/
structure Answer where
  reply : Except Failure Reply
  queue : Queue
  dropped : List (Key × Payload) := []

def bytes (q : Queue) : Nat := (q.pairs.map fun x => x.2.size).sum

def stats (q : Queue) : Stats where
  hits := q.hits
  misses := q.misses
  evictions := q.evictions
  rejections := q.rejections
  totalEntries := UInt64.ofNat q.pairs.length
  usedBytes := UInt64.ofNat q.bytes
  capacityBytes := q.capacity

def reject (q : Queue) (e : Error) : Answer :=
  ⟨.error (.refused e), { q with rejections := q.rejections + 1 }, []⟩

/-- The other pairs, and how many of them have to go so that the rest and `size` bytes fit. -/
def others (q : Queue) (key : Key) : List (Key × Payload) := q.pairs.filter fun x => x.1 ≠ key

def overdue (q : Queue) (key : Key) (size : Nat) : Nat :=
  excess (q.capacity.toNat - size) ((q.others key).map fun x => x.2.size)

/-- The overdue pairs are the shortest prefix that makes enough room. -/
theorem overdue_le_iff (q : Queue) (key : Key) (size n : Nat) (hsize : size ≤ q.capacity.toNat) :
    q.overdue key size ≤ n ↔
      (((q.others key).drop n).map fun x => x.2.size).sum + size ≤ q.capacity.toNat := by
  have h := lt_excess_iff (q.capacity.toNat - size) n ((q.others key).map fun x => x.2.size)
  rw [← List.map_drop] at h
  rw [overdue]
  omega

/-- The pair joins at the back, once its key and the overdue pairs are out. -/
def admission (q : Queue) (key : Key) (payload : Payload) : Answer :=
  let dropped := (q.others key).take (q.overdue key payload.size)
  let kept := (q.others key).drop (q.overdue key payload.size)
  { reply := .ok .done
    queue :=
      { q with
        pairs := kept ++ [(key, payload)]
        evictions := q.evictions + UInt64.ofNat dropped.length }
    dropped }

def put (q : Queue) (key : Key) (payload : Payload) : Answer :=
  if key.owner < 0 then q.reject (.negativeOwner key)
  else if payload.size = 0 then q.reject .emptyPayload
  else if q.capacity.toNat < payload.size then
    q.reject (.oversizedPayload payload.size q.capacity.toNat)
  else q.admission key payload

def get (q : Queue) (key : Key) : Answer :=
  match q.pairs.lookup key with
  | some payload => ⟨.ok (.view (some payload)), { q with hits := q.hits + 1 }, []⟩
  | none => ⟨.ok (.view none), { q with misses := q.misses + 1 }, []⟩

/-- A closed queue refuses instead. -/
def unlessClosed (q : Queue) (a : Answer) : Answer :=
  if q.closed then ⟨.error (.refused .closed), q, []⟩ else a

def perform (q : Queue) : Operation → Answer
  | .capacity => ⟨.ok (.number q.capacity.toNat), q, []⟩
  | .isClosed => ⟨.ok (.flag q.closed), q, []⟩
  | .put key payload => q.unlessClosed (q.put key payload)
  | .get key => q.unlessClosed (q.get key)
  | .has key => q.unlessClosed ⟨.ok (.flag (q.pairs.lookup key).isSome), q, []⟩
  | .count => q.unlessClosed ⟨.ok (.number q.pairs.length), q, []⟩
  | .size => q.unlessClosed ⟨.ok (.number q.bytes), q, []⟩
  | .stats => q.unlessClosed ⟨.ok (.stats q.stats), q, []⟩
  | .close => q.unlessClosed ⟨.ok .done, { q with pairs := [], closed := true }, []⟩

def run (q : Queue) : List Operation → List Answer
  | [] => []
  | op :: ops =>
    let a := q.perform op
    a :: a.queue.run ops

end Queue

/-- The keys and sizes of the entries that a step reports as evicted. -/
def Step.evicted {nominate : Nomination} {α : Type} (s : Step nominate α) : List (Key × Nat) :=
  s.events.filterMap fun
    | .evicted key bytes => some (key, bytes)
    | _ => none

/-- The step answers as the queue does and leaves the same pairs and counts. -/
structure Step.Matches (s : Step .oldestFirst Reply) (a : Queue.Answer) : Prop where
  result : s.result = a.reply
  evicted : s.evicted = a.dropped.map fun x => (x.1, x.2.size)
  stats : (s.cache.perform .stats).result = (a.queue.perform .stats).reply
  victims : ∀ r, s.cache.resident = some r →
    (Nomination.oldestFirst r.order).toList = a.queue.pairs.map (·.1)
  distinct : (a.queue.pairs.map (·.1)).Nodup

namespace Resident

/-- The resident keys with their payloads, oldest admission first. -/
def pairs (r : Resident) : List (Key × Payload) := r.entries.map fun x => (x.1, x.2.payload)

theorem keys_pairs (r : Resident) : r.pairs.map (·.1) = r.entries.map (·.1) := by
  simp [pairs]

theorem map_size_pairs (r : Resident) :
    (r.pairs.map fun x => x.2.size) = r.entries.map fun x => x.2.size := by
  simp [pairs, Entry.size]

theorem length_pairs (r : Resident) : r.pairs.length = r.entries.length := by simp [pairs]

theorem Sound.lookup_pairs {r : Resident} (hs : r.Sound) (key : Key) :
    r.pairs.lookup key = r.index[key]?.map (·.payload) := by
  cases he : r.index[key]? with
  | none =>
    apply List.lookup_eq_none_iff.2
    intro x hx
    obtain ⟨⟨k, e⟩, hmem, rfl⟩ := List.mem_map.1 hx
    have hk := (hs.mem_entries k e).1 hmem
    simp only [bne_iff_ne]
    rintro rfl
    rw [he] at hk
    cases hk
  | some e =>
    obtain ⟨before, behind, hsplit⟩ := List.append_of_mem ((hs.mem_entries key e).2 he)
    have hkeys := hs.nodup_keys
    rw [hsplit, List.map_append, List.map_cons, List.nodup_append] at hkeys
    refine List.lookup_eq_some_iff.2 ⟨before.map fun x => (x.1, x.2.payload),
      behind.map fun x => (x.1, x.2.payload), by simp [pairs, hsplit], fun x hx => ?_⟩
    obtain ⟨y, hy, rfl⟩ := List.mem_map.1 hx
    have hne := hkeys.2.2 _ (List.mem_map_of_mem (f := (·.1)) hy) key (List.mem_cons_self)
    exact bne_iff_ne.2 (Ne.symm hne)

theorem Sound.pairs_without {r : Resident} (hs : r.Sound) (key : Key) :
    (r.without key).pairs = r.pairs.filter fun x => x.1 ≠ key := by
  rw [pairs, pairs, hs.entries_without, List.filter_map]
  rfl

end Resident

namespace Cache

/-- The queue holds what the cache holds and has counted the same. -/
structure Agrees (c : Cache .oldestFirst) (q : Queue) : Prop where
  capacity : q.capacity = c.capacity
  closed : q.closed = c.closed
  pairs : q.pairs = (c.resident.map Resident.pairs).getD []
  hits : q.hits = c.counters.hits
  misses : q.misses = c.counters.misses
  evictions : q.evictions = c.counters.evictions
  rejections : q.rejections = c.counters.rejections

namespace Agrees

variable {c : Cache .oldestFirst} {q : Queue} {r : Resident}

theorem pairs_of_holds (h : c.Agrees q) (hr : c.Holds r) : q.pairs = r.pairs := by
  rw [h.pairs, hr.resident]
  rfl

theorem bytes_of_holds (h : c.Agrees q) (hr : c.Holds r) : q.bytes = r.budget.used := by
  rw [Queue.bytes, h.pairs_of_holds hr, r.map_size_pairs, hr.sound.sum_entries]

theorem length_of_holds (h : c.Agrees q) (hr : c.Holds r) : q.pairs.length = r.index.size := by
  rw [h.pairs_of_holds hr, r.length_pairs, hr.sound.length_entries]

theorem lookup_of_holds (h : c.Agrees q) (hr : c.Holds r) (key : Key) :
    q.pairs.lookup key = r.index[key]?.map (·.payload) := by
  rw [h.pairs_of_holds hr, hr.sound.lookup_pairs]

end Agrees

/-- What a step and the queue have in common. -/
structure Follows (s : Step .oldestFirst Reply) (a : Queue.Answer) : Prop where
  result : s.result = a.reply
  evicted : s.evicted = a.dropped.map fun x => (x.1, x.2.size)
  agrees : s.cache.Agrees a.queue

namespace Agrees

variable {c : Cache .oldestFirst} {q : Queue} {r : Resident}

theorem unlessClosed_of_holds (h : c.Agrees q) (hr : c.Holds r) (a : Queue.Answer) :
    q.unlessClosed a = a := by
  rw [Queue.unlessClosed, if_neg (by simp [h.closed, hr.not_closed])]

theorem follows_refused (h : c.Agrees q) (hq : q.closed = true) {α : Type} (f : α → Reply)
    (a : Queue.Answer) : Follows (c.refuseClosed.map f) (q.unlessClosed a) := by
  rw [Queue.unlessClosed, if_pos hq]
  exact ⟨rfl, rfl, h⟩

/-- After a close both refuse everything but to name the capacity and the close. -/
theorem follows_of_closed (h : c.Agrees q) (hr : c.resident = none) (hc : c.closed = true)
    (op : Operation) : Follows (c.perform op) (q.perform op) := by
  have hq : q.closed = true := h.closed.trans hc
  cases op with
  | capacity => exact ⟨by simp [perform, Queue.perform, h.capacity], rfl, h⟩
  | isClosed => exact ⟨by simp [perform, Queue.perform, h.closed], rfl, h⟩
  | put key payload =>
    rw [perform, put_of_closed hc]
    exact h.follows_refused hq _ _
  | get key =>
    rw [perform, get, hr]
    exact h.follows_refused hq _ _
  | has key =>
    rw [perform, has, query, hr]
    exact h.follows_refused hq _ _
  | count =>
    rw [perform, count, query, hr]
    exact h.follows_refused hq _ _
  | size =>
    rw [perform, size, query, hr]
    exact h.follows_refused hq _ _
  | stats =>
    rw [perform, stats, query, hr]
    exact h.follows_refused hq _ _
  | close =>
    rw [perform, close, hr]
    exact h.follows_refused hq _ _

theorem follows_get (h : c.Agrees q) (hr : c.Holds r) (key : Key) :
    Follows ((c.get key).map .view) (q.get key) := by
  rw [get, hr.resident, Queue.get, h.lookup_of_holds hr key]
  cases he : r.index[key]? with
  | none =>
    simp only [he, Option.map_none]
    exact ⟨rfl, rfl, { h with
      pairs := h.pairs_of_holds hr
      misses := congrArg (· + 1) h.misses }⟩
  | some e =>
    simp only [he, Option.map_some]
    exact ⟨rfl, rfl, { h with
      pairs := h.pairs_of_holds hr
      hits := congrArg (· + 1) h.hits }⟩

/-- A read of both gives the same and changes none. -/
theorem follows_query (h : c.Agrees q) (hr : c.Holds r) {α : Type} {f : Resident → α}
    {g : α → Reply} {reply : Reply} (hreply : g (f r) = reply) :
    Follows ((c.query f).map g) (q.unlessClosed ⟨.ok reply, q, []⟩) := by
  rw [query, hr.resident, h.unlessClosed_of_holds hr, ← hreply]
  exact ⟨rfl, rfl, h⟩

theorem follows_read (h : c.Agrees q) (hr : c.Holds r) {op : Operation}
    (hop : op.changes = false) : Follows (c.perform op) (q.perform op) := by
  cases op with
  | put => cases hop
  | close => cases hop
  | capacity => exact ⟨by simp [perform, Queue.perform, h.capacity], rfl, h⟩
  | isClosed => exact ⟨by simp [perform, Queue.perform, h.closed], rfl, h⟩
  | get key =>
    rw [perform, Queue.perform, h.unlessClosed_of_holds hr]
    exact h.follows_get hr key
  | has key =>
    apply h.follows_query hr
    rw [h.lookup_of_holds hr, Option.isSome_map, TreeMap.contains_eq_isSome_getElem?]
  | count =>
    apply h.follows_query hr
    rw [h.length_of_holds hr]
  | size =>
    apply h.follows_query hr
    rw [h.bytes_of_holds hr]
  | stats =>
    apply h.follows_query hr
    rw [Queue.stats, h.hits, h.misses, h.evictions, h.rejections, h.length_of_holds hr,
      h.bytes_of_holds hr, h.capacity]
    rfl

theorem follows_reject (h : c.Agrees q) (key : Key) (e : Error) :
    Follows ((c.reject key e : Step _ Unit).map fun _ => .done) (q.reject e) where
  result := rfl
  evicted := rfl
  agrees := { h with rejections := congrArg (· + 1) h.rejections }

theorem put_of_objection (h : c.Agrees q) (hr : c.Holds r) {key : Key} {payload : Payload}
    {e : Error} (he : c.objection key payload.size = some e) : q.put key payload = q.reject e := by
  rw [objection, hr.not_closed] at he
  rw [Queue.put, h.capacity]
  simp only [Bool.false_eq_true, if_false] at he
  split_ifs at he ⊢ <;> cases he <;> rfl

theorem put_of_no_objection (h : c.Agrees q) (hr : c.Holds r) {key : Key} {payload : Payload}
    (hv : c.objection key payload.size = none) :
    q.put key payload = q.admission key payload := by
  obtain ⟨howner, hsize, hle⟩ := (hr.objection_eq_none_iff _ _).1 hv
  have hcapacity : payload.size ≤ q.capacity.toNat := by rwa [h.capacity, ← hr.capacity]
  rw [Queue.put, if_neg (Int64.not_lt.2 howner), if_neg (by omega), if_neg (by omega)]

theorem others_of_holds (h : c.Agrees q) (hr : c.Holds r) (key : Key) :
    q.others key = (r.without key).pairs := by
  rw [Queue.others, h.pairs_of_holds hr, hr.sound.pairs_without]

theorem overdue_of_holds (h : c.Agrees q) (hr : c.Holds r) (key : Key) (size : Nat) :
    q.overdue key size = r.surplus key size := by
  rw [Queue.overdue, Resident.surplus, h.others_of_holds hr, Resident.map_size_pairs, h.capacity,
    hr.capacity]

theorem follows_admission (h : c.Agrees q) (hr : c.Holds r) {key : Key} {payload : Payload}
    (hv : c.objection key payload.size = none)
    (hfits : payload.size ≤ (r.cleared key (r.oldest key payload.size)).budget.available) :
    Follows ((c.admission r key payload (r.oldest key payload.size)).map fun _ => .done)
      (q.admission key payload) := by
  have hothers := h.others_of_holds hr key
  have hoverdue := h.overdue_of_holds hr key payload.size
  have hholds := hr.admission_holds hv hfits
  have hkey := r.index_cleared_self key (r.oldest key payload.size)
  have hentries := (hr.sound.cleared key _).entries_stored hkey hholds.sound
  rw [hr.sound.entries_cleared_oldest] at hentries
  constructor
  case result => rfl
  case evicted =>
    simp only [Step.evicted, Step.events_map, admission, Queue.admission, hothers, hoverdue,
      hr.sound.leaving_oldest, Resident.evictions, List.filterMap_map, Resident.pairs]
    simp [Function.comp_def, Entry.size]
  case agrees =>
    refine { h with pairs := ?_, evictions := ?_ }
    · simp only [Queue.admission, admission, Step.cache_map, hothers, hoverdue, Option.map_some,
        Option.getD_some, Resident.pairs, hentries, List.map_append, List.map_drop, List.map_cons,
        List.map_nil]
    · simp only [Queue.admission, admission, Step.cache_map, Counters.evict, h.evictions, hothers,
        hoverdue, Resident.oldest, Resident.pairs, List.length_take, List.length_map]

theorem follows_put (h : c.Agrees q) (hr : c.Holds r) {key : Key} {payload : Payload}
    (hnext : c.admits (.put key payload) → r.order.next + 1 < wordLimit) :
    Follows ((c.put key payload).map fun _ => .done) (q.put key payload) := by
  cases hv : c.objection key payload.size with
  | some e =>
    rw [Cache.put_of_objection hr.not_closed hv, h.put_of_objection hr hv]
    exact h.follows_reject key e
  | none =>
    obtain ⟨hfits, -, hput⟩ := hr.put_oldestFirst hv (hnext (hr.admits_oldestFirst hv))
    rw [hput, h.put_of_no_objection hr hv]
    exact h.follows_admission hr hv hfits

theorem follows_close (h : c.Agrees q) (hr : c.Holds r) :
    Follows (c.perform .close) (q.perform .close) := by
  rw [perform, hr.close_eq, Queue.perform, h.unlessClosed_of_holds hr]
  exact ⟨rfl, rfl, { h with closed := rfl, pairs := rfl }⟩

/-- One operation keeps a sound cache and its queue in agreement. -/
theorem follows (h : c.Agrees q) (hs : c.Sound) {op : Operation} {ops : List Operation}
    (hb : c.Bounded (op :: ops)) : Follows (c.perform op) (q.perform op) := by
  rcases hs with ⟨hnone, hc⟩ | ⟨r, hr⟩
  · exact h.follows_of_closed hnone hc op
  by_cases hop : op.changes = false
  · exact h.follows_read hr hop
  cases op with
  | put key payload =>
    rw [perform, Queue.perform, h.unlessClosed_of_holds hr]
    exact h.follows_put hr (hb.admits hr.resident)
  | close => exact h.follows_close hr
  | _ => exact absurd rfl hop

end Agrees

theorem Follows.matches {s : Step .oldestFirst Reply} {a : Queue.Answer} (h : Follows s a)
    (hs : s.cache.Sound) : s.Matches a := by
  rcases hs with ⟨hnone, hc⟩ | ⟨r, hr⟩
  · have hpairs : a.queue.pairs = [] := by rw [h.agrees.pairs, hnone]; rfl
    constructor
    case result => exact h.result
    case evicted => exact h.evicted
    case stats => exact (h.agrees.follows_of_closed hnone hc .stats).result
    case victims =>
      intro r hr
      rw [hnone] at hr
      cases hr
    case distinct => simp [hpairs]
  · have hkeys : a.queue.pairs.map (·.1) = r.entries.map (·.1) := by
      rw [h.agrees.pairs_of_holds hr, r.keys_pairs]
    constructor
    case result => exact h.result
    case evicted => exact h.evicted
    case stats =>
      have hstats : Follows (s.cache.perform .stats) (a.queue.perform .stats) :=
        h.agrees.follows_read hr rfl
      exact hstats.result
    case victims =>
      intro r' hr'
      rw [hr.eq_of_resident hr', hkeys, ← hr.sound.keys_eq]
      exact r.order.toList_nominees
    case distinct =>
      rw [hkeys]
      exact hr.sound.nodup_keys

theorem Agrees.matches_run {capacity : UInt64} {c : Cache .oldestFirst} {q : Queue}
    {ops : List Operation} (h : c.Agrees q) (hr : Ready capacity c ops) :
    List.Forall₂ Step.Matches (c.run ops) (q.run ops) := by
  induction ops generalizing c q with
  | nil => exact .nil
  | cons op ops ih =>
    have hclean := hr.sound.clean_perform Nomination.namesOnce_oldestFirst hr.bounded
    have hnext := hr.perform hclean
    have hfollows := h.follows hr.sound hr.bounded
    exact .cons (hfollows.matches hnext.sound) (ih hfollows.agrees hnext)

/-- First in, first out, a cache is a queue: each call of a run is answered as the queue answers it,
evicts what the queue drops and leaves what the queue holds. -/
theorem run_matches_queue (capacity : UInt64) (ops : List Operation) (hc : 0 < capacity) :
    ∃ start, create .oldestFirst capacity = .ok start ∧
      (start.cache.admissions ops < wordLimit →
        List.Forall₂ Step.Matches (start.cache.run ops) (Queue.run { capacity } ops)) := by
  refine ⟨_, create_eq hc {}, fun hn => ?_⟩
  have hready := ready_opened capacity ops hn
  have hagrees : (opened .oldestFirst capacity).Agrees { capacity } :=
    ⟨rfl, rfl, rfl, rfl, rfl, rfl, rfl⟩
  exact hagrees.matches_run hready

/-- A replacement in the middle that evicts, a hit, a miss, a refusal and a call behind the close. -/
theorem run_matches_queue_of_ten :
    let ops : List Operation := [.put ⟨1, 0⟩ #[7], .put ⟨1, 1⟩ #[8, 8], .put ⟨1, 2⟩ #[9],
      .put ⟨1, 1⟩ #[5, 5, 5], .get ⟨1, 2⟩, .get ⟨1, 0⟩, .put ⟨-1, 0⟩ #[4], .stats, .close, .size]
    let figures : Stats :=
      { hits := 1, misses := 1, evictions := 1, rejections := 1, totalEntries := 2, usedBytes := 4,
        capacityBytes := 4 }
    (0 : UInt64) < 4 ∧ (opened .oldestFirst 4).admissions ops = 4 ∧
      (Queue.run { capacity := 4 } ops).map (·.reply) =
        [.ok .done, .ok .done, .ok .done, .ok .done, .ok (.view (some #[9])), .ok (.view none),
          .error (.refused (.negativeOwner ⟨-1, 0⟩)), .ok (.stats figures), .ok .done,
          .error (.refused .closed)] ∧
      (Queue.run { capacity := 4 } ops).flatMap (·.dropped) = [(⟨1, 0⟩, #[7])] ∧
      List.Forall₂ Step.Matches ((opened .oldestFirst 4).run ops)
        (Queue.run { capacity := 4 } ops) := by
  intro ops figures
  have hn : (opened .oldestFirst 4).admissions ops = 4 := by decide +kernel
  obtain ⟨start, hstart, hrun⟩ := run_matches_queue 4 ops (by decide)
  rw [create_eq (by decide)] at hstart
  cases hstart
  exact ⟨by decide, hn, by decide +kernel, by decide +kernel, hrun (hn ▸ by decide)⟩

end Cache

end LedgerCache
