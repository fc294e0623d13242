import LedgerCache.Budget
import LedgerCache.Event
import LedgerCache.Nomination
import LedgerCache.Payload

namespace LedgerCache

structure Entry where
  payload : Payload
  /-- The stamp under which the order of admission tracks the entry. -/
  stamp : Nat
  deriving DecidableEq, Repr

/-- What an entry is charged. -/
def Entry.size (e : Entry) : Nat := e.payload.size

abbrev Index := Std.TreeMap Key Entry

/-- The entries, the order in which they were admitted and the budget that they are charged to. -/
structure Resident where
  index : Index := ∅
  order : AdmissionOrder
  budget : Budget

/-- A change to the resident set with what it emitted and told the policy. After a fault it goes no
further, and what was changed before stays. -/
structure Change where
  resident : Resident
  events : Array Event := #[]
  calls : Array PolicyCall := #[]
  fault : Option Fault := none

def Change.andThen : Change → (Resident → Change) → Change
  | ⟨resident, events, calls, none⟩, next =>
    let d := next resident
    { d with events := events ++ d.events, calls := calls ++ d.calls }
  | c, _ => c

namespace Resident

/-- Nothing is resident; the keys that the order tracked are forgotten. -/
def empty (capacity : Nat) (order : AdmissionOrder) : Resident :=
  { order := order.clear, budget := { capacity } }

/-- The resident keys of `owner` with a sequence from `first` to `last`, in ascending order: looked
up one by one, or picked from the index if it holds fewer. -/
def keysOf (r : Resident) (owner first last : Int64) : List Key :=
  let span := (last.toInt - first.toInt + 1).toNat
  if span ≤ r.index.size then
    ((List.range span).map fun n : Nat => Key.mk owner (Int64.ofInt (first.toInt + n))).filter
      r.index.contains
  else r.index.keys.filter fun k => k.owner = owner ∧ first ≤ k.sequence ∧ k.sequence ≤ last

theorem mem_keysOf (r : Resident) (owner first last : Int64) (k : Key) :
    k ∈ r.keysOf owner first last ↔
      k ∈ r.index ∧ k.owner = owner ∧ first ≤ k.sequence ∧ k.sequence ≤ last := by
  simp only [keysOf]
  split
  · simp only [List.mem_filter, List.mem_map, List.mem_range, Std.TreeMap.contains_iff_mem]
    constructor
    · rintro ⟨⟨n, hn, rfl⟩, hk⟩
      have hf := first.le_toInt
      have hl := last.toInt_lt
      have hs : (Int64.ofInt (first.toInt + n)).toInt = first.toInt + n :=
        Int64.toInt_ofInt_of_le (by omega) (by omega)
      refine ⟨hk, rfl, ?_, ?_⟩ <;> rw [Int64.le_iff_toInt_le, hs] <;> omega
    · rintro ⟨hk, rfl, hf, hl⟩
      rw [Int64.le_iff_toInt_le] at hf hl
      refine ⟨⟨(k.sequence.toInt - first.toInt).toNat, by omega, ?_⟩, hk⟩
      have hd : first.toInt + (k.sequence.toInt - first.toInt).toNat = k.sequence.toInt := by omega
      rw [hd, Int64.ofInt_toInt]
  · simp [List.mem_filter]

/-- What the entry under `key` would give back, if there is one. -/
def sizeAt (r : Resident) (key : Key) : Nat := (r.index[key]?.map Entry.size).getD 0

/-- Takes nominees, beside the victims taken so far, until `size` fits into `room` and what they
give back. A nominee that is not resident is passed over, and so is `key`, whose room is counted
already. -/
def collect (r : Resident) (key : Key) (size : Nat) :
    Nominees → Nat → Array Key → Except Fault (Option (List Key))
  | .none, _, _ => .ok none
  | .next k rest, room, victims =>
    if k = key then r.collect key size (rest ()) room victims
    else match r.index[k]? with
      | none => r.collect key size (rest ()) room victims
      | some e =>
        match checkedAdd room e.size with
        | .error f => .error f
        | .ok room =>
          if size ≤ room then .ok (some (victims.push k).toList)
          else r.collect key size (rest ()) room (victims.push k)

/-- The entries to evict so that `size` bytes fit under `key`, or nothing if the nominees run out. A
replaced entry gives its bytes back without being a victim. -/
def plan (r : Resident) (nominate : Nomination) (key : Key) (size : Nat) :
    Except Fault (Option (List Key)) :=
  match checkedAdd r.budget.available (r.sizeAt key) with
  | .error f => .error f
  | .ok room =>
    if size ≤ room then .ok (some []) else r.collect key size (nominate r.order) room #[]

/-- Takes the entry under `key` out, from the index, the order and the budget. -/
def remove (r : Resident) (key : Key) : Change :=
  match r.index[key]? with
  | none => { resident := r }
  | some e =>
    let r := { r with index := r.index.erase key, order := r.order.forget e.stamp }
    match r.budget.release e.size with
    | .error f => { resident := r, calls := #[.forgotten e.stamp], fault := some f }
    | .ok budget => { resident := { r with budget }, calls := #[.forgotten e.stamp] }

/-- Removes a victim and reports it. -/
def evict (r : Resident) (key : Key) : Change :=
  let c := r.remove key
  match r.index[key]?, c.fault with
  | some e, none => { c with events := #[.evicted key e.size] }
  | _, _ => c

/-- Evicts one victim after another, up to a fault. -/
def evictAll (r : Resident) (victims : List Key) : Change :=
  victims.foldl (fun c k => c.andThen (·.evict k)) { resident := r }

/-- Stores the payload under `key`, as the newest entry. -/
def store (r : Resident) (key : Key) (payload : Payload) : Change :=
  match r.order.push key with
  | .error f => { resident := r, fault := some f }
  | .ok (stamp, order) =>
    let r := { r with order }
    match r.budget.charge payload.size with
    | .error f => { resident := r, calls := #[.admitted key stamp], fault := some f }
    | .ok budget =>
      let r := { r with budget, index := r.index.insert key ⟨payload, stamp⟩ }
      { resident := r, calls := #[.admitted key stamp],
        fault := if r.order.size = r.index.size then none
          else some (.lengthsDiffer r.order.size r.index.size) }

/-- Replaces, evicts and stores, in this order. -/
def accept (r : Resident) (key : Key) (payload : Payload) (victims : List Key) : Change :=
  ((r.remove key).andThen (·.evictAll victims)).andThen (·.store key payload)

end Resident

end LedgerCache
