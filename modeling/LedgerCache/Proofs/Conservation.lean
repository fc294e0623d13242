import LedgerCache.Proofs.Runs

namespace LedgerCache

open Std

/-- The operations that change nothing at all, not even a count. -/
def Operation.observes : Operation → Bool
  | .put .. | .get _ | .close => false
  | _ => true

/-- One operation of a run and the cache that it met. -/
structure Move (nominate : Nomination) where
  before : Cache nominate
  op : Operation

namespace Move

variable {nominate : Nomination}

def step (m : Move nominate) : Step nominate Reply := m.before.perform m.op

/-- The payload of a put that succeeded. -/
def stored (m : Move nominate) : Option Payload :=
  match m.op, m.step.result with
  | .put _ payload, .ok _ => some payload
  | _, _ => none

/-- The entry that was under the key of a put that succeeded. -/
def replaced (m : Move nominate) : Option Entry :=
  match m.op, m.step.result, m.before.resident with
  | .put key _, .ok _, some r => r.index[key]?
  | _, _, _ => none

/-- The entries under other keys that were gone after a put. -/
def evicted (m : Move nominate) : List (Key × Entry) :=
  match m.op, m.before.resident, m.step.cache.resident with
  | .put key _, some r, some r' => r.departed r' key
  | _, _, _ => []

/-- What a lookup that succeeded found. -/
def found (m : Move nominate) : Option (Option Payload) :=
  match m.op, m.step.result with
  | .get _, .ok (.view v) => some v
  | _, _ => none

/-- Whether a put was refused though the cache was open. -/
def refused (m : Move nominate) : Bool :=
  match m.op, m.step.result with
  | .put .., .error (.refused e) => e ≠ .closed
  | _, _ => false

end Move

theorem filterMap_singleton {α β : Type} (f : α → Option β) (a : α) :
    [a].filterMap f = (f a).toList := by
  cases h : f a <;> simp [h]

/-- The moves of a run, one for each operation. -/
def Cache.moves {nominate : Nomination} (c : Cache nominate) : List Operation → List (Move nominate)
  | [] => []
  | op :: ops => ⟨c, op⟩ :: (c.perform op).cache.moves ops

/-- The statistics after the moves: stored payloads are resident, evicted or replaced, lookups are
hits or misses, and each refusal is counted once. -/
structure Stats.Balances {nominate : Nomination} (s : Stats) (ms : List (Move nominate)) :
    Prop where
  entries : (ms.filterMap Move.stored).length =
    s.totalEntries.toNat + s.evictions.toNat + (ms.filterMap Move.replaced).length
  bytes : ((ms.filterMap Move.stored).map Array.size).sum =
    s.usedBytes.toNat + ((ms.flatMap Move.evicted).map fun x => x.2.size).sum +
      ((ms.filterMap Move.replaced).map Entry.size).sum
  evictions : s.evictions.toNat = (ms.flatMap Move.evicted).length
  lookups : s.hits + s.misses = UInt64.ofNat (ms.filterMap Move.found).length
  hits : s.hits = UInt64.ofNat ((ms.filterMap Move.found).countP Option.isSome)
  rejections : s.rejections = UInt64.ofNat (ms.countP Move.refused)

namespace Resident

theorem sum_toList_index (r : Resident) (key : Key) :
    (r.index[key]?.toList.map Entry.size).sum = r.sizeAt key := by
  rw [sizeAt]
  cases r.index[key]? <;> simp

end Resident

namespace Move

/-! A put that stores its payload, read as a move. -/

variable {nominate : Nomination} {c : Cache nominate} {r : Resident} {key : Key}
  {payload : Payload} {victims : List Key}
  (hstep : c.perform (.put key payload) =
    (c.admission r key payload victims).map fun _ => .done)

include hstep

theorem result_of_admission :
    (⟨c, .put key payload⟩ : Move nominate).step.result = .ok .done := by
  rw [Move.step, hstep]
  rfl

theorem stored_of_admission : (⟨c, .put key payload⟩ : Move nominate).stored = some payload := by
  simp only [Move.stored, result_of_admission hstep]

theorem replaced_of_admission (hr : c.resident = some r) :
    (⟨c, .put key payload⟩ : Move nominate).replaced = r.index[key]? := by
  simp only [Move.replaced, result_of_admission hstep, hr]

theorem evicted_of_admission (hr : c.resident = some r) :
    (⟨c, .put key payload⟩ : Move nominate).evicted.Perm ((r.without key).leaving victims) := by
  simp only [Move.evicted, Move.step, hstep, Cache.admission, Step.cache_map, hr]
  exact r.departed_stored key payload victims

end Move

namespace Cache

variable {nominate : Nomination}

theorem cache_perform_of_observes (c : Cache nominate) {op : Operation} (hop : op.observes) :
    (c.perform op).cache = c := by
  cases op with
  | put => cases hop
  | get => cases hop
  | close => cases hop
  | has k => rw [perform, Step.cache_map, has, cache_query]
  | count => rw [perform, Step.cache_map, count, cache_query]
  | size => rw [perform, Step.cache_map, size, cache_query]
  | stats => rw [perform, Step.cache_map, stats, cache_query]
  | capacity => rfl
  | isClosed => rfl

theorem map_step_moves (c : Cache nominate) (ops : List Operation) :
    (c.moves ops).map Move.step = c.run ops := by
  induction ops generalizing c with
  | nil => rfl
  | cons op ops ih => exact congrArg (c.perform op :: ·) (ih _)

/-- In a run in which nothing fails, each operation meets a sound cache. -/
theorem Sound.moves {c : Cache nominate} (hs : c.Sound) {ops : List Operation}
    (hclean : ∀ s ∈ c.run ops, s.Clean) :
    ∀ m ∈ c.moves ops, m.before.Sound ∧ m.step.Clean := by
  induction ops generalizing c with
  | nil => simp [Cache.moves]
  | cons op ops ih =>
    rw [run, List.forall_mem_cons] at hclean
    rw [Cache.moves, List.forall_mem_cons]
    exact ⟨⟨hs, hclean.1⟩, ih (hs.perform hclean.1).1 hclean.2⟩

/-- The moves account for all the difference between two open caches. -/
structure Accounts (c c' : Cache nominate) (r r' : Resident) (ms : List (Move nominate)) :
    Prop where
  entries : (ms.filterMap Move.stored).length + r.index.size =
    r'.index.size + (ms.flatMap Move.evicted).length + (ms.filterMap Move.replaced).length
  bytes : ((ms.filterMap Move.stored).map Array.size).sum + r.budget.used =
    r'.budget.used + ((ms.flatMap Move.evicted).map fun x => x.2.size).sum +
      ((ms.filterMap Move.replaced).map Entry.size).sum
  evictions : c'.counters.evictions =
    c.counters.evictions + UInt64.ofNat (ms.flatMap Move.evicted).length
  hits : c'.counters.hits =
    c.counters.hits + UInt64.ofNat ((ms.filterMap Move.found).countP Option.isSome)
  misses : c'.counters.misses =
    c.counters.misses + UInt64.ofNat ((ms.filterMap Move.found).countP Option.isNone)
  rejections : c'.counters.rejections =
    c.counters.rejections + UInt64.ofNat (ms.countP Move.refused)

namespace Accounts

variable {c c' c'' : Cache nominate} {r r' r'' : Resident} {ms ms' : List (Move nominate)}

theorem refl (c : Cache nominate) (r : Resident) : c.Accounts c r r [] := by
  constructor <;> simp

theorem trans (h : c.Accounts c' r r' ms) (h' : c'.Accounts c'' r' r'' ms') :
    c.Accounts c'' r r'' (ms ++ ms') := by
  have hentries := h.entries
  have hentries' := h'.entries
  have hbytes := h.bytes
  have hbytes' := h'.bytes
  constructor
  case entries =>
    simp only [List.filterMap_append, List.flatMap_append, List.length_append]
    omega
  case bytes =>
    simp only [List.filterMap_append, List.flatMap_append, List.map_append, List.sum_append]
    omega
  case evictions =>
    rw [h'.evictions, h.evictions, List.flatMap_append, List.length_append, UInt64.ofNat_add,
      UInt64.add_assoc]
  case hits =>
    rw [h'.hits, h.hits, List.filterMap_append, List.countP_append, UInt64.ofNat_add,
      UInt64.add_assoc]
  case misses =>
    rw [h'.misses, h.misses, List.filterMap_append, List.countP_append, UInt64.ofNat_add,
      UInt64.add_assoc]
  case rejections =>
    rw [h'.rejections, h.rejections, List.countP_append, UInt64.ofNat_add, UInt64.add_assoc]

theorem of_move {m : Move nominate}
    (hentries : m.stored.toList.length + r.index.size =
      r'.index.size + m.evicted.length + m.replaced.toList.length)
    (hbytes : (m.stored.toList.map Array.size).sum + r.budget.used =
      r'.budget.used + (m.evicted.map fun x => x.2.size).sum +
        (m.replaced.toList.map Entry.size).sum)
    (hevictions : c'.counters.evictions =
      c.counters.evictions + UInt64.ofNat m.evicted.length)
    (hhits : c'.counters.hits =
      c.counters.hits + UInt64.ofNat (m.found.toList.countP Option.isSome))
    (hmisses : c'.counters.misses =
      c.counters.misses + UInt64.ofNat (m.found.toList.countP Option.isNone))
    (hrejections : c'.counters.rejections =
      c.counters.rejections + UInt64.ofNat m.refused.toNat) : c.Accounts c' r r' [m] := by
  have hevicted : [m].flatMap Move.evicted = m.evicted := by simp
  have hrefused : [m].countP Move.refused = m.refused.toNat := by
    cases h : m.refused <;> simp [h]
  constructor
  case entries => rwa [filterMap_singleton, filterMap_singleton, hevicted]
  case bytes => rwa [filterMap_singleton, filterMap_singleton, hevicted]
  case evictions => rwa [hevicted]
  case hits => rwa [filterMap_singleton]
  case misses => rwa [filterMap_singleton]
  case rejections => rwa [hrefused]

theorem of_observes (c : Cache nominate) (r : Resident) {op : Operation} (hop : op.observes) :
    c.Accounts (c.perform op).cache r r [⟨c, op⟩] := by
  rw [c.cache_perform_of_observes hop]
  cases op with
  | put => cases hop
  | get => cases hop
  | close => cases hop
  | _ =>
    apply of_move <;>
      simp [Move.stored, Move.replaced, Move.evicted, Move.found, Move.refused]

end Accounts

namespace Holds

variable {c : Cache nominate} {r : Resident} {key : Key} {payload : Payload}

theorem accounts_get (h : c.Holds r) (key : Key) :
    c.Accounts (c.perform (.get key)).cache r r [⟨c, .get key⟩] := by
  cases he : r.index[key]? with
  | none =>
    have hget := h.get_of_none he
    apply Accounts.of_move <;> simp [Move.stored, Move.replaced, Move.evicted, Move.found,
      Move.refused, Move.step, perform, hget, Step.map, Except.map, Counters.miss]
  | some e =>
    have hget := h.get_of_some he
    apply Accounts.of_move <;> simp [Move.stored, Move.replaced, Move.evicted, Move.found,
      Move.refused, Move.step, perform, hget, Step.map, Except.map, Counters.hit]

theorem accounts_reject (h : c.Holds r) {e : Error} (he : e ≠ .closed)
    (hstep : c.perform (.put key payload) = c.reject key e) :
    c.Accounts (c.perform (.put key payload)).cache r r [⟨c, .put key payload⟩] := by
  have hdeparted := r.departed_self key
  apply Accounts.of_move <;> simp [Move.stored, Move.replaced, Move.evicted, Move.found,
    Move.refused, Move.step, hstep, reject, Counters.reject, h.resident, hdeparted, he]

theorem accounts_admission (h : c.Holds r) {victims : List Key}
    (hc : r.chosen nominate key payload.size = some victims) (hn : victims.Nodup)
    (hstep : c.perform (.put key payload) =
      (c.admission r key payload victims).map fun _ => .done) :
    c.Accounts (c.perform (.put key payload)).cache r
      ((r.cleared key victims).stored key payload) [⟨c, .put key payload⟩] := by
  have hresult := Move.result_of_admission hstep
  have hstored := Move.stored_of_admission hstep
  have hreplaced := Move.replaced_of_admission hstep h.resident
  have hevicted := Move.evicted_of_admission hstep h.resident
  have hcounters : (c.perform (.put key payload)).cache.counters =
      c.counters.evict (UInt64.ofNat victims.length) := by
    rw [hstep]
    rfl
  apply Accounts.of_move
  case hentries =>
    have hsize := r.size_admitted key payload victims
    rw [hstored, hreplaced, hevicted.length_eq, Option.toList_some, List.length_singleton]
    omega
  case hbytes =>
    have hused := h.sound.used_cleared key victims
    rw [hstored, hreplaced, (hevicted.map _).sum_eq, r.sum_toList_index, Option.toList_some,
      List.map_singleton, List.sum_singleton, Resident.used_stored]
    omega
  case hevictions =>
    rw [hcounters, hevicted.length_eq, Resident.length_leaving_of_chosen hc hn]
    rfl
  case hhits => simp [hcounters, Counters.evict, Move.found]
  case hmisses => simp [hcounters, Counters.evict, Move.found]
  case hrejections => simp [hcounters, Counters.evict, Move.refused, hresult]

/-- One operation on an open cache that leaves it open. -/
theorem accounts (h : c.Holds r) (hn : nominate.NamesOnce) {op : Operation} {ops : List Operation}
    (hb : c.Bounded (op :: ops)) {r' : Resident} (hr' : (c.perform op).cache.Holds r') :
    c.Accounts (c.perform op).cache r r' [⟨c, op⟩] := by
  have hs : c.Sound := .inr ⟨r, h⟩
  -- What the operation leaves is given by `hr'` and, case by case, by the account.
  have hsame {r₁ : Resident} (ha : c.Accounts (c.perform op).cache r r₁ [⟨c, op⟩])
      (h₁ : (c.perform op).cache.resident = some r₁) :
      c.Accounts (c.perform op).cache r r' [⟨c, op⟩] := by
    rwa [← hr'.eq_of_resident h₁]
  cases hs.performed (hs.clean_perform hn hb) with
  | read hop =>
    have hkeeps := (c.silent_perform hop).keeps
    refine hsame ?_ (hkeeps.resident.trans h.resident)
    cases op with
    | put => cases hop
    | close => cases hop
    | get key => exact h.accounts_get key
    | _ => exact Accounts.of_observes c r rfl
  | barred _ hr =>
    rw [h.resident] at hr
    cases hr
  | rejected _ he hstep =>
    refine hsame (h.accounts_reject he hstep) ?_
    rw [hstep]
    exact h.resident
  | stored h₀ _ hc _ _ _ hstep =>
    obtain rfl := h₀.eq_of_resident h.resident
    refine hsame (h₀.accounts_admission hc (h₀.sound.nodup_chosen hn hc) hstep) ?_
    rw [hstep]
    rfl
  | closed _ hstep =>
    have hopen := hr'.not_closed
    rw [hstep] at hopen
    cases hopen

end Holds

/-- The moves of a run that ends with an open cache account for all that it changed. -/
theorem Ready.accounts {capacity : UInt64} {c : Cache nominate} {ops : List Operation}
    (h : Ready capacity c ops) (hn : nominate.NamesOnce) {r r' : Resident} (hr : c.Holds r)
    (hr' : (c.after ops).Holds r') : c.Accounts (c.after ops) r r' (c.moves ops) := by
  induction ops generalizing c r with
  | nil =>
    rw [hr.eq_of_resident hr'.resident]
    exact Accounts.refl c r
  | cons op ops ih =>
    have hnext := h.perform (h.sound.clean_perform hn h.bounded)
    obtain ⟨r₁, h₁⟩ := hnext.sound.open_of_after hr'.resident
    exact (hr.accounts hn h.bounded h₁).trans (ih hnext h₁ hr')

/-- Only an admission stores a payload. -/
theorem admits_of_put_ok {c : Cache nominate} {key : Key} {payload : Payload}
    (h : (c.put key payload).result = .ok ()) : c.admits (.put key payload) = true := by
  cases hv : c.objection key payload.size with
  | some e =>
    rw [put, check, hv] at h
    cases e <;> cases h
  | none =>
    rw [put_of_no_objection hv, accept] at h
    cases hr : c.resident with
    | none =>
      rw [hr] at h
      cases h
    | some r =>
      rw [hr] at h
      rcases hplan : r.plan nominate key payload.size with f | _ | victims
      · simp [hplan] at h
      · simp [hplan, reject] at h
      · simp only [admits, hv, hr, hplan]

theorem length_stored_le (c : Cache nominate) (ops : List Operation) :
    ((c.moves ops).filterMap Move.stored).length ≤ c.admissions ops := by
  induction ops generalizing c with
  | nil => exact Nat.le_refl _
  | cons op ops ih =>
    have htail := ih (c.perform op).cache
    have hhead : (⟨c, op⟩ : Move nominate).stored.toList.length ≤ (c.admits op).toNat := by
      cases op with
      | put key payload =>
        cases hput : (c.put key payload).result with
        | error f => simp [Move.stored, Move.step, perform, Step.map, hput, Except.map]
        | ok u => simp [Move.stored, Move.step, perform, Step.map, hput, Except.map,
            admits_of_put_ok hput]
      | _ => exact Nat.zero_le _
    rw [moves, ← List.singleton_append, List.filterMap_append, List.length_append,
      filterMap_singleton, admissions]
    omega

/-- The figures that a cache reports are those of the moves that filled it. -/
theorem Accounts.balances {start c : Cache nominate} {order : AdmissionOrder} {r : Resident}
    {ms : List (Move nominate)} (ha : start.Accounts c (.empty start.capacity.toNat order) r ms)
    (hstart : start.counters = {}) (h : c.Holds r)
    (hms : (ms.filterMap Move.stored).length < wordLimit) :
    ∃ s, c.stats.result = .ok s ∧ s.Balances ms := by
  have hentries : (ms.filterMap Move.stored).length =
      r.index.size + (ms.flatMap Move.evicted).length + (ms.filterMap Move.replaced).length :=
    ha.entries
  have hbytes : ((ms.filterMap Move.stored).map Array.size).sum =
      r.budget.used + ((ms.flatMap Move.evicted).map fun x => x.2.size).sum +
        ((ms.filterMap Move.replaced).map Entry.size).sum := ha.bytes
  have hhits := ha.hits
  have hmisses := ha.misses
  have hevictions := ha.evictions
  have hrejections := ha.rejections
  simp only [hstart, UInt64.zero_add] at hhits hmisses hevictions hrejections
  have hsize := h.sound.size_index_le_used
  have hfits := h.sound.fits
  have hcapacity := h.capacity_lt
  have hword {n : Nat} (hn : n < wordLimit) : (UInt64.ofNat n).toNat = n :=
    UInt64.toNat_ofNat_of_lt' hn
  have hevicted : c.counters.evictions.toNat = (ms.flatMap Move.evicted).length := by
    rw [hevictions, hword (by omega)]
  refine ⟨c.counters.snapshot (UInt64.ofNat r.index.size) (UInt64.ofNat r.budget.used) c.capacity,
    by rw [stats, query, h.resident], ?_⟩
  constructor
  case entries =>
    rw [Counters.snapshot, hword (by omega), hevicted]
    exact hentries
  case bytes =>
    rw [Counters.snapshot, hword (by omega)]
    exact hbytes
  case evictions => exact hevicted
  case lookups =>
    have hlookups := (ms.filterMap Move.found).length_eq_countP_add_countP Option.isSome
    simp only [Bool.not_eq_true, Option.isSome_eq_false_iff, Bool.decide_eq_true] at hlookups
    rw [Counters.snapshot, hhits, hmisses, ← UInt64.ofNat_add, ← hlookups]
  case hits => exact hhits
  case rejections => exact hrejections

/-- Under a policy that names no tracked key twice, the statistics of an open cache balance with the
moves that led to it, and operations that only observe change nothing. -/
theorem run_conserves (nominate : Nomination) (capacity : UInt64) (order : AdmissionOrder)
    (ops : List Operation) (hc : 0 < capacity) (hn : nominate.NamesOnce) :
    ∃ start, create nominate capacity order = .ok start ∧
      (order.next + start.cache.admissions ops < wordLimit →
        (start.cache.after ops).closed = false →
          (∃ s, (start.cache.after ops).stats.result = .ok s ∧
            s.Balances (start.cache.moves ops)) ∧
          ∀ op : Operation, op.observes →
            ((start.cache.after ops).perform op).cache = start.cache.after ops) := by
  refine ⟨_, create_eq hc order, fun hbound hopen => ?_⟩
  have hready := ready_opened_over nominate capacity order ops hbound
  refine ⟨?_, fun op hop => cache_perform_of_observes _ hop⟩
  rcases (hready.run hn).2.sound with ⟨-, hclosed⟩ | ⟨r, h⟩
  · rw [hopen] at hclosed
    cases hclosed
  have hstart : (opened nominate capacity order).Holds (.empty capacity.toNat order) :=
    ⟨rfl, rfl, Resident.sound_empty _ _, rfl⟩
  have hstored := (opened nominate capacity order).length_stored_le ops
  have hadmissions := (Nat.le_add_left _ order.next).trans_lt hbound
  exact (hready.accounts hn hstart h).balances rfl h (hstored.trans_lt hadmissions)

/-- With a replacement, two evictions for one put, lookups and a refusal. -/
theorem run_conserves_of_eight :
    let ops : List Operation := [.put ⟨1, 0⟩ #[7], .put ⟨1, 1⟩ #[8, 8], .put ⟨1, 0⟩ #[9, 9],
      .get ⟨1, 0⟩, .put ⟨2, 0⟩ #[1, 2, 3], .get ⟨1, 1⟩, .put ⟨-1, 0⟩ #[4], .stats]
    let c := opened .oldestFirst 4
    (0 : UInt64) < 4 ∧ Nomination.oldestFirst.NamesOnce ∧ c.admissions ops = 4 ∧
      (c.after ops).closed = false ∧
      (c.moves ops).map (fun m => m.evicted.map (·.1)) =
        [[], [], [], [], [⟨1, 0⟩, ⟨1, 1⟩], [], [], []] ∧
      ∃ s, (c.after ops).stats.result = .ok s ∧ s.Balances (c.moves ops) := by
  intro ops c
  have hadmissions : c.admissions ops = 4 := by decide +kernel
  have hopen : (c.after ops).closed = false := by decide +kernel
  obtain ⟨start, hstart, hrun⟩ :=
    run_conserves .oldestFirst 4 {} ops (by decide) Nomination.namesOnce_oldestFirst
  rw [create_eq (by decide)] at hstart
  cases hstart
  exact ⟨by decide, Nomination.namesOnce_oldestFirst, hadmissions, hopen, by decide +kernel,
    (hrun (hadmissions ▸ by decide) hopen).1⟩

end Cache

end LedgerCache
