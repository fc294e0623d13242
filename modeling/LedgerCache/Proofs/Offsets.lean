import LedgerCache.Proofs.Runs

namespace LedgerCache

open Std

def Entry.shift (n : Nat) (e : Entry) : Entry := { e with stamp := e.stamp + n }

def PolicyCall.shift (n : Nat) : PolicyCall → PolicyCall
  | .admitted key stamp => .admitted key (stamp + n)
  | .forgotten stamp => .forgotten (stamp + n)
  | .cleared => .cleared

/-- What `r` holds, under stamps that are later by `n`. -/
structure Resident.ShiftedBy (n : Nat) (r r' : Resident) : Prop where
  index : ∀ k : Key, r'.index[k]? = r.index[k]?.map (Entry.shift n)
  live : r'.order.live.toList = r.order.live.toList.map fun x => (x.1 + n, x.2)
  next : r'.order.next = r.order.next + n
  budget : r'.budget = r.budget

structure Cache.ShiftedBy {nominate : Nomination} (n : Nat) (c c' : Cache nominate) : Prop where
  capacity : c'.capacity = c.capacity
  closed : c'.closed = c.closed
  counters : c'.counters = c.counters
  resident : Option.Rel (Resident.ShiftedBy n) c.resident c'.resident

/-- The same answer and the same events, under stamps that are later by `n`. -/
structure Step.ShiftedBy {nominate : Nomination} {α : Type} (n : Nat) (s s' : Step nominate α) :
    Prop where
  result : s'.result = s.result
  events : s'.events = s.events
  calls : s'.calls = s.calls.map (PolicyCall.shift n)
  cache : s.cache.ShiftedBy n s'.cache

namespace Resident

variable {n : Nat} {r r' : Resident}

/-- Index, next stamp and budget are enough, since the order lists the index by stamp. -/
theorem Sound.shiftedBy (hs : r.Sound) (hs' : r'.Sound)
    (hindex : ∀ k : Key, r'.index[k]? = r.index[k]?.map (Entry.shift n))
    (hnext : r'.order.next = r.order.next + n) (hbudget : r'.budget = r.budget) :
    r.ShiftedBy n r' := by
  have hentries : r'.entries = r.entries.map fun x => (x.1, x.2.shift n) := by
    apply hs'.entries_eq
    · refine List.pairwise_map.2 (hs.sorted.imp fun hlt => ?_)
      exact Nat.add_lt_add_right hlt n
    · intro k e
      simp only [hindex, List.mem_map, Prod.mk.injEq, Option.map_eq_some_iff, Prod.exists,
        ← hs.mem_entries]
      grind
  refine ⟨hindex, ?_, hnext, hbudget⟩
  rw [← hs'.map_entries, ← hs.map_entries, hentries, List.map_map, List.map_map]
  rfl

theorem shiftedBy_empty (capacity : Nat) (order : AdmissionOrder) :
    (empty capacity {}).ShiftedBy order.next (empty capacity order) := by
  apply (sound_empty capacity {}).shiftedBy (sound_empty capacity order)
  · simp [empty]
  · exact (Nat.zero_add _).symm
  · rfl

namespace ShiftedBy

variable (h : r.ShiftedBy n r')

include h

theorem entries : r'.entries = r.entries.map fun x => (x.1, x.2.shift n) := by
  rw [Resident.entries, Resident.entries, h.live, List.filterMap_map, List.map_filterMap]
  apply List.filterMap_congr
  intro x _
  cases he : r.index[x.2]? <;> simp [h.index, he]

theorem map_size_entries :
    (r'.entries.map fun x => x.2.size) = r.entries.map fun x => x.2.size := by
  rw [h.entries, List.map_map]
  rfl

theorem sizeAt (key : Key) : r'.sizeAt key = r.sizeAt key := by
  rw [Resident.sizeAt, Resident.sizeAt, h.index, Option.map_map]
  rfl

theorem stored {key : Key} {payload : Payload} (hs : (r.stored key payload).Sound)
    (hs' : (r'.stored key payload).Sound) :
    (r.stored key payload).ShiftedBy n (r'.stored key payload) := by
  apply hs.shiftedBy hs'
  case hindex =>
    intro k
    rw [index_stored, index_stored, h.index, h.next]
    split <;> rfl
  case hnext =>
    simp only [Resident.stored, h.next]
    omega
  case hbudget => rw [Resident.stored, Resident.stored, h.budget]

variable (hs : r.Sound) (hs' : r'.Sound)

include hs hs'

theorem size : r'.index.size = r.index.size := by
  rw [← hs'.length_entries, ← hs.length_entries, h.entries, List.length_map]

theorem without (key : Key) : (r.without key).ShiftedBy n (r'.without key) := by
  apply (hs.without key).shiftedBy (hs'.without key)
  case hindex =>
    intro k
    rw [index_without, index_without, h.index]
    split <;> rfl
  case hnext => rw [next_without, next_without, h.next]
  case hbudget =>
    have hcapacity : (r'.without key).budget.capacity = (r.without key).budget.capacity := by
      rw [capacity_without, capacity_without, h.budget]
    have hused : (r'.without key).budget.used = (r.without key).budget.used := by
      rw [used_without, used_without, h.budget, h.sizeAt]
    exact congrArg₂ Budget.mk hcapacity hused

theorem withoutAll (ks : List Key) : (r.withoutAll ks).ShiftedBy n (r'.withoutAll ks) := by
  induction ks generalizing r r' with
  | nil => exact h
  | cons k ks ih => exact ih (h.without hs hs' k) (hs.without k) (hs'.without k)

theorem cleared (key : Key) (victims : List Key) :
    (r.cleared key victims).ShiftedBy n (r'.cleared key victims) :=
  (h.without hs hs' key).withoutAll (hs.without key) (hs'.without key) victims

theorem leaving (ks : List Key) :
    r'.leaving ks = (r.leaving ks).map fun x => (x.1, x.2.shift n) := by
  induction ks generalizing r r' with
  | nil => rfl
  | cons k ks ih =>
    have htail := ih (h.without hs hs' k) (hs.without k) (hs'.without k)
    rw [Resident.leaving, Resident.leaving, htail, h.index, List.map_append]
    cases r.index[k]? <;> rfl

theorem evictions (ks : List Key) :
    Resident.evictions (r'.leaving ks) = Resident.evictions (r.leaving ks) := by
  rw [h.leaving hs hs', Resident.evictions, List.map_map]
  rfl

theorem forgets (ks : List Key) :
    Resident.forgets (r'.leaving ks) =
      (Resident.forgets (r.leaving ks)).map (PolicyCall.shift n) := by
  rw [h.leaving hs hs', Resident.forgets, Resident.forgets, List.map_map]
  simp [PolicyCall.shift, Entry.shift, Function.comp_def]

/-- The same entries are the oldest in excess. -/
theorem oldest (key : Key) (size : Nat) : r'.oldest key size = r.oldest key size := by
  have hwithout := h.without hs hs' key
  have hsurplus : r'.surplus key size = r.surplus key size := by
    rw [surplus, surplus, hwithout.map_size_entries, h.budget]
  rw [Resident.oldest, Resident.oldest, hsurplus, hwithout.entries, ← List.map_take, List.map_map]
  rfl

end ShiftedBy

end Resident

namespace Step.ShiftedBy

variable {nominate : Nomination} {α β : Type} {n : Nat}

theorem map {s s' : Step nominate α} (h : s.ShiftedBy n s') (f : α → β) :
    (s.map f).ShiftedBy n (s'.map f) :=
  ⟨congrArg (Except.map f) h.result, h.events, h.calls, h.cache⟩

end Step.ShiftedBy

namespace Cache

variable {nominate : Nomination} {n : Nat}

namespace ShiftedBy

variable {c c' : Cache nominate}

theorem resident_cases (h : c.ShiftedBy n c') :
    (c.resident = none ∧ c'.resident = none) ∨
      ∃ r r', c.resident = some r ∧ c'.resident = some r' ∧ r.ShiftedBy n r' := by
  have hrel := h.resident
  generalize c.resident = o, c'.resident = o' at hrel
  cases hrel with
  | none => exact .inl ⟨rfl, rfl⟩
  | some hr => exact .inr ⟨_, _, rfl, rfl, hr⟩

/-- An answer that leaves both caches as they are. -/
theorem unchanged (h : c.ShiftedBy n c') {α : Type} (result : Except Failure α) :
    Step.ShiftedBy n ⟨result, c, [], []⟩ ⟨result, c', [], []⟩ :=
  ⟨rfl, rfl, rfl, h⟩

theorem with_counters (h : c.ShiftedBy n c') {counters counters' : Counters}
    (hcounters : counters' = counters) :
    ShiftedBy n ({ c with counters } : Cache nominate) { c' with counters := counters' } :=
  ⟨h.capacity, h.closed, hcounters, h.resident⟩

theorem query (h : c.ShiftedBy n c') {α : Type} {f f' : Resident → α}
    (hf : ∀ r r', c.resident = some r → c'.resident = some r' → r.ShiftedBy n r' → f' r' = f r) :
    (c.query f).ShiftedBy n (c'.query f') := by
  rcases h.resident_cases with ⟨hr, hr'⟩ | ⟨r, r', hr, hr', hshift⟩
  · rw [Cache.query, Cache.query, hr, hr']
    exact h.unchanged _
  · simp only [Cache.query, hr, hr', hf r r' hr hr' hshift]
    exact h.unchanged _

theorem get (h : c.ShiftedBy n c') (hs : c.Sound) (hs' : c'.Sound) (key : Key) :
    (c.get key).ShiftedBy n (c'.get key) := by
  rcases h.resident_cases with ⟨hr, hr'⟩ | ⟨r, r', hr, hr', hshift⟩
  · rw [Cache.get, Cache.get, hr, hr']
    exact h.unchanged _
  · have hindex := hshift.index key
    cases he : r.index[key]? with
    | none =>
      rw [he, Option.map_none] at hindex
      rw [(hs.holds hr).get_of_none he, (hs'.holds hr').get_of_none hindex]
      exact ⟨rfl, rfl, rfl, h.with_counters (congrArg Counters.miss h.counters)⟩
    | some e =>
      rw [he, Option.map_some] at hindex
      rw [(hs.holds hr).get_of_some he, (hs'.holds hr').get_of_some hindex]
      exact ⟨rfl, rfl, rfl, h.with_counters (congrArg Counters.hit h.counters)⟩

theorem objection (h : c.ShiftedBy n c') (key : Key) (size : Nat) :
    c'.objection key size = c.objection key size := by
  rw [Cache.objection, Cache.objection, h.closed, h.capacity]

theorem reject (h : c.ShiftedBy n c') {α : Type} (key : Key) (e : Error) :
    (c.reject key e : Step nominate α).ShiftedBy n (c'.reject key e) :=
  ⟨rfl, rfl, rfl, h.with_counters (congrArg Counters.reject h.counters)⟩

theorem read (h : c.ShiftedBy n c') (hs : c.Sound) (hs' : c'.Sound) {op : Operation}
    (hop : op.changes = false) : (c.perform op).ShiftedBy n (c'.perform op) := by
  have hsize (r r' : Resident) (hr : c.resident = some r) (hr' : c'.resident = some r')
      (hshift : r.ShiftedBy n r') : r'.index.size = r.index.size :=
    hshift.size (hs.holds hr).sound (hs'.holds hr').sound
  cases op with
  | put => cases hop
  | close => cases hop
  | get key => exact (h.get hs hs' key).map _
  | has key =>
    apply Step.ShiftedBy.map
    apply h.query
    intro r r' _ _ hshift
    rw [TreeMap.contains_eq_isSome_getElem?, TreeMap.contains_eq_isSome_getElem?, hshift.index,
      Option.isSome_map]
  | count => exact (h.query hsize).map _
  | size =>
    apply Step.ShiftedBy.map
    apply h.query
    intro r r' _ _ hshift
    rw [hshift.budget]
  | stats =>
    apply Step.ShiftedBy.map
    apply h.query
    intro r r' hr hr' hshift
    rw [hsize r r' hr hr' hshift, hshift.budget, h.counters, h.capacity]
  | capacity =>
    rw [perform, perform, h.capacity]
    exact h.unchanged _
  | isClosed =>
    rw [perform, perform, h.closed]
    exact h.unchanged _

theorem admission (h : c.ShiftedBy n c') {r r' : Resident} (hr : c.Holds r) (hr' : c'.Holds r')
    (hshift : r.ShiftedBy n r') {key : Key} {payload : Payload} {victims : List Key}
    (hv : c.objection key payload.size = none)
    (hfits : payload.size ≤ (r.cleared key victims).budget.available) :
    (c.admission r key payload victims).ShiftedBy n (c'.admission r' key payload victims) := by
  have hv' := (h.objection key payload.size).trans hv
  have hcleared := hshift.cleared hr.sound hr'.sound key victims
  have hwithout := hshift.without hr.sound hr'.sound key
  have hs := hr.sound.without key
  have hs' := hr'.sound.without key
  have hfits' : payload.size ≤ (r'.cleared key victims).budget.available := by
    rwa [hcleared.budget]
  constructor
  case result => rfl
  case events => exact congrArg Array.toList (hwithout.evictions hs hs' victims)
  case calls =>
    simp only [Cache.admission, hwithout.forgets hs hs', hshift.forgets hr.sound hr'.sound,
      hshift.next]
    simp [PolicyCall.shift]
  case cache =>
    have hstored := hcleared.stored (hr.admission_holds hv hfits).sound
      (hr'.admission_holds hv' hfits').sound
    exact ⟨h.capacity, h.closed, congrArg (Counters.evict · _) h.counters, .some hstored⟩

theorem put {c c' : Cache .oldestFirst} (h : c.ShiftedBy n c') {r r' : Resident} (hr : c.Holds r)
    (hr' : c'.Holds r') (hshift : r.ShiftedBy n r') {key : Key} {payload : Payload}
    (hnext : c'.admits (.put key payload) → r'.order.next + 1 < wordLimit) :
    (c.put key payload).ShiftedBy n (c'.put key payload) := by
  have hobjection := h.objection key payload.size
  cases hv : c.objection key payload.size with
  | some e =>
    rw [put_of_objection hr.not_closed hv,
      put_of_objection hr'.not_closed (hobjection.trans hv)]
    exact h.reject key e
  | none =>
    -- The later cache has a stamp left, so the other one has.
    have hv' := hobjection.trans hv
    have hlast' := hnext (hr'.admits_oldestFirst hv')
    have hlast : r.order.next + 1 < wordLimit := by
      rw [hshift.next] at hlast'
      omega
    obtain ⟨hfits, -, hput⟩ := hr.put_oldestFirst hv hlast
    obtain ⟨-, -, hput'⟩ := hr'.put_oldestFirst hv' hlast'
    rw [hput, hput', hshift.oldest hr.sound hr'.sound]
    exact h.admission hr hr' hshift hv hfits

theorem close (h : c.ShiftedBy n c') {r r' : Resident} (hr : c.Holds r) (hr' : c'.Holds r')
    (hshift : r.ShiftedBy n r') : c.close.ShiftedBy n c'.close := by
  rw [hr.close_eq, hr'.close_eq, hshift.size hr.sound hr'.sound, hshift.budget]
  exact ⟨rfl, rfl, rfl, h.capacity, rfl, h.counters, .none⟩

/-- One operation keeps the offset, as long as there are stamps. -/
theorem perform {c c' : Cache .oldestFirst} (h : c.ShiftedBy n c') (hs : c.Sound) (hs' : c'.Sound)
    {op : Operation} {ops : List Operation} (hb : c'.Bounded (op :: ops)) :
    (c.perform op).ShiftedBy n (c'.perform op) := by
  cases hop : op.changes with
  | false => exact h.read hs hs' hop
  | true =>
    rcases h.resident_cases with ⟨hr, hr'⟩ | ⟨r, r', hr, hr', hshift⟩
    · have hc := hs.closed_of_none hr
      rw [perform_of_closed hr hc hop, perform_of_closed hr' (h.closed.trans hc) hop]
      exact h.unchanged _
    · have hholds := hs.holds hr
      have hholds' := hs'.holds hr'
      cases op with
      | put key payload => exact (h.put hholds hholds' hshift (hb.admits hr')).map _
      | close => exact (h.close hholds hholds' hshift).map _
      | _ => cases hop

theorem run {c c' : Cache .oldestFirst} (h : c.ShiftedBy n c') (hs : c.Sound)
    {capacity : UInt64} {ops : List Operation} (hr : Ready capacity c' ops) :
    List.Forall₂ (Step.ShiftedBy n) (c.run ops) (c'.run ops) := by
  induction ops generalizing c c' with
  | nil => exact .nil
  | cons op ops ih =>
    have hclean := hr.sound.clean_perform Nomination.namesOnce_oldestFirst hr.bounded
    have hstep := h.perform hs hr.sound hr.bounded
    exact .cons hstep (ih hstep.cache (hs.perform_oldestFirst op) (hr.perform hclean))

end ShiftedBy

/-- First in, first out, a cache over a policy in any state answers and reports in every run what a
cache over a new policy does. All its stamps are later by what the policy had handed out before. -/
theorem run_shifted (capacity : UInt64) (order : AdmissionOrder) (ops : List Operation)
    (hc : 0 < capacity) :
    ∃ start start', create .oldestFirst capacity = .ok start ∧
      create .oldestFirst capacity order = .ok start' ∧ start'.events = start.events ∧
      start'.calls = start.calls ∧
      (order.next + start'.cache.admissions ops < wordLimit →
        List.Forall₂ (Step.ShiftedBy order.next) (start.cache.run ops) (start'.cache.run ops)) := by
  refine ⟨_, _, create_eq hc {}, create_eq hc order, rfl, rfl, fun hbound => ?_⟩
  have hready := ready_opened_over .oldestFirst capacity order ops hbound
  have hstart : (opened .oldestFirst capacity).ShiftedBy order.next
      (opened .oldestFirst capacity order) :=
    ⟨rfl, rfl, rfl, .some (Resident.shiftedBy_empty _ _)⟩
  exact hstart.run (sound_opened capacity {}) hready

/-- The policy still tracks a key of the run under stamp three; seven is the next stamp. -/
theorem run_shifted_of_leftovers :
    let order : AdmissionOrder := { live := ((∅ : TreeMap Nat Key).insert 3 ⟨1, 0⟩).insert 6 ⟨9, 9⟩
                                    next := 7 }
    let ops : List Operation := [.put ⟨1, 0⟩ #[7], .put ⟨2, 0⟩ #[8, 8], .get ⟨9, 9⟩,
      .put ⟨1, 0⟩ #[5, 5], .put ⟨3, 0⟩ #[9, 9], .stats, .close, .put ⟨1, 0⟩ #[7]]
    let c := opened .oldestFirst 4
    let c' := opened .oldestFirst 4 order
    (0 : UInt64) < 4 ∧ c'.admissions ops = 4 ∧
      (c'.run ops).flatMap (·.calls) = [.admitted ⟨1, 0⟩ 7, .admitted ⟨2, 0⟩ 8, .forgotten 7,
        .admitted ⟨1, 0⟩ 9, .forgotten 8, .admitted ⟨3, 0⟩ 10, .cleared] ∧
      (c'.run ops).flatMap (·.events) = [.evicted ⟨2, 0⟩ 2, .cacheClosed 2 4] ∧
      List.Forall₂ (Step.ShiftedBy 7) (c.run ops) (c'.run ops) := by
  intro order ops c c'
  have hadmissions : c'.admissions ops = 4 := by decide +kernel
  obtain ⟨start, start', hstart, hstart', -, -, hrun⟩ := run_shifted 4 order ops (by decide)
  have hcache : start.cache = c := cache_of_create hstart
  have hcache' : start'.cache = c' := cache_of_create hstart'
  rw [hcache, hcache'] at hrun
  exact ⟨by decide, hadmissions, by decide +kernel, by decide +kernel,
    hrun (hadmissions ▸ by decide)⟩

end Cache

end LedgerCache
