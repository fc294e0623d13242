import LedgerCache.Proofs.Conservation

namespace LedgerCache

open Std

namespace Move

variable {nominate : Nomination}

/-- What a move answers, leaves and tells, the counts of lookups left out. -/
structure Effect where
  op : Operation
  result : Except Failure Reply
  closed : Bool
  resident : Option Resident
  evicted : List (Key × Entry)
  events : List Event
  calls : List PolicyCall
  evictions : UInt64
  rejections : UInt64

def effect (m : Move nominate) : Effect where
  op := m.op
  result := m.step.result
  closed := m.step.cache.closed
  resident := m.step.cache.resident
  evicted := m.evicted
  events := m.step.events
  calls := m.step.calls
  evictions := m.step.cache.counters.evictions
  rejections := m.step.cache.counters.rejections

end Move

/-- The cache as if there had been these lookups. -/
def Cache.withLookups {nominate : Nomination} (c : Cache nominate) (hits misses : UInt64) :
    Cache nominate :=
  { c with counters := { c.counters with hits, misses } }

namespace Step

variable {nominate : Nomination} {α β : Type} (hits misses : UInt64)

def withLookups (s : Step nominate α) : Step nominate α :=
  { s with cache := s.cache.withLookups hits misses }

theorem withLookups_map (s : Step nominate α) (f : α → β) :
    (s.map f).withLookups hits misses = (s.withLookups hits misses).map f := rfl

theorem withLookups_andThen (s : Step nominate α) {next : α → Cache nominate → Step nominate β}
    (hnext : ∀ a c, next a (c.withLookups hits misses) = (next a c).withLookups hits misses) :
    (s.withLookups hits misses).andThen next = (s.andThen next).withLookups hits misses := by
  cases hs : s.result with
  | error f => simp [andThen, withLookups, hs]
  | ok a =>
    have ha := hnext a s.cache
    simp [andThen, withLookups, hs, ha]

end Step

namespace Cache

variable {nominate : Nomination} (c : Cache nominate) (hits misses : UInt64)

/-- Caches that agree without their lookups differ in these. -/
theorem eq_withLookups {c c' : Cache nominate} (h : c.withLookups 0 0 = c'.withLookups 0 0) :
    c' = c.withLookups c'.counters.hits c'.counters.misses :=
  calc
    c' = (c'.withLookups 0 0).withLookups c'.counters.hits c'.counters.misses := rfl
    _ = (c.withLookups 0 0).withLookups c'.counters.hits c'.counters.misses := by rw [h]
    _ = c.withLookups c'.counters.hits c'.counters.misses := rfl

theorem check_withLookups (key : Key) (size : Nat) :
    (c.withLookups hits misses).check key size = (c.check key size).withLookups hits misses := by
  have hobjection : (c.withLookups hits misses).objection key size = c.objection key size := rfl
  rw [check, check, hobjection]
  rcases c.objection key size with _ | e
  · rfl
  · cases e <;> rfl

theorem accept_withLookups (key : Key) (payload : Payload) :
    (c.withLookups hits misses).accept key payload =
      (c.accept key payload).withLookups hits misses := by
  have hresident : (c.withLookups hits misses).resident = c.resident := rfl
  rw [accept, accept, hresident]
  rcases c.resident with _ | r
  · rfl
  rcases hplan : r.plan nominate key payload.size with f | _ | victims
  · simp only [hplan]
    rfl
  · simp only [hplan]
    rfl
  · simp only [hplan]
    cases (r.accept key payload victims).fault <;> rfl

theorem close_withLookups :
    (c.withLookups hits misses).close = c.close.withLookups hits misses := by
  have hresident : (c.withLookups hits misses).resident = c.resident := rfl
  rw [close, close, hresident]
  rcases c.resident with _ | r
  · rfl
  · simp only [finishClose]
    split <;> rfl

/-- What was looked up makes no difference to a put or a close. -/
theorem perform_withLookups {op : Operation} (hop : op.changes) :
    (c.withLookups hits misses).perform op = (c.perform op).withLookups hits misses := by
  cases op with
  | put key payload =>
    rw [perform, perform, Step.withLookups_map, put, put, check_withLookups,
      Step.withLookups_andThen]
    intro _ c
    exact c.accept_withLookups hits misses key payload
  | close => rw [perform, perform, Step.withLookups_map, close_withLookups]
  | _ => cases hop

/-- A read makes no difference but to what was looked up. -/
theorem withLookups_read {op : Operation} (hop : op.changes = false) :
    (c.perform op).cache.withLookups hits misses = c.withLookups hits misses := by
  cases op with
  | put => cases hop
  | close => cases hop
  | get key =>
    rw [perform, Step.cache_map, get]
    split
    · rfl
    · split <;> rfl
  | _ => rw [cache_perform_of_observes c rfl]

theorem effect_withLookups {op : Operation} (hop : op.changes) :
    (⟨c.withLookups hits misses, op⟩ : Move nominate).effect =
      (⟨c, op⟩ : Move nominate).effect := by
  have hstep := c.perform_withLookups hits misses hop
  simp only [Move.effect, Move.evicted, Move.step, hstep]
  rfl

/-- What the puts and closes of a run do. -/
def effects (ops : List Operation) : List Move.Effect :=
  ((c.moves ops).filter fun m => m.op.changes).map Move.effect

/-- The effects are those of the puts and closes alone, on a cache without lookups. -/
theorem effects_eq (ops : List Operation) :
    c.effects ops = ((c.withLookups 0 0).moves (ops.filter Operation.changes)).map Move.effect := by
  induction ops generalizing c with
  | nil => rfl
  | cons op ops ih =>
    -- The rest of the run starts from the same cache again, once the lookups are taken out.
    have htail := ih (c.perform op).cache
    cases hop : op.changes with
    | false =>
      rw [c.withLookups_read 0 0 hop] at htail
      simpa [effects, moves, hop] using htail
    | true =>
      have hhead := c.effect_withLookups 0 0 hop
      have hstep := c.perform_withLookups 0 0 hop
      simp only [effects, moves, List.filter_cons, hop, if_true, List.map_cons, hhead, hstep]
      exact congrArg _ htail

theorem after_withLookups (ops : List Operation) :
    (c.after ops).withLookups 0 0 = (c.withLookups 0 0).after (ops.filter Operation.changes) := by
  induction ops generalizing c with
  | nil => rfl
  | cons op ops ih =>
    have htail := ih (c.perform op).cache
    cases hop : op.changes with
    | false =>
      rw [c.withLookups_read 0 0 hop] at htail
      rw [List.filter_cons_of_neg (by simp [hop])]
      exact htail
    | true =>
      have hstep := c.perform_withLookups 0 0 hop
      rw [List.filter_cons_of_pos hop]
      simp only [after, List.foldl_cons, hstep]
      exact htail

/-- All that a run tells, it tells in its puts and closes. -/
theorem told_eq (ops : List Operation) :
    (c.run ops).flatMap (·.events) = (c.effects ops).flatMap (·.events) ∧
      (c.run ops).flatMap (·.calls) = (c.effects ops).flatMap (·.calls) := by
  induction ops generalizing c with
  | nil => exact ⟨rfl, rfl⟩
  | cons op ops ih =>
    obtain ⟨hevents, hcalls⟩ := ih (c.perform op).cache
    cases hop : op.changes with
    | false =>
      have hsilent := c.silent_perform hop
      simp only [run, effects, moves, List.flatMap_cons, List.filter_cons, hop, hsilent.events,
        hsilent.calls, List.nil_append]
      exact ⟨hevents, hcalls⟩
    | true =>
      simp only [run, effects, moves, List.flatMap_cons, List.filter_cons, hop, if_true,
        List.map_cons]
      exact ⟨congrArg _ hevents, congrArg _ hcalls⟩

/-- An open cache has what it would give. -/
theorem has_eq_isSome_get {r : Resident} (hr : c.resident = some r) (key : Key) :
    ∃ v, (c.get key).result = .ok v ∧ (c.has key).result = .ok v.isSome := by
  simp only [get, has, query, hr, TreeMap.contains_eq_isSome_getElem?]
  cases r.index[key]? with
  | none => exact ⟨none, rfl, rfl⟩
  | some e => exact ⟨some e.payload, rfl, rfl⟩

/-- Whatever the policy nominates, the puts and closes of two runs do the same if they are the same,
whatever each run reads in between. The caches that the runs leave differ in hits and misses. -/
theorem run_ignores_reads (nominate : Nomination) (capacity : UInt64) (order : AdmissionOrder)
    (ops ops' : List Operation) (hc : 0 < capacity)
    (hsame : ops.filter Operation.changes = ops'.filter Operation.changes) :
    ∃ start, create nominate capacity order = .ok start ∧
      start.cache.effects ops = start.cache.effects ops' ∧
      (start.cache.run ops).flatMap (·.events) = (start.cache.run ops').flatMap (·.events) ∧
      (start.cache.run ops).flatMap (·.calls) = (start.cache.run ops').flatMap (·.calls) ∧
      (∃ hits misses,
        start.cache.after ops' = (start.cache.after ops).withLookups hits misses) ∧
      ((start.cache.after ops).resident.isSome → ∀ key, ∃ v,
        ((start.cache.after ops).get key).result = .ok v ∧
          ((start.cache.after ops).has key).result = .ok v.isSome) := by
  refine ⟨_, create_eq hc order, ?_⟩
  generalize opened nominate capacity order = c
  have heffects : c.effects ops = c.effects ops' := by rw [effects_eq, effects_eq, hsame]
  have hafter : (c.after ops).withLookups 0 0 = (c.after ops').withLookups 0 0 := by
    rw [after_withLookups, after_withLookups, hsame]
  obtain ⟨hevents, hcalls⟩ := c.told_eq ops
  obtain ⟨hevents', hcalls'⟩ := c.told_eq ops'
  refine ⟨heffects, ?_, ?_, ⟨_, _, eq_withLookups hafter⟩, fun hopen key => ?_⟩
  · rw [hevents, hevents', heffects]
  · rw [hcalls, hcalls', heffects]
  · obtain ⟨r, hr⟩ := Option.isSome_iff_exists.1 hopen
    exact (c.after ops).has_eq_isSome_get hr key

/-- A lookup of the oldest entry does not save it, and misses, counts and statistics before the
puts do nothing either. -/
theorem run_ignores_reads_of_three :
    let puts : List Operation := [.put ⟨1, 0⟩ #[7], .put ⟨2, 0⟩ #[8, 8], .put ⟨3, 0⟩ #[9, 9]]
    let ops : List Operation := [.put ⟨1, 0⟩ #[7], .get ⟨-1, 0⟩, .put ⟨2, 0⟩ #[8, 8], .get ⟨1, 0⟩,
      .has ⟨2, 0⟩, .stats, .count, .put ⟨3, 0⟩ #[9, 9], .size, .get ⟨1, 0⟩, .capacity, .isClosed]
    let c := opened .oldestFirst 4
    (0 : UInt64) < 4 ∧ puts.filter Operation.changes = ops.filter Operation.changes ∧
      (c.after puts).resident.isSome ∧ c.effects puts = c.effects ops ∧
      (c.run ops).flatMap (·.events) = [.evicted ⟨1, 0⟩ 1] ∧
      (∃ hits misses, c.after ops = (c.after puts).withLookups hits misses) ∧
      ∀ key, ∃ v, ((c.after puts).get key).result = .ok v ∧
        ((c.after puts).has key).result = .ok v.isSome := by
  intro puts ops c
  have hsame : puts.filter Operation.changes = ops.filter Operation.changes := by decide +kernel
  have hopen : (c.after puts).resident.isSome := by decide +kernel
  obtain ⟨start, hstart, heffects, -, -, hafter, hlookup⟩ :=
    run_ignores_reads .oldestFirst 4 {} puts ops (by decide) hsame
  rw [create_eq (by decide)] at hstart
  cases hstart
  exact ⟨by decide, hsame, hopen, heffects, by decide +kernel, hafter, hlookup hopen⟩

end Cache

end LedgerCache
