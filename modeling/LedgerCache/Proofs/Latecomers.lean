import LedgerCache.Proofs.Conservation
import LedgerCache.Proofs.Loads

namespace LedgerCache

namespace Cache

variable {nominate : Nomination}

/-- The payloads of the history are those that the moves stored. -/
theorem map_snd_history (c : Cache nominate) (ops : List Operation) :
    (c.history ops).map (·.2) = (c.moves ops).filterMap Move.stored := by
  induction ops generalizing c with
  | nil => rfl
  | cons op ops ih =>
    have hhead : ((c.perform op).accepted op).map (·.2) =
        (⟨c, op⟩ : Move nominate).stored.toList := by
      cases op with
      | put key payload =>
        cases h : (c.perform (.put key payload)).result <;>
          simp [Step.accepted, Move.stored, Move.step, h, Except.isOk, Except.toBool]
      | _ => rfl
    rw [history, List.map_append, ih, hhead, moves, ← List.singleton_append,
      List.filterMap_append, filterMap_singleton]

theorem length_history_le (c : Cache nominate) (ops : List Operation) :
    (c.history ops).length ≤ c.admissions ops := by
  rw [← List.length_map (f := (·.2)), map_snd_history]
  exact c.length_stored_le ops

/-- A cache that is open in the end was never asked to close. -/
theorem Ready.ne_close_of_open {capacity : UInt64} {c : Cache nominate} {ops : List Operation}
    (h : Ready capacity c ops) (hn : nominate.NamesOnce) {r : Resident}
    (hr : (c.after ops).resident = some r) : ∀ op ∈ ops, op ≠ .close := by
  induction ops generalizing c with
  | nil => simp
  | cons op ops ih =>
    have hnext := h.perform (h.sound.clean_perform hn h.bounded)
    refine List.forall_mem_cons.2 ⟨?_, ih hnext hr⟩
    rintro rfl
    have hend : (c.after (.close :: ops)).resident = some r := hr
    obtain ⟨r₀, h₀⟩ := h.sound.open_of_after hend
    obtain ⟨r₁, h₁⟩ := hnext.sound.open_of_after hr
    have hclosed := h₁.not_closed
    rw [Cache.perform, h₀.close_eq] at hclosed
    cases hclosed

/-- An open cache holds what stays of the puts that it has taken, no more than were admitted. -/
theorem records_of_open {capacity : UInt64} {ops : List Operation}
    (hbound : (opened .oldestFirst capacity).admissions ops < wordLimit)
    (hopen : ((opened .oldestFirst capacity).after ops).closed = false) :
    ∃ r h, ((opened .oldestFirst capacity).after ops).Records r h ∧
      h.length ≤ (opened .oldestFirst capacity).admissions ops := by
  have hready := ready_opened capacity ops hbound
  rcases hready.run_oldestFirst.2.sound with ⟨-, hclosed⟩ | ⟨r, hr⟩
  · rw [hopen] at hclosed
    cases hclosed
  have hops := hready.ne_close_of_open Nomination.namesOnce_oldestFirst hr.resident
  obtain ⟨r', hrecords⟩ := (records_opened capacity).after hready hops
  exact ⟨r', _, hrecords, length_history_le _ _⟩

end Cache

namespace Worker

open Cache

/-- What a worker does on an open cache after any run. With nothing to write it does nothing; a
payload that cannot be made ends it before its first call, and one that is refused ends it with that.
Else it writes all its entries and finds them all, or none, by whether one more than the lag fit. -/
theorem run_after (capacity : UInt64) (ops : List Operation) (owner : Int64) (entries : UInt64)
    (size : Nat) (hc : 0 < capacity) :
    ∃ start, create .oldestFirst capacity = .ok start ∧
      (start.cache.admissions ops < wordLimit → (start.cache.after ops).closed = false →
        let c := start.cache.after ops
        let n := signedCount entries
        let t := (Worker.start owner n size).run c
        (n = 0 → t.worker.result = some (.ok {}) ∧ t.cache = c) ∧
        (0 < n → Payload.longest < size →
          t.worker.result = some (.error (.fault .payloadTooLong)) ∧ t.cache = c) ∧
        (0 < n → size ≤ Payload.longest → (owner < 0 ∨ size = 0 ∨ capacity.toNat < size) →
          ∃ e, (c.put ⟨owner, 0⟩ (Payload.synthetic ⟨owner, 0⟩ size)).result =
              .error (.refused e) ∧
            t.worker.result = some (.error (.refused e)) ∧
            t.cache =
              { c with counters := { c.counters with rejections := c.counters.rejections + 1 } }) ∧
        (0 < n → size ≤ Payload.longest → 0 ≤ owner → 0 < size → size ≤ capacity.toNat →
          start.cache.admissions ops + n < wordLimit →
          ∃ report, t.worker.result = some (.ok report) ∧ report.puts.toNat = n ∧
            report.corruptReads = 0 ∧
            ((readLag + 1) * size ≤ capacity.toNat →
              report.cacheHits.toNat = n - readLag ∧ report.fallbacks = 0) ∧
            (capacity.toNat < (readLag + 1) * size →
              report.cacheHits = 0 ∧ report.fallbacks.toNat = n - readLag) ∧
            t.cache.counters.hits = c.counters.hits + report.cacheHits ∧
            t.cache.counters.misses = c.counters.misses + report.fallbacks ∧
            t.cache.counters.rejections = c.counters.rejections)) := by
  refine ⟨_, create_eq hc {}, fun hbound hopen => ?_⟩
  intro c n t
  have hcapacity : c.capacity = capacity :=
    (ready_opened capacity ops hbound).run_oldestFirst.2.capacity
  obtain ⟨r, h, hr, hlength⟩ := records_of_open hbound hopen
  refine ⟨fun hzero => ?_, fun hpos hlong => ?_, fun hpos hmade hbad => ?_,
    fun hpos hmade howner hsize hfits hroom => ?_⟩
  · have ht : t = (Worker.start owner 0 size).run c := by rw [← hzero]
    rw [ht]
    exact ⟨rfl, rfl⟩
  · exact run_unmakeable hpos hlong
  · have hobjection : c.objection ⟨owner, 0⟩ size ≠ none := by
      rw [Ne, hr.holds.objection_eq_none_iff, hr.holds.capacity, hcapacity]
      rintro ⟨howner, hsize, hfits⟩
      rcases hbad with hnegative | rfl | hover
      · exact Int64.not_lt.2 howner hnegative
      · exact Nat.lt_irrefl 0 hsize
      · exact Nat.not_lt.2 hfits hover
    obtain ⟨e, he⟩ := Option.ne_none_iff_exists'.1 hobjection
    have hput : c.put ⟨owner, 0⟩ (Payload.synthetic ⟨owner, 0⟩ size) = c.reject ⟨owner, 0⟩ e :=
      put_of_objection hopen (by rwa [Payload.size_synthetic])
    exact ⟨e, congrArg Step.result hput, run_refused hopen hpos hmade he⟩
  · have hfeasible : Feasible c.capacity h.length owner n size :=
      ⟨hsize, hcapacity ▸ hfits, hmade, howner, signedCount_lt entries,
        (Nat.add_le_add_right hlength n).trans_lt hroom⟩
    have ht : t.Underway c h owner n size := run_underway hr hfeasible
    obtain ⟨hresult, hputs, hreads⟩ := ht.finished (result_run c owner n size)
    have hnear := ht.near
    have hfar := ht.far
    rw [hcapacity] at hnear hfar
    refine ⟨_, hresult, hputs, ht.onTrack.faithful, fun hle => ?_, fun hlt => ?_, ht.hits,
      ht.misses, ht.rejections⟩
    · rw [hnear hle] at hreads
      exact ⟨hreads, hnear hle⟩
    · rw [hfar hlt] at hreads
      exact ⟨hfar hlt, (Nat.zero_add _).symm.trans hreads⟩

/-- Two of the worker's keys hold other payloads before. With room for one entry more than the lag it
finds all that it looks up, with a byte less nothing. -/
theorem run_after_of_occupied :
    let ops : List Operation := [.put ⟨7, 3⟩ #[1, 2, 3], .put ⟨7, 66⟩ #[9], .get ⟨7, 3⟩]
    let large := opened .oldestFirst 130
    let small := opened .oldestFirst 129
    let n := signedCount 70
    large.admissions ops = 2 ∧ (large.after ops).closed = false ∧
      (large.after ops).counters = { hits := 1 } ∧
      small.admissions ops = 2 ∧ (small.after ops).closed = false ∧
      (small.after ops).counters = { hits := 1 } ∧ n = 70 ∧
      (∃ report, ((Worker.start 7 n 2).run (large.after ops)).worker.result = some (.ok report) ∧
        report.cacheHits.toNat = 6 ∧ report.fallbacks = 0 ∧
        ((Worker.start 7 n 2).run (large.after ops)).cache.counters.hits.toNat = 7) ∧
      (∃ report, ((Worker.start 7 n 2).run (small.after ops)).worker.result = some (.ok report) ∧
        report.cacheHits = 0 ∧ report.fallbacks.toNat = 6 ∧
        ((Worker.start 7 n 2).run (small.after ops)).cache.counters.misses.toNat = 6) ∧
      ∃ e, ((Worker.start (-1) n 2).run (small.after ops)).worker.result =
          some (.error (.refused e)) ∧
        ((Worker.start (-1) n 2).run (small.after ops)).cache.counters =
          { hits := 1, rejections := 1 } := by
  intro ops large small n
  have hlarge : large.admissions ops = 2 := by decide +kernel
  have hopen : (large.after ops).closed = false := by decide +kernel
  have hcounted : (large.after ops).counters = { hits := 1 } := by decide +kernel
  have hsmall : small.admissions ops = 2 := by decide +kernel
  have hopen' : (small.after ops).closed = false := by decide +kernel
  have hcounted' : (small.after ops).counters = { hits := 1 } := by decide +kernel
  have hbound : large.admissions ops + n < wordLimit := by
    rw [hlarge]
    decide
  have hbound' : small.admissions ops + n < wordLimit := by
    rw [hsmall]
    decide
  obtain ⟨start, hstart, hrun⟩ := run_after 130 ops 7 70 2 (by decide)
  obtain ⟨start', hstart', hrun'⟩ := run_after 129 ops 7 70 2 (by decide)
  obtain ⟨start'', hstart'', hrun''⟩ := run_after 129 ops (-1) 70 2 (by decide)
  rw [create_eq (by decide), Except.ok.injEq] at hstart hstart' hstart''
  -- the caches are named, so that no run on them is evaluated to compare two states
  rw [show start.cache = large from hstart ▸ rfl] at hrun
  rw [show start'.cache = small from hstart' ▸ rfl] at hrun'
  rw [show start''.cache = small from hstart'' ▸ rfl] at hrun''
  obtain ⟨-, -, -, hall⟩ := hrun (Nat.lt_of_add_right_lt hbound) hopen
  obtain ⟨-, -, -, hnone⟩ := hrun' (Nat.lt_of_add_right_lt hbound') hopen'
  obtain ⟨-, -, hrefused, -⟩ := hrun'' (Nat.lt_of_add_right_lt hbound') hopen'
  obtain ⟨report, hresult, -, -, hnear, -, hhits, -⟩ :=
    hall (by decide) (by decide) (by decide) (by decide) (by decide) hbound
  obtain ⟨report', hresult', -, -, -, hfar, -, hmisses, -⟩ :=
    hnone (by decide) (by decide) (by decide) (by decide) (by decide) hbound'
  obtain ⟨e, -, hfailed, hcache⟩ := hrefused (by decide) (by decide) (.inl (by decide))
  obtain ⟨hfound, hfallbacks⟩ := hnear (by decide)
  obtain ⟨hnohits, hmissed⟩ := hfar (by decide)
  refine ⟨hlarge, hopen, hcounted, hsmall, hopen', hcounted', by decide,
    ⟨report, hresult, hfound, hfallbacks, ?_⟩, ⟨report', hresult', hnohits, hmissed, ?_⟩,
    e, hfailed, ?_⟩
  · rw [hhits, hcounted, UInt64.toNat_add, hfound]
    rfl
  · rw [hmisses, hcounted', UInt64.toNat_add, hmissed]
    rfl
  · rw [hcache, hcounted']
    rfl

/-- A payload that is too long for the cache but cannot be made is not refused and not counted. -/
theorem run_after_fails_of_unmakeable :
    let c := (opened .oldestFirst 1).after []
    let t := (Worker.start 0 (signedCount 1) 9223372036854775808).run c
    c.closed = false ∧ c.capacity.toNat < 9223372036854775808 ∧
      t.worker.result = some (.error (.fault .payloadTooLong)) ∧
      t.cache.counters.rejections ≠ c.counters.rejections + 1 := by
  intro c t
  have hpos : 0 < signedCount 1 := by decide
  have hlong : Payload.longest < 9223372036854775808 := by decide
  obtain ⟨hresult, hcache⟩ := run_unmakeable (c := c) hpos hlong
  refine ⟨rfl, by decide, hresult, ?_⟩
  rw [show t.cache = c from hcache]
  decide

end Worker

end LedgerCache
