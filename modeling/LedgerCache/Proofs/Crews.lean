import LedgerCache.Proofs.Workers
import LedgerCache.Workload.Crew

namespace LedgerCache

open Std

namespace Crew

section

variable {nominate : Nomination} (crew : Crew nominate)

theorem act_turn {place : Nat} {w : Worker} (hw : crew.workers[place]? = some w) :
    ∃ before behind, crew.workers = before ++ w :: behind ∧
      crew.act (.turn place) =
        ⟨before ++ (w.step crew.cache).worker :: behind, (w.step crew.cache).cache⟩ := by
  obtain ⟨hlt, rfl⟩ := List.getElem?_eq_some_iff.1 hw
  obtain ⟨before, behind, hworkers, -, hset⟩ := List.exists_of_set hlt
  refine ⟨before, behind, hworkers, ?_⟩
  rw [act, hw]
  exact congrArg (mk · _) hset

theorem getElem?_act (a : Act) (place : Nat) :
    (crew.act a).workers[place]? = crew.workers[place]?.map fun w =>
      if a = .turn place then (w.step crew.cache).worker else w := by
  cases a with
  | close => cases hw : crew.workers[place]? <;> simp [act, hw]
  | turn other =>
    cases hother : crew.workers[other]? with
    | none =>
      cases hw : crew.workers[place]? with
      | none => simp [act, hother, hw]
      | some w =>
        have hne : other ≠ place := by
          rintro rfl
          rw [hother] at hw
          cases hw
        simp [act, hother, hw, hne]
    | some v =>
      by_cases hne : other = place
      · subst hne
        have hlt := (List.getElem?_eq_some_iff.1 hother).1
        simp [act, hlt]
      · cases hw : crew.workers[place]? <;> simp [act, hother, hw, hne]

theorem length_act (a : Act) : (crew.act a).workers.length = crew.workers.length := by
  cases a with
  | close => rfl
  | turn place =>
    rw [act]
    split
    · rfl
    · exact List.length_set

theorem length_run (acts : List Act) : (crew.run acts).workers.length = crew.workers.length := by
  induction acts generalizing crew with
  | nil => rfl
  | cons a acts ih => exact (ih (crew.act a)).trans (crew.length_act a)

/-- Each turn of a worker that is not done brings it nearer to its end. -/
theorem remaining_run (acts : List Act) {place : Nat} {w : Worker}
    (hw : crew.workers[place]? = some w) :
    ∃ w', (crew.run acts).workers[place]? = some w' ∧
      w'.remaining ≤ w.remaining - acts.count (.turn place) := by
  induction acts generalizing crew w with
  | nil => exact ⟨w, hw, Nat.le_refl _⟩
  | cons a acts ih =>
    have hnext := crew.getElem?_act a place
    rw [hw, Option.map_some] at hnext
    obtain ⟨w', hw', hle⟩ := ih (crew.act a) hnext
    refine ⟨w', hw', hle.trans ?_⟩
    rw [List.count_cons, beq_eq_decide]
    by_cases ha : a = .turn place
    · have hstep := w.remaining_step crew.cache
      simp only [ha, if_true, decide_true]
      omega
    · simp [ha]

/-- With a turn for each call that may be left, all workers get done, whatever else happens. -/
theorem finished_run {acts : List Act}
    (h : ∀ place w, crew.workers[place]? = some w → w.remaining ≤ acts.count (.turn place)) :
    (crew.run acts).Finished := by
  intro w' hw'
  obtain ⟨place, hget⟩ := List.mem_iff_getElem?.1 hw'
  have hlt := (List.getElem?_eq_some_iff.1 hget).1
  rw [length_run] at hlt
  have hw := List.getElem?_eq_getElem hlt
  obtain ⟨w'', hw'', hle⟩ := crew.remaining_run acts hw
  have hzero := h place _ hw
  rw [hget, Option.some.injEq] at hw''
  rw [← Worker.remaining_eq_zero_iff, hw'']
  omega

end

/-- On a closed cache nothing changes but that workers stop. -/
theorem halts_run {nominate : Nomination} {crew : Crew nominate} (hr : crew.cache.resident = none)
    (hc : crew.cache.closed = true)
    (hmade : ∀ w ∈ crew.workers, w.result = none → w.size ≤ Payload.longest) (acts : List Act)
    {place : Nat} {w : Worker} (hw : crew.workers[place]? = some w) :
    ∃ w', (crew.run acts).workers[place]? = some w' ∧ w.Halts w' := by
  induction acts generalizing crew w with
  | nil => exact ⟨w, hw, .inl rfl⟩
  | cons a acts ih =>
    have hcache : (crew.act a).cache = crew.cache := by
      cases a with
      | close =>
        show crew.cache.close.cache = crew.cache
        rw [Cache.close, hr]
        rfl
      | turn other =>
        rw [act]
        split
        · rfl
        · next v hv => exact (Worker.halts_step hr hc (hmade v (List.mem_of_getElem? hv))).2
    have hhalts (p : Nat) (v : Worker) (hv : crew.workers[p]? = some v) :
        ∃ v', (crew.act a).workers[p]? = some v' ∧ v.Halts v' := by
      have hstep := (Worker.halts_step hr hc (hmade v (List.mem_of_getElem? hv))).1
      rw [crew.getElem?_act a p, hv, Option.map_some]
      refine ⟨_, rfl, ?_⟩
      split
      · exact hstep
      · exact .inl rfl
    have hnext : ∀ v' ∈ (crew.act a).workers, v'.result = none → v'.size ≤ Payload.longest := by
      intro v' hv' hnone
      obtain ⟨p, hget⟩ := List.mem_iff_getElem?.1 hv'
      have hlt := (List.getElem?_eq_some_iff.1 hget).1
      rw [length_act] at hlt
      have hv := List.getElem?_eq_getElem hlt
      obtain ⟨v'', hv'', hstep⟩ := hhalts p _ hv
      rw [hget, Option.some.injEq] at hv''
      subst hv''
      rcases hstep with rfl | ⟨-, rfl⟩
      · exact hmade _ (List.getElem_mem hlt) hnone
      · cases hnone
    obtain ⟨v, hv, hstep⟩ := hhalts place w hw
    obtain ⟨w', hw', hrest⟩ := ih (hcache ▸ hr) (hcache ▸ hc) hnext hv
    exact ⟨w', hw', hstep.trans hrest⟩

/-- The payloads fit into the cache and can be made, there are owners for all workers, and all that
is counted are words. -/
structure Feasible (capacity : UInt64) (workers entries size : Nat) : Prop where
  size_pos : 0 < size
  size_le : size ≤ capacity.toNat
  made : size ≤ Payload.longest ∨ workers * entries = 0
  entries_lt : entries < 2 ^ 63
  workers_le : workers ≤ 2 ^ 63
  puts_lt : workers * entries < wordLimit

/-- All workers are on track, and the cache holds and has counted what they did. -/
structure Reconciles (capacity : UInt64) (workers entries size : Nat) (crew : Crew .oldestFirst)
    (r : Resident) (h : History) : Prop where
  uniform : crew.cache.Uniform size r h
  capacity : crew.cache.capacity = capacity
  synthetic : ∀ x ∈ h, x.2 = Payload.synthetic x.1 size
  keys : (h.map (·.1)).Perm (crew.workers.flatMap Worker.keys)
  orders : crew.workers.map Worker.orders =
    (List.range workers).map fun owner => (Int64.ofNat owner, entries, size)
  onTrack : ∀ w ∈ crew.workers, w.OnTrack
  hits : crew.cache.counters.hits = (crew.reports.map (·.cacheHits)).sum
  misses : crew.cache.counters.misses = (crew.reports.map (·.fallbacks)).sum
  rejections : crew.cache.counters.rejections = 0

namespace Reconciles

variable {capacity : UInt64} {workers entries size : Nat} {crew : Crew .oldestFirst} {r : Resident}
  {h : History}

theorem start (capacity : UInt64) (workers entries size : Nat) :
    Reconciles capacity workers entries size
      (.start (Cache.opened .oldestFirst capacity) workers entries size)
      (.empty capacity.toNat {}) [] where
  uniform := Cache.uniform_opened capacity size
  capacity := rfl
  synthetic := by simp
  keys := by
    have hnone (owner : Nat) : (Worker.start (Int64.ofNat owner) entries size).keys = [] := by
      have hwritten : (Worker.start (Int64.ofNat owner) entries size).written = 0 :=
        Worker.written_writeOrStop (Nat.zero_le entries)
      rw [Worker.keys, hwritten]
      rfl
    simp [Crew.start, List.flatMap_map, hnone]
  orders := by simp [Crew.start, Worker.start, Worker.orders]
  onTrack := by
    intro w hw
    obtain ⟨owner, -, rfl⟩ := List.mem_map.1 hw
    exact Worker.onTrack_start _ _ _
  hits := by simp [Crew.start, reports, Worker.start, Cache.opened, Function.comp_def]
  misses := by simp [Crew.start, reports, Worker.start, Cache.opened, Function.comp_def]
  rejections := rfl

theorem length_workers (hc : Reconciles capacity workers entries size crew r h) :
    crew.workers.length = workers := by
  have hlength := congrArg List.length hc.orders
  simpa using hlength

theorem orders_eq (hc : Reconciles capacity workers entries size crew r h) {w : Worker}
    (hw : w ∈ crew.workers) :
    ∃ owner < workers, w.owner = Int64.ofNat owner ∧ w.entries = entries ∧ w.size = size := by
  have hmem : w.orders ∈ crew.workers.map Worker.orders := List.mem_map_of_mem hw
  rw [hc.orders] at hmem
  obtain ⟨owner, howner, heq⟩ := List.mem_map.1 hmem
  simp only [Worker.orders, Prod.mk.injEq] at heq
  exact ⟨owner, List.mem_range.1 howner, heq.1.symm, heq.2.1.symm, heq.2.2.symm⟩

theorem length_eq (hc : Reconciles capacity workers entries size crew r h) :
    h.length = (crew.workers.map Worker.written).sum := by
  have hlength := hc.keys.length_eq
  rw [List.length_map, List.length_flatMap] at hlength
  rw [hlength]
  simp [Worker.keys]

/-- No worker has written more than its entries. -/
theorem sum_written_le (hc : Reconciles capacity workers entries size crew r h)
    (group : List Worker) (hgroup : ∀ w ∈ group, w ∈ crew.workers) :
    (group.map Worker.written).sum ≤ group.length * entries := by
  have hle := List.sum_le_card_nsmul (group.map Worker.written) entries fun n hn => by
    obtain ⟨w, hw, rfl⟩ := List.mem_map.1 hn
    obtain ⟨-, -, -, hentries, -⟩ := hc.orders_eq (hgroup w hw)
    exact (hc.onTrack w (hgroup w hw)).written_le.trans_eq hentries
  simpa using hle

/-- No key is put twice: owners differ, and each counts its entries. -/
theorem nodup (hc : Reconciles capacity workers entries size crew r h)
    (hf : Feasible capacity workers entries size) : (h.map (·.1)).Nodup := by
  have hentries := hf.entries_lt
  have hworkers := hf.workers_le
  rw [hc.keys.nodup_iff, List.nodup_flatMap]
  refine ⟨fun w hw => ?_, ?_⟩
  · obtain ⟨-, -, -, heq, -⟩ := hc.orders_eq hw
    have hle := (hc.onTrack w hw).written_le
    exact Worker.nodup_keys (by omega)
  · have howners : (crew.workers.map (·.owner)).Nodup := by
      have heq := congrArg (List.map Prod.fst) hc.orders
      rw [List.map_map, List.map_map] at heq
      change (crew.workers.map (Prod.fst ∘ Worker.orders)).Nodup
      rw [heq]
      refine List.Nodup.map_on (fun m hm n hn hsame => ?_) List.nodup_range
      rw [List.mem_range] at hm hn
      exact Int64.ofNat_inj_of_lt (by omega) (by omega) hsame
    refine (List.pairwise_map.1 howners).imp fun hne => ?_
    intro k hk hk'
    exact hne ((Worker.owner_of_mem_keys hk).symm.trans (Worker.owner_of_mem_keys hk'))

/-- A worker that is about to write has an entry left, and so has the count of puts. -/
theorem length_lt_of_writing (hc : Reconciles capacity workers entries size crew r h)
    {before behind : List Worker} {w : Worker} {n : Nat}
    (hw : crew.workers = before ++ w :: behind) (hp : w.progress = .writing n) :
    h.length < workers * entries := by
  have hmem : w ∈ crew.workers := by simp [hw]
  have hbefore := hc.sum_written_le before fun v hv => by simp [hw, hv]
  have hbehind := hc.sum_written_le behind fun v hv => by simp [hw, hv]
  have hlength := hc.length_eq
  have hworkers := hc.length_workers
  obtain ⟨-, -, -, hentries, -⟩ := hc.orders_eq hmem
  have hwritten : w.written < entries := by
    rw [Worker.written_of_writing hp, ← hentries]
    exact (hc.onTrack w hmem).lt_of_writing hp
  rw [hw, List.map_append, List.map_cons, List.sum_append, List.sum_cons] at hlength
  rw [hw, List.length_append, List.length_cons] at hworkers
  have hsplit : workers * entries = before.length * entries + (behind.length * entries + entries) := by
    rw [← hworkers, Nat.add_mul, Nat.succ_mul]
  omega

/-- One worker moves on, and nobody else's part changes. -/
theorem replace (hc : Reconciles capacity workers entries size crew r h)
    {before behind : List Worker} {w : Worker} {t : Turn .oldestFirst}
    (hw : crew.workers = before ++ w :: behind) (ht : w.Advances crew.cache h t)
    (horders : t.worker.orders = w.orders) :
    ∃ r', Reconciles capacity workers entries size ⟨before ++ t.worker :: behind, t.cache⟩ r'
      (h ++ w.due) := by
  obtain ⟨-, -, -, -, hsize⟩ := hc.orders_eq (w := w) (by simp [hw])
  obtain ⟨r', huniform⟩ := ht.uniform
  obtain ⟨hits, hhits, hhits'⟩ := ht.hits
  obtain ⟨misses, hmisses, hmisses'⟩ := ht.misses
  rw [hsize] at huniform
  refine ⟨r', ?_⟩
  constructor
  case uniform => exact huniform
  case capacity => exact ht.capacity.trans hc.capacity
  case synthetic =>
    intro x hx
    rcases List.mem_append.1 hx with hx | hx
    · exact hc.synthetic x hx
    · rw [← hsize]
      exact Worker.synthetic_of_mem_due hx
  case keys =>
    have hold := hc.keys.append_right (w.due.map (·.1))
    rw [hw, List.flatMap_append, List.flatMap_cons] at hold
    rw [List.map_append, List.flatMap_append, List.flatMap_cons, ht.keys]
    refine hold.trans ?_
    rw [List.append_assoc, List.append_assoc, List.append_assoc]
    exact (List.perm_append_comm.append_left _).append_left _
  case orders =>
    rw [← hc.orders, hw, List.map_append, List.map_cons, horders, List.map_append, List.map_cons]
  case onTrack =>
    have hall := hc.onTrack
    rw [hw, List.forall_mem_append, List.forall_mem_cons] at hall
    rw [List.forall_mem_append, List.forall_mem_cons]
    exact ⟨hall.1, ht.onTrack, hall.2.2⟩
  case hits =>
    rw [hhits, hc.hits, reports, hw]
    simp only [reports, List.map_append, List.map_cons, List.sum_append, List.sum_cons, hhits']
    ac_rfl
  case misses =>
    rw [hmisses, hc.misses, reports, hw]
    simp only [reports, List.map_append, List.map_cons, List.sum_append, List.sum_cons, hmisses']
    ac_rfl
  case rejections => exact ht.rejections.trans hc.rejections

theorem turn (hc : Reconciles capacity workers entries size crew r h)
    (hf : Feasible capacity workers entries size) (place : Nat) :
    ∃ r' h', Reconciles capacity workers entries size (crew.act (.turn place)) r' h' := by
  cases hget : crew.workers[place]? with
  | none =>
    rw [act, hget]
    exact ⟨r, h, hc⟩
  | some w =>
    have hmem := List.mem_of_getElem? hget
    obtain ⟨before, behind, hw, hact⟩ := crew.act_turn hget
    obtain ⟨owner, hlt, howner, hentries, hsize⟩ := hc.orders_eq hmem
    have hputs := hf.puts_lt
    have hfits := hf.size_le
    have hadvances : w.Advances crew.cache h (w.step crew.cache) := by
      apply Worker.advances (r := r)
      case hu => rw [hsize]; exact hc.uniform
      case ht => exact hc.onTrack w hmem
      case howner =>
        rw [howner]
        exact Int64.ofNat_nonneg_of_lt (hlt.trans_le hf.workers_le)
      case hsize =>
        rw [hsize]
        exact hf.size_pos
      case hfits => rwa [hsize, hc.capacity]
      case hentries =>
        rw [hentries]
        exact hf.entries_lt.trans (by decide)
      case hsynthetic =>
        rw [hsize]
        exact hc.synthetic
      case hroom =>
        intro n hp
        have hleft := hc.length_lt_of_writing hw hp
        rw [hsize]
        exact ⟨hf.made.resolve_right (by omega), by omega⟩
    obtain ⟨r', hnext⟩ := hc.replace hw hadvances (w.orders_step crew.cache)
    rw [hact]
    exact ⟨r', _, hnext⟩

theorem run (hc : Reconciles capacity workers entries size crew r h)
    (hf : Feasible capacity workers entries size) {acts : List Act}
    (hopen : ∀ a ∈ acts, a ≠ .close) :
    ∃ r' h', Reconciles capacity workers entries size (crew.run acts) r' h' := by
  induction acts generalizing crew r h with
  | nil => exact ⟨r, h, hc⟩
  | cons a acts ih =>
    obtain ⟨ha, hacts⟩ := List.forall_mem_cons.1 hopen
    cases a with
    | close => exact absurd rfl ha
    | turn place =>
      obtain ⟨r', h', hnext⟩ := hc.turn hf place
      exact ih hnext hacts

/-- Once all workers are done, their reports are whole and say what the cache has counted. -/
theorem finished (hc : Reconciles capacity workers entries size crew r h)
    (hf : Feasible capacity workers entries size) (hdone : crew.Finished) :
    crew.results = crew.reports.map (fun report => some (.ok report)) ∧
      crew.reports.length = workers ∧
      (∀ report ∈ crew.reports, report.puts.toNat = entries ∧
        report.cacheHits.toNat + report.fallbacks.toNat = entries - readLag ∧
        report.corruptReads = 0) ∧
      ∃ s total, crew.cache.stats.result = .ok s ∧
        (∀ order : List Report, order.Perm crew.reports →
          Report.mergeAll {} order = (total, none)) ∧
        total.cacheHits = s.hits ∧ total.fallbacks = s.misses ∧
        total.puts.toNat = s.totalEntries.toNat + s.evictions.toNat ∧
        s.totalEntries.toNat = min (workers * entries) (capacity.toNat / size) ∧
        s.rejections = 0 := by
  have hworker : ∀ w ∈ crew.workers, w.result = some (.ok w.report) ∧ w.written = entries ∧
      w.lookedUp = entries - readLag ∧ w.report.Within entries := by
    intro w hw
    obtain ⟨-, -, -, hentries, -⟩ := hc.orders_eq hw
    obtain ⟨hresult, hwritten, hlooked⟩ := (hc.onTrack w hw).of_result (hdone w hw)
    rw [← hentries]
    exact ⟨hresult, hwritten, hlooked, (hc.onTrack w hw).within⟩
  have hlength : h.length = workers * entries := by
    have hall : crew.workers.map Worker.written = List.replicate workers entries := by
      apply List.eq_replicate_iff.2
      rw [List.length_map, hc.length_workers]
      refine ⟨rfl, fun n hn => ?_⟩
      obtain ⟨w, hw, rfl⟩ := List.mem_map.1 hn
      exact (hworker w hw).2.1
    rw [hc.length_eq, hall, List.sum_replicate_nat]
  have hputs : (Report.sum crew.reports).puts.toNat = h.length := by
    have hcounts : (crew.reports.map (·.puts)).map UInt64.toNat =
        crew.workers.map Worker.written := by
      rw [reports, List.map_map, List.map_map]
      exact List.map_congr_left fun w hw => (hc.onTrack w hw).puts
    rw [Report.sum, toNat_sum_of_lt, hcounts, hc.length_eq]
    rw [hcounts, ← hc.length_eq, hlength]
    exact hf.puts_lt
  have hnodup := hc.nodup hf
  have hentries := hc.uniform.entries
  have hevictions := hc.uniform.evictions_of_nodup hnodup
  have hsize := hc.uniform.toNat_size
  rw [History.card_keys_of_nodup hnodup, hlength, hc.capacity] at hentries
  refine ⟨?_, ?_, ?_, _, Report.sum crew.reports, hc.uniform.stats_eq, ?_, ?_, ?_, ?_, ?_, ?_⟩
  · rw [results, reports, List.map_map]
    exact List.map_congr_left fun w hw => (hworker w hw).1
  · rw [reports, List.length_map, hc.length_workers]
  · intro report hreport
    obtain ⟨w, hw, rfl⟩ := List.mem_map.1 hreport
    obtain ⟨-, hwritten, hlooked, -⟩ := hworker w hw
    have htrack := hc.onTrack w hw
    exact ⟨htrack.puts.trans hwritten, htrack.reads.trans hlooked, htrack.faithful⟩
  · intro order horder
    have hwithin : ∀ report ∈ order, report.Within entries := by
      intro report hreport
      obtain ⟨w, hw, rfl⟩ := List.mem_map.1 (horder.mem_iff.1 hreport)
      exact (hworker w hw).2.2.2
    have hfits : Report.Fits order := Report.fits_of_within hwithin (by
      rw [horder.length_eq, reports, List.length_map, hc.length_workers]
      exact hf.puts_lt)
    rw [Report.mergeAll_of_fits hfits, Report.sum_perm horder]
  · exact hc.hits.symm
  · exact hc.misses.symm
  · rw [hputs, Counters.snapshot, hsize, Nat.add_comm, hevictions]
  · rw [Counters.snapshot, hsize, hentries]
  · exact hc.rejections

/-- Once the cache is closed, each worker that is done reports what it had done by then. -/
theorem closed (hc : Reconciles capacity workers entries size crew r h)
    (hf : Feasible capacity workers entries size) {acts : List Act}
    (hdone : (crew.run (.close :: acts)).Finished) {place : Nat} (hplace : place < workers) :
    ∃ w, crew.workers[place]? = some w ∧
      (crew.run (.close :: acts)).results[place]? = some (some (.ok w.report)) ∧
      w.report.corruptReads = 0 ∧ w.report.puts.toNat ≤ entries ∧
      (w.report.cacheHits.toNat + w.report.fallbacks.toNat = w.report.puts.toNat - readLag ∨
        w.report.cacheHits.toNat + w.report.fallbacks.toNat = w.report.puts.toNat - readLag - 1 ∧
          w.progress = .reading (w.report.puts.toNat - 1)) := by
  have hclose := hc.uniform.records.holds.close_eq
  have hmade : ∀ w ∈ crew.workers, w.result = none → w.size ≤ Payload.longest := by
    intro w hw hnone
    obtain ⟨owner, hlt, -, hentries, hsize⟩ := hc.orders_eq hw
    rw [hsize]
    apply hf.made.resolve_right
    have hpos := (hc.onTrack w hw).entries_pos hnone
    rw [hentries] at hpos
    exact (Nat.mul_pos (Nat.zero_lt_of_lt hlt) hpos).ne'
  have hlt : place < crew.workers.length := hc.length_workers.symm ▸ hplace
  have hw := List.getElem?_eq_getElem hlt
  obtain ⟨w', hw', hhalts⟩ := @halts_run _ (crew.act .close) (by rw [act, hclose])
    (by rw [act, hclose]) hmade acts place _ hw
  have hmem := List.getElem_mem hlt
  obtain ⟨-, -, -, hentries, -⟩ := hc.orders_eq hmem
  obtain ⟨hresult, hputs, hreads⟩ :=
    (hc.onTrack _ hmem).of_halts hhalts (hdone w' (List.mem_of_getElem? hw'))
  refine ⟨_, hw, ?_, (hc.onTrack _ hmem).faithful, hputs.trans_eq hentries, hreads⟩
  rw [results, List.getElem?_map]
  show (((crew.act .close).run acts).workers[place]?).map Worker.result = _
  rw [hw', Option.map_some, hresult]

end Reconciles

/-- In whatever order the workers take their turns, those that are done have written all their
entries and looked up all but the last ones, found nothing corrupt, and together report what the
cache has counted, in whatever order the reports are added. If the cache is closed at any moment,
each worker ends without a failure and reports what it had done by then. -/
theorem run_reconciles (capacity entries : UInt64) (workers size : Nat) (hsize : 0 < size)
    (hfits : size ≤ capacity.toNat)
    (hmade : size ≤ Payload.longest ∨ workers * entries.toNat = 0)
    (hentries : entries.toNat < 2 ^ 63) (hworkers : workers ≤ 2 ^ 63)
    (hputs : workers * entries.toNat < wordLimit) :
    ∃ opened, Cache.create .oldestFirst capacity = .ok opened ∧
      let crew := Crew.start opened.cache workers (signedCount entries) size
      (∀ acts : List Act,
        (∀ place < workers, 2 * entries.toNat ≤ acts.count (.turn place)) →
          (crew.run acts).Finished) ∧
      (∀ acts : List Act, (∀ a ∈ acts, a ≠ .close) → (crew.run acts).Finished →
        (crew.run acts).results = (crew.run acts).reports.map (fun report => some (.ok report)) ∧
        (crew.run acts).reports.length = workers ∧
        (∀ report ∈ (crew.run acts).reports, report.puts.toNat = entries.toNat ∧
          report.cacheHits.toNat + report.fallbacks.toNat = entries.toNat - readLag ∧
          report.corruptReads = 0) ∧
        ∃ s total, (crew.run acts).cache.stats.result = .ok s ∧
          (∀ order : List Report, order.Perm (crew.run acts).reports →
            Report.mergeAll {} order = (total, none)) ∧
          total.cacheHits = s.hits ∧ total.fallbacks = s.misses ∧
          total.puts.toNat = s.totalEntries.toNat + s.evictions.toNat ∧
          s.totalEntries.toNat = min (workers * entries.toNat) (capacity.toNat / size) ∧
          s.rejections = 0) ∧
      ∀ before behind : List Act, (∀ a ∈ before, a ≠ .close) →
        (crew.run (before ++ .close :: behind)).Finished →
        ∀ place < workers, ∃ w, (crew.run before).workers[place]? = some w ∧
          (crew.run (before ++ .close :: behind)).results[place]? = some (some (.ok w.report)) ∧
          w.report.corruptReads = 0 ∧ w.report.puts.toNat ≤ entries.toNat ∧
          (w.report.cacheHits.toNat + w.report.fallbacks.toNat = w.report.puts.toNat - readLag ∨
            w.report.cacheHits.toNat + w.report.fallbacks.toNat =
                w.report.puts.toNat - readLag - 1 ∧
              w.progress = .reading (w.report.puts.toNat - 1)) := by
  have hc : 0 < capacity := UInt64.lt_iff_toNat_lt.2 (hsize.trans_le hfits)
  have hf : Feasible capacity workers entries.toNat size :=
    ⟨hsize, hfits, hmade, hentries, hworkers, hputs⟩
  refine ⟨_, Cache.create_eq hc {}, ?_⟩
  rw [signedCount_of_lt hentries]
  intro crew
  have hstart : Reconciles capacity workers entries.toNat size crew _ _ :=
    .start capacity workers entries.toNat size
  refine ⟨fun acts hturns => ?_, fun acts hopen hdone => ?_, fun before behind hopen hdone => ?_⟩
  · apply crew.finished_run
    intro place w hw
    have hmem := List.mem_of_getElem? hw
    have hlt := (List.getElem?_eq_some_iff.1 hw).1
    rw [hstart.length_workers] at hlt
    obtain ⟨owner, -, rfl⟩ := List.mem_map.1 hmem
    rw [Worker.remaining_start]
    exact hturns place hlt
  · obtain ⟨r, h, hnext⟩ := hstart.run hf hopen
    exact hnext.finished hf hdone
  · obtain ⟨r, h, hnext⟩ := hstart.run hf hopen
    rw [run_append] at hdone ⊢
    intro place hplace
    exact hnext.closed hf hdone hplace

/-- Two workers in turns fill a cache that holds fewer entries than they write; the cache is closed
before, between or after their calls. -/
theorem run_reconciles_of_two :
    let acts := (List.range 132).flatMap fun _ => [Act.turn 0, Act.turn 1]
    let crew := Crew.start (Cache.opened .oldestFirst 100) 2 66 1
    0 < 1 ∧ 1 ≤ (100 : UInt64).toNat ∧ 1 ≤ Payload.longest ∧ (66 : UInt64).toNat < 2 ^ 63 ∧
      2 * (66 : UInt64).toNat < wordLimit ∧
      (∀ report ∈ (crew.run acts).reports,
        report.puts.toNat = 66 ∧ report.cacheHits.toNat + report.fallbacks.toNat = 2) ∧
      (∃ s, (crew.run acts).cache.stats.result = .ok s ∧ s.totalEntries.toNat = 100) ∧
      ∀ n, ∃ report, (crew.run (acts.take n ++ .close :: acts)).results[1]? =
        some (some (.ok report)) := by
  intro acts crew
  obtain ⟨opened, hopened, hfinished, hopen, hclosed⟩ :=
    run_reconciles 100 66 2 1 (by decide) (by decide) (.inl (by decide)) (by decide) (by decide)
      (by decide)
  rw [Cache.create_eq (by decide)] at hopened
  cases hopened
  have hturns : ∀ a ∈ acts, a ≠ .close := by decide +kernel
  have hcount : ∀ place < 2, 132 ≤ acts.count (.turn place) := by decide +kernel
  obtain ⟨-, -, hreports, s, -, hs, -, -, -, -, hentries, -⟩ :=
    hopen acts hturns (hfinished acts hcount)
  refine ⟨by decide, by decide, by decide, by decide, by decide, ?_, ⟨s, hs, hentries⟩, ?_⟩
  · intro report hreport
    obtain ⟨hputs, hreads, -⟩ := hreports report hreport
    exact ⟨hputs, hreads⟩
  · intro n
    have hdone : (crew.run (acts.take n ++ .close :: acts)).Finished := by
      apply hfinished
      intro place hplace
      rw [List.count_append, List.count_cons]
      exact (hcount place hplace).trans (by omega)
    obtain ⟨w, -, hresult, -⟩ :=
      hclosed (acts.take n) acts (fun a ha => hturns a (List.mem_of_mem_take ha)) hdone 1 (by decide)
    exact ⟨w.report, hresult⟩

/-- A payload that fits into the cache may still be too long to be made. -/
theorem run_fails_of_unmakeable :
    let size := 2 ^ 63
    0 < size ∧ size ≤ (9223372036854775808 : UInt64).toNat ∧ (1 : UInt64).toNat < 2 ^ 63 ∧
      1 * (1 : UInt64).toNat < wordLimit ∧
      ∃ opened, Cache.create .oldestFirst 9223372036854775808 = .ok opened ∧
        ((Crew.start opened.cache 1 (signedCount 1) size).run [.turn 0]).results =
          [some (.error (.fault .payloadTooLong))] := by
  refine ⟨by decide, by decide, by decide, by decide, _, Cache.create_eq (by decide) {}, ?_⟩
  rfl

end Crew

end LedgerCache
