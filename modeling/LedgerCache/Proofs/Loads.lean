import LedgerCache.Load
import LedgerCache.Proofs.LoneWorkers

namespace LedgerCache

open Std

namespace Config

theorem validate_eq_ok_iff (c : Config) :
    c.validate = .ok () ↔
      c.capacityBytes ≠ 0 ∧ c.statsInterval ≠ 0 ∧ c.workers ≠ 0 ∧ c.entrySize ≠ 0 := by
  rw [validate]
  split_ifs <;> simp_all

/-- The settings that must not be zero, each with its variable, in the order in which they are
looked at. -/
def checkedFields : List (String × (Config → UInt64)) :=
  [(capacityVariable, capacityBytes), (intervalVariable, statsInterval), (workersVariable, workers),
    (sizeVariable, entrySize)]

/-- The first of the settings that is zero is named. -/
theorem validate_eq_find (c : Config) :
    c.validate =
      match checkedFields.find? fun x => x.2 c = 0 with
      | none => .ok ()
      | some x => .error (mustBePositive x.1) := by
  unfold validate checkedFields
  split_ifs with hcapacity hinterval hworkers hsize
  · simp [hcapacity]
  · simp [hcapacity, hinterval]
  · simp [hcapacity, hinterval, hworkers]
  · simp [hcapacity, hinterval, hworkers, hsize]
  · simp [hcapacity, hinterval, hworkers, hsize]

end Config

namespace Worker

variable {nominate : Nomination} {w : Worker} {c : Cache nominate} {f : Failure}

/-- A first call that fails is the last one. -/
theorem run_of_failure (hw : 0 < w.entries) (hdone : w.result = none)
    (hstep : (w.step c).worker = { w with progress := .failed f }) :
    (w.run c).worker.result = some (.error f) ∧ (w.run c).cache = (w.step c).cache := by
  have hfailed : (w.step c).worker.result = some (.error f) := by
    rw [hstep]
    rfl
  rw [run_of_done hw hdone (by simp [hfailed])]
  exact ⟨hfailed, rfl⟩

theorem start_eq {owner : Int64} {entries size : Nat} (h : 0 < entries) :
    start owner entries size = { owner, entries, size, progress := .writing 0 } := by
  rw [start, writeOrStop, if_pos h]

/-- A payload that cannot be made ends the worker before its first call on the cache. -/
theorem run_eq_of_unmakeable {owner : Int64} {entries size : Nat} (hentries : 0 < entries)
    (hsize : Payload.longest < size) :
    (start owner entries size).run c =
      { worker := { owner, entries, size, progress := .failed (.fault .payloadTooLong) }
        cache := c } := by
  have hmake (k : Key) := Payload.generate_eq_error k hsize
  rw [start_eq hentries]
  set w : Worker := { owner, entries, size, progress := .writing 0 }
  have hstep : w.step c =
      { worker := { w with progress := .failed (.fault .payloadTooLong) }, cache := c } := by
    simp only [w, step, write, hmake]
  rw [run_of_done (w := w) hentries rfl (by rw [hstep]; rfl), hstep]

theorem run_unmakeable {owner : Int64} {entries size : Nat} (hentries : 0 < entries)
    (hsize : Payload.longest < size) :
    ((start owner entries size).run c).worker.result = some (.error (.fault .payloadTooLong)) ∧
      ((start owner entries size).run c).cache = c := by
  rw [run_eq_of_unmakeable hentries hsize]
  exact ⟨rfl, rfl⟩

/-- A put that is refused ends the worker, and only the refusal is counted. -/
theorem step_refused {n : Nat} (hp : w.progress = .writing n) (hopen : c.closed = false)
    (hmade : w.size ≤ Payload.longest) {e : Error} (he : c.objection (w.key n) w.size = some e) :
    (w.step c).worker = { w with progress := .failed (.refused e) } ∧
      (w.step c).cache = { c with counters := c.counters.reject } := by
  rw [← Payload.size_synthetic (w.key n) w.size] at he
  have hput := Cache.put_of_objection hopen he
  have hne := Cache.objection_ne_closed hopen he
  simp only [step, hp, write, Payload.generate_eq_ok _ _ hmade, hput, Cache.reject]
  cases e <;> first | exact absurd rfl hne | exact ⟨rfl, rfl⟩

theorem run_refused {owner : Int64} {entries size : Nat} (hopen : c.closed = false)
    (hentries : 0 < entries) (hmade : size ≤ Payload.longest) {e : Error}
    (he : c.objection ⟨owner, 0⟩ size = some e) :
    ((start owner entries size).run c).worker.result = some (.error (.refused e)) ∧
      ((start owner entries size).run c).cache = { c with counters := c.counters.reject } := by
  rw [start_eq hentries]
  set w : Worker := { owner, entries, size, progress := .writing 0 }
  have hstep := w.step_refused (n := 0) rfl hopen hmade he
  obtain ⟨hresult, hcache⟩ := run_of_failure (c := c) hentries rfl hstep.1
  exact ⟨hresult, hcache.trans hstep.2⟩

theorem objection_of_oversized {key : Key} {size : Nat} (hopen : c.closed = false)
    (howner : 0 ≤ key.owner) (hsize : c.capacity.toNat < size) :
    c.objection key size = some (.oversizedPayload size c.capacity.toNat) := by
  rw [Cache.objection, if_neg (by simp [hopen]), if_neg (Int64.not_lt.2 howner),
    if_neg (by omega), if_pos hsize]

theorem step_oversized {n : Nat} (hp : w.progress = .writing n) (hopen : c.closed = false)
    (howner : 0 ≤ w.owner) (hmade : w.size ≤ Payload.longest) (hsize : c.capacity.toNat < w.size) :
    (w.step c).worker =
        { w with progress := .failed (.refused (.oversizedPayload w.size c.capacity.toNat)) } ∧
      (w.step c).cache = { c with counters := c.counters.reject } :=
  step_refused hp hopen hmade (objection_of_oversized hopen howner hsize)

theorem run_oversized {owner : Int64} {entries size : Nat} (hopen : c.closed = false)
    (howner : 0 ≤ owner) (hentries : 0 < entries) (hmade : size ≤ Payload.longest)
    (hsize : c.capacity.toNat < size) :
    ((start owner entries size).run c).worker.result =
        some (.error (.refused (.oversizedPayload size c.capacity.toNat))) ∧
      ((start owner entries size).run c).cache = { c with counters := c.counters.reject } :=
  run_refused hopen hentries hmade (objection_of_oversized hopen howner hsize)

end Worker

namespace Work

variable {nominate : Nomination}

/-- With no worker, or with nothing to write, nothing is done. -/
theorem workers_idle {workers entries : Nat} (h : workers * entries = 0) (size owner : Nat)
    (c : Cache nominate) :
    Work.workers entries size workers owner { cache := c } = { cache := c } := by
  rcases Nat.mul_eq_zero.1 h with rfl | rfl
  · rfl
  · clear h
    induction workers generalizing owner with
    | zero => rfl
    | succ n ih => exact ih (owner + 1)

/-- If the first worker fails, its failure ends the work. -/
theorem workers_of_failure {workers entries size : Nat} {c c' : Cache nominate} {f : Failure}
    (hworkers : 0 < workers)
    (h : ((Worker.start (Int64.ofNat 0) entries size).run c).worker.result = some (.error f) ∧
      ((Worker.start (Int64.ofNat 0) entries size).run c).cache = c') :
    (Work.workers entries size workers 0 { cache := c }).total = {} ∧
      (Work.workers entries size workers 0 { cache := c }).failure = some f ∧
      (Work.workers entries size workers 0 { cache := c }).cache = c' := by
  obtain ⟨n, rfl⟩ := Nat.exists_eq_succ_of_ne_zero hworkers.ne'
  simp only [Work.workers, collect, h.1, h.2, Option.isSome_some, if_true]
  exact ⟨trivial, trivial, trivial⟩

/-- The first `n` workers have done all their work, on a new cache. -/
structure Filled (capacity : UInt64) (entries size n : Nat) (w : Work .oldestFirst) : Prop where
  uniform : ∃ r h, w.cache.Uniform size r h ∧ (∀ x ∈ h, x.2 = Payload.synthetic x.1 size) ∧
    (h.map (·.1)).Nodup ∧ (∀ x ∈ h, ∃ m < n, x.1.owner = Int64.ofNat m) ∧ h.length = n * entries
  failure : w.failure = none
  puts : w.total.puts.toNat = n * entries
  reads : w.total.cacheHits.toNat + w.total.fallbacks.toNat = n * (entries - readLag)
  faithful : w.total.corruptReads = 0
  near : (readLag + 1) * size ≤ capacity.toNat → w.total.fallbacks = 0
  far : capacity.toNat < (readLag + 1) * size → w.total.cacheHits = 0
  hits : w.cache.counters.hits = w.total.cacheHits
  misses : w.cache.counters.misses = w.total.fallbacks
  rejections : w.cache.counters.rejections = 0
  capacity : w.cache.capacity = capacity

namespace Filled

variable {capacity : UInt64} {entries size n : Nat} {w : Work .oldestFirst}

theorem start (capacity : UInt64) (entries size : Nat) :
    Filled capacity entries size 0 { cache := Cache.opened .oldestFirst capacity } where
  uniform := ⟨_, [], Cache.uniform_opened capacity size, by simp, by simp, by simp, by simp⟩
  capacity := rfl
  failure := rfl
  puts := (Nat.zero_mul entries).symm
  reads := (Nat.zero_mul _).symm
  faithful := rfl
  near _ := rfl
  far _ := rfl
  hits := rfl
  misses := rfl
  rejections := rfl

theorem within (hw : Filled capacity entries size n w) : w.total.Within (n * entries) := by
  have hreads := hw.reads
  have hle : n * (entries - readLag) ≤ n * entries := Nat.mul_le_mul_left n (Nat.sub_le _ _)
  refine ⟨hw.puts.le, by omega, by omega, ?_⟩
  rw [hw.faithful]
  exact Nat.zero_le _

/-- The next worker finds room for all its entries. -/
theorem admissible (hw : Filled capacity entries size n w) (hsize : 0 < size)
    (hfits : size ≤ capacity.toNat) (hmade : size ≤ Payload.longest) (hn : n < 2 ^ 63)
    (hentries : entries < 2 ^ 63) (hputs : n * entries + entries < wordLimit) :
    ∃ r h, w.cache.Uniform size r h ∧ (h.map (·.1)).Nodup ∧
      (∀ x ∈ h, ∃ m < n, x.1.owner = Int64.ofNat m) ∧ h.length = n * entries ∧
      Worker.Admissible w.cache.capacity h (Int64.ofNat n) entries size := by
  obtain ⟨r, h, hu, hsynthetic, hnodup, howners, hlength⟩ := hw.uniform
  have hfresh : ∀ x ∈ h, x.1.owner ≠ Int64.ofNat n := by
    intro x hx heq
    obtain ⟨m, hm, howner⟩ := howners x hx
    have hsame := Int64.ofNat_inj_of_lt (by omega) hn (howner.symm.trans heq)
    omega
  exact ⟨r, h, hu, hnodup, howners, hlength, ⟨hsize, hw.capacity ▸ hfits, hmade,
    Int64.ofNat_nonneg_of_lt hn, hentries, hlength ▸ hputs⟩, hsynthetic, hfresh⟩

/-- One worker more. -/
theorem collect (hw : Filled capacity entries size n w) (hsize : 0 < size)
    (hfits : size ≤ capacity.toNat) (hmade : size ≤ Payload.longest) (hn : n < 2 ^ 63)
    (hentries : entries < 2 ^ 63) (hputs : n * entries + entries < wordLimit) :
    Filled capacity entries size (n + 1)
      (w.collect ((Worker.start (Int64.ofNat n) entries size).run w.cache)) := by
  obtain ⟨r, h, hu, hnodup, howners, hlength, hadmissible⟩ :=
    hw.admissible hsize hfits hmade hn hentries hputs
  have hfresh := hadmissible.fresh
  obtain ⟨ha, hresult, hcount, hlooked⟩ := Worker.run_alone hu hadmissible
  set t := (Worker.start (Int64.ofNat n) entries size).run w.cache
  obtain ⟨r', hu'⟩ := ha.uniform
  obtain ⟨howner, hentries', -⟩ := ha.orders_eq
  have hwithin := ha.onTrack.within
  rw [hentries'] at hwithin
  have hmerge := Report.merge_eq hw.within hwithin hputs
  have hcollect : w.collect t =
      { cache := t.cache, total := w.total + t.worker.report, failure := none,
        events := w.events ++ t.events } := by
    simp only [Work.collect, hresult, hmerge, Option.map_none]
  have hwritten : t.worker.written = entries := ha.onTrack.puts.symm.trans hcount
  have hputs'' := hw.puts
  have hreads := hw.reads
  have hle : n * (entries - readLag) ≤ n * entries := Nat.mul_le_mul_left n (Nat.sub_le _ _)
  rw [hcollect]
  constructor
  case uniform =>
    refine ⟨r', _, hu', ?_, ?_, ?_, ?_⟩
    · rw [← ha.orders_eq.2.2]
      exact ha.synthetic hadmissible
    · apply Worker.nodup_append_puts hnodup
      · rwa [howner]
      · omega
    · intro x hx
      rcases List.mem_append.1 hx with hx | hx
      · obtain ⟨m, hm, heq⟩ := howners x hx
        exact ⟨m, by omega, heq⟩
      · exact ⟨n, by omega, (Worker.owner_of_mem_puts hx).trans howner⟩
    · rw [List.length_append, Worker.length_puts, hwritten, hlength, Nat.succ_mul]
  case capacity => exact ha.capacity.trans hw.capacity
  case failure => rfl
  case puts =>
    show (w.total.puts + t.worker.report.puts).toNat = _
    rw [toNat_add_of_lt (by omega), hw.puts, hcount, Nat.succ_mul]
  case reads =>
    show (w.total.cacheHits + t.worker.report.cacheHits).toNat +
      (w.total.fallbacks + t.worker.report.fallbacks).toNat = _
    rw [toNat_add_of_lt (by omega), toNat_add_of_lt (by omega), Nat.succ_mul]
    omega
  case faithful =>
    show w.total.corruptReads + t.worker.report.corruptReads = 0
    rw [hw.faithful, ha.onTrack.faithful]
    rfl
  case near =>
    intro hnear
    show w.total.fallbacks + t.worker.report.fallbacks = 0
    rw [hw.near hnear, ha.near (hw.capacity ▸ hnear)]
    rfl
  case far =>
    intro hfar
    show w.total.cacheHits + t.worker.report.cacheHits = 0
    rw [hw.far hfar, ha.far (hw.capacity ▸ hfar)]
    rfl
  case hits =>
    rw [ha.hits, hw.hits]
    rfl
  case misses =>
    rw [ha.misses, hw.misses]
    rfl
  case rejections => exact ha.rejections.trans hw.rejections

theorem workers (hw : Filled capacity entries size n w) (hsize : 0 < size)
    (hfits : size ≤ capacity.toNat) (hmade : size ≤ Payload.longest) (more : Nat)
    (hn : n + more ≤ 2 ^ 63) (hentries : entries < 2 ^ 63)
    (hputs : (n + more) * entries < wordLimit) :
    Filled capacity entries size (n + more) (Work.workers entries size more n w) := by
  induction more generalizing n w with
  | zero => exact hw
  | succ more ih =>
    rw [show n + (more + 1) = n + 1 + more by omega] at hn hputs ⊢
    have hle : (n + 1) * entries ≤ (n + 1 + more) * entries :=
      Nat.mul_le_mul_right _ (Nat.le_add_right _ _)
    rw [Nat.succ_mul] at hle
    have hnext := hw.collect hsize hfits hmade (by omega) hentries (by omega)
    rw [Work.workers, hnext.failure, Option.isSome_none, if_neg Bool.false_ne_true]
    exact ih hnext hn hputs

/-- What the statistics are when the work is done. -/
theorem stats (hw : Filled capacity entries size n w) :
    ∃ r s, w.cache.Holds r ∧ w.cache.stats.result = .ok s ∧
      s.capacityBytes = capacity ∧ s.hits = w.total.cacheHits ∧ s.misses = w.total.fallbacks ∧
      s.totalEntries.toNat = min (n * entries) (capacity.toNat / size) ∧
      s.usedBytes.toNat = size * s.totalEntries.toNat ∧
      s.evictions.toNat + s.totalEntries.toNat = n * entries ∧ s.rejections = 0 := by
  obtain ⟨r, h, hu, -, hnodup, -, hlength⟩ := hw.uniform
  have hentries := hu.entries
  have hevictions := hu.evictions_of_nodup hnodup
  have hword := hu.toNat_size
  rw [History.card_keys_of_nodup hnodup, hlength, hw.capacity] at hentries
  refine ⟨r, _, hu.records.holds, hu.stats_eq, hw.capacity, hw.hits, hw.misses, ?_, ?_, ?_,
    hw.rejections⟩
  · rw [Counters.snapshot, hword, hentries]
  · rw [Counters.snapshot, hword, hu.toNat_used]
  · rw [Counters.snapshot, hword, hevictions, hlength]

end Filled

end Work

/-- An open cache and a reporter that has not reported are shut down at once. -/
theorem Supervised.closeAndJoin_eq {nominate : Nomination} {c : Cache nominate} {r : Resident}
    (h : c.Holds r) {s : Stats} (hs : c.stats.result = .ok s) (interval : Nat) :
    (closeAndJoin { cache := c, task := { job := .report interval } }).result = .ok (s, 0) ∧
      (closeAndJoin { cache := c, task := { job := .report interval } }).final.cache.closed =
        true := by
  have hclosed : Cache.stats ({ c with closed := true, resident := none } : Cache nominate) =
      Cache.refuseClosed _ := rfl
  have htaken : c.stats.cache = c := c.cache_query _
  simp only [closeAndJoin, hs, htaken, h.close_eq, Task.join, Task.start, Task.tick, hclosed,
    Cache.refuseClosed, Task.value]
  exact ⟨rfl, trivial⟩

namespace Config

/-- The work that a configuration asks for, on its new cache. -/
def work (c : Config) : Work .oldestFirst :=
  Work.workers (signedCount c.entriesPerWorker) c.entrySize.toNat (signedCount c.workers) 0
    { cache := Cache.opened .oldestFirst c.capacityBytes }

/-- A load does the work and shuts down. -/
theorem load_eq {c : Config} (hc : c.capacityBytes ≠ 0) {r : Resident} (h : c.work.cache.Holds r)
    {s : Stats} (hs : c.work.cache.stats.result = .ok s) :
    ∃ load, c.load = .ok load ∧ load.total = c.work.total ∧ load.failure = c.work.failure ∧
      load.shutdown = .ok (s, 0) ∧ load.closed = true := by
  have hpos : 0 < c.capacityBytes := UInt64.pos_iff_ne_zero.2 hc
  obtain ⟨hresult, hclosed⟩ :=
    Supervised.closeAndJoin_eq h hs (1000 * c.statsInterval.toNat)
  rw [load, Cache.create_eq hpos {}]
  exact ⟨_, rfl, rfl, rfl, hresult, hclosed⟩

variable {c : Config}

/-- Where nothing was put, the statistics show no more than what was counted. -/
theorem load_of_empty (hc : c.capacityBytes ≠ 0) {counters : Counters} {total : Report}
    {failure : Option Failure}
    (hwork : c.work.total = total ∧ c.work.failure = failure ∧
      c.work.cache = { Cache.opened .oldestFirst c.capacityBytes with counters }) :
    ∃ load, c.load = .ok load ∧ load.total = total ∧ load.failure = failure ∧
      load.shutdown = .ok (counters.snapshot 0 0 c.capacityBytes, 0) ∧ load.closed = true := by
  obtain ⟨rfl, rfl, hcache⟩ := hwork
  have hholds : c.work.cache.Holds (.empty c.capacityBytes.toNat {}) := by
    rw [hcache]
    exact ⟨rfl, rfl, Resident.sound_empty _ _, rfl⟩
  have hstats : c.work.cache.stats.result = .ok (counters.snapshot 0 0 c.capacityBytes) := by
    rw [hcache]
    rfl
  exact load_eq hc hholds hstats

/-- With nothing to write the cache stays as it was opened. -/
theorem work_idle (h : signedCount c.workers * signedCount c.entriesPerWorker = 0) :
    c.work.total = {} ∧ c.work.failure = none ∧
      c.work.cache = Cache.opened .oldestFirst c.capacityBytes := by
  rw [work, Work.workers_idle h]
  exact ⟨rfl, rfl, rfl⟩

theorem work_unmakeable (h : 0 < signedCount c.workers * signedCount c.entriesPerWorker)
    (hsize : Payload.longest < c.entrySize.toNat) :
    c.work.total = {} ∧ c.work.failure = some (.fault .payloadTooLong) ∧
      c.work.cache = Cache.opened .oldestFirst c.capacityBytes :=
  Work.workers_of_failure (Nat.pos_of_mul_pos_right h)
    (Worker.run_unmakeable (Nat.pos_of_mul_pos_left h) hsize)

theorem work_oversized (h : 0 < signedCount c.workers * signedCount c.entriesPerWorker)
    (hmade : c.entrySize.toNat ≤ Payload.longest)
    (hsize : c.capacityBytes.toNat < c.entrySize.toNat) :
    c.work.total = {} ∧
      c.work.failure =
        some (.refused (.oversizedPayload c.entrySize.toNat c.capacityBytes.toNat)) ∧
      c.work.cache =
        { Cache.opened .oldestFirst c.capacityBytes with counters := { rejections := 1 } } :=
  Work.workers_of_failure (Nat.pos_of_mul_pos_right h)
    (Worker.run_oversized rfl (by decide) (Nat.pos_of_mul_pos_left h) hmade hsize)

theorem work_filled (hsize : 0 < c.entrySize.toNat)
    (hputs : signedCount c.workers * signedCount c.entriesPerWorker < wordLimit)
    (hmade : c.entrySize.toNat ≤ Payload.longest)
    (hfits : c.entrySize.toNat ≤ c.capacityBytes.toNat) :
    Work.Filled c.capacityBytes (signedCount c.entriesPerWorker) c.entrySize.toNat
      (signedCount c.workers) c.work := by
  have hworkers := signedCount_lt c.workers
  have hfilled := (Work.Filled.start c.capacityBytes (signedCount c.entriesPerWorker)
    c.entrySize.toNat).workers hsize hfits hmade (signedCount c.workers) (by omega)
      (signedCount_lt c.entriesPerWorker) (by rwa [Nat.zero_add])
  rwa [Nat.zero_add] at hfilled

/-- Where all entries were written, the load has no failure and its total tells what was found. -/
theorem load_of_filled (hc : c.capacityBytes ≠ 0) {workers entries : Nat}
    (hw : Work.Filled c.capacityBytes entries c.entrySize.toNat workers c.work) :
    ∃ load s, c.load = .ok load ∧ load.shutdown = .ok (s, 0) ∧ load.closed = true ∧
      s.capacityBytes = c.capacityBytes ∧ load.failure = none ∧
      load.total.puts.toNat = workers * entries ∧
      ((readLag + 1) * c.entrySize.toNat ≤ c.capacityBytes.toNat →
        load.total.cacheHits.toNat = workers * (entries - readLag) ∧ load.total.fallbacks = 0) ∧
      (c.capacityBytes.toNat < (readLag + 1) * c.entrySize.toNat →
        load.total.cacheHits = 0 ∧ load.total.fallbacks.toNat = workers * (entries - readLag)) ∧
      load.total.corruptReads = 0 ∧ s.hits = load.total.cacheHits ∧
      s.misses = load.total.fallbacks ∧
      s.totalEntries.toNat =
        min (workers * entries) (c.capacityBytes.toNat / c.entrySize.toNat) ∧
      s.usedBytes.toNat = c.entrySize.toNat * s.totalEntries.toNat ∧
      s.evictions.toNat = workers * entries - s.totalEntries.toNat ∧ s.rejections = 0 := by
  have hreads := hw.reads
  obtain ⟨r, s, hholds, hs, hbytes, hhits, hmisses, hentries, hused, hevictions, hrejections⟩ :=
    hw.stats
  obtain ⟨load, hload, htotal, hfailure, hshutdown, hclosed⟩ := load_eq hc hholds hs
  rw [← htotal] at hhits hmisses hreads
  refine ⟨load, s, hload, hshutdown, hclosed, hbytes, hfailure.trans hw.failure, htotal ▸ hw.puts,
    fun hnear => ?_, fun hfar => ?_, htotal ▸ hw.faithful, hhits, hmisses, hentries, hused,
    Nat.eq_sub_of_add_eq hevictions, hrejections⟩
  · have hnone : load.total.fallbacks = 0 := htotal ▸ hw.near hnear
    rw [hnone] at hreads
    exact ⟨hreads, hnone⟩
  · have hnone : load.total.cacheHits = 0 := htotal ▸ hw.far hfar
    rw [hnone] at hreads
    exact ⟨hnone, (Nat.zero_add _).symm.trans hreads⟩

end Config

/-- The outcome of the load in each environment. Settings that are not accepted are its error. Else
the cache and its reporter are shut down, with no report made, and all that was put is resident or
evicted; what was put and found, or what ended the work, is one of four cases. -/
theorem Load.ofEnvironment_outcome (env : Environment) :
    let c := Config.ofEnvironment env
    let capacity := c.capacityBytes.toNat
    let size := c.entrySize.toNat
    let puts := signedCount c.workers * signedCount c.entriesPerWorker
    let reads := signedCount c.workers * (signedCount c.entriesPerWorker - readLag)
    (∀ e, c.validate = .error e → Load.ofEnvironment env = .error e) ∧
      (c.validate = .ok () → puts < wordLimit →
        ∃ load s, Load.ofEnvironment env = .ok load ∧ load.shutdown = .ok (s, 0) ∧
          load.closed = true ∧ s.capacityBytes = c.capacityBytes ∧
          load.total.puts.toNat = s.totalEntries.toNat + s.evictions.toNat ∧
          (puts = 0 →
            load.total = {} ∧ load.failure = none ∧ s = { capacityBytes := c.capacityBytes }) ∧
          (0 < puts → Payload.longest < size →
            load.total = {} ∧ load.failure = some (.fault .payloadTooLong) ∧
              s = { capacityBytes := c.capacityBytes }) ∧
          (0 < puts → size ≤ Payload.longest → capacity < size →
            load.total = {} ∧
              load.failure = some (.refused (.oversizedPayload size capacity)) ∧
              s = { rejections := 1, capacityBytes := c.capacityBytes }) ∧
          (0 < puts → size ≤ Payload.longest → size ≤ capacity →
            load.failure = none ∧ load.total.puts.toNat = puts ∧
              ((readLag + 1) * size ≤ capacity →
                load.total.cacheHits.toNat = reads ∧ load.total.fallbacks = 0) ∧
              (capacity < (readLag + 1) * size →
                load.total.cacheHits = 0 ∧ load.total.fallbacks.toNat = reads) ∧
              load.total.corruptReads = 0 ∧ s.hits = load.total.cacheHits ∧
              s.misses = load.total.fallbacks ∧
              s.totalEntries.toNat = min puts (capacity / size) ∧
              s.usedBytes.toNat = size * s.totalEntries.toNat ∧
              s.evictions.toNat = puts - s.totalEntries.toNat ∧ s.rejections = 0)) := by
  intro c capacity size puts reads
  refine ⟨fun e he => ?_, fun hvalid hputs => ?_⟩
  · have he : (Config.ofEnvironment env).validate = .error e := he
    rw [Load.ofEnvironment, he]
    rfl
  · have hload : Load.ofEnvironment env = c.load := by
      have hvalid : (Config.ofEnvironment env).validate = .ok () := hvalid
      rw [Load.ofEnvironment, hvalid]
      rfl
    obtain ⟨hcapacity, -, -, hsize⟩ := c.validate_eq_ok_iff.1 hvalid
    have hsize : 0 < size := UInt64.lt_iff_toNat_lt.1 (UInt64.pos_iff_ne_zero.2 hsize)
    rw [hload]
    rcases Nat.eq_zero_or_pos puts with hzero | hpos
    · obtain ⟨load, hload, htotal, hfailure, hshutdown, hclosed⟩ :=
        Config.load_of_empty hcapacity (Config.work_idle hzero)
      refine ⟨load, _, hload, hshutdown, hclosed, rfl, by rw [htotal]; rfl, ?_, ?_, ?_, ?_⟩
      · exact fun _ => ⟨htotal, hfailure, rfl⟩
      all_goals exact fun h => absurd hzero h.ne'
    rcases Nat.lt_or_ge Payload.longest size with hlong | hmade
    · obtain ⟨load, hload, htotal, hfailure, hshutdown, hclosed⟩ :=
        Config.load_of_empty hcapacity (Config.work_unmakeable hpos hlong)
      refine ⟨load, _, hload, hshutdown, hclosed, rfl, by rw [htotal]; rfl, ?_, ?_, ?_, ?_⟩
      · exact fun h => absurd h hpos.ne'
      · exact fun _ _ => ⟨htotal, hfailure, rfl⟩
      all_goals exact fun _ h => absurd h (Nat.not_le.2 hlong)
    rcases Nat.lt_or_ge capacity size with hover | hfits
    · obtain ⟨load, hload, htotal, hfailure, hshutdown, hclosed⟩ :=
        Config.load_of_empty hcapacity (Config.work_oversized hpos hmade hover)
      refine ⟨load, _, hload, hshutdown, hclosed, rfl, by rw [htotal]; rfl, ?_, ?_, ?_, ?_⟩
      · exact fun h => absurd h hpos.ne'
      · exact fun _ h => absurd h (Nat.not_lt.2 hmade)
      · exact fun _ _ _ => ⟨htotal, hfailure, rfl⟩
      · exact fun _ _ h => absurd h (Nat.not_le.2 hover)
    · have hfilled := Config.work_filled hsize hputs hmade hfits
      obtain ⟨load, s, hload, hshutdown, hclosed, hbytes, hrest⟩ :=
        Config.load_of_filled hcapacity hfilled
      refine ⟨load, s, hload, hshutdown, hclosed, hbytes, ?_, ?_, ?_, ?_, fun _ _ _ => hrest⟩
      · obtain ⟨-, hcount, -, -, -, -, -, hentries, -, hevictions, -⟩ := hrest
        have hle : s.totalEntries.toNat ≤ puts := hentries.trans_le (Nat.min_le_left _ _)
        rw [hcount, hevictions]
        exact (Nat.add_sub_of_le hle).symm
      · exact fun h => absurd h hpos.ne'
      · exact fun _ h => absurd h (Nat.not_lt.2 hmade)
      · exact fun _ _ h => absurd h (Nat.not_lt.2 hfits)

/-- With no variable set every lookup hits; a capacity of zero is refused. -/
theorem Load.ofEnvironment_outcome_of_defaults :
    let unset : Environment := fun _ => none
    let zero : Environment := fun name => if name = Config.capacityVariable then some [48] else none
    (Config.ofEnvironment unset).validate = .ok () ∧ 4 * 10000 < wordLimit ∧
      (∃ load s, Load.ofEnvironment unset = .ok load ∧ load.shutdown = .ok (s, 0) ∧
        load.failure = none ∧ load.total.puts.toNat = 40000 ∧
        load.total.cacheHits.toNat = 39744 ∧ s.totalEntries.toNat = 40000 ∧
        s.evictions.toNat = 0) ∧
      Load.ofEnvironment zero = .error (Config.mustBePositive Config.capacityVariable) := by
  intro unset zero
  have hvalid : (Config.ofEnvironment unset).validate = .ok () := rfl
  have hinvalid : (Config.ofEnvironment zero).validate =
      .error (Config.mustBePositive Config.capacityVariable) := by decide +kernel
  obtain ⟨load, s, hload, hshutdown, -, -, -, -, -, -, hfilled⟩ :=
    (Load.ofEnvironment_outcome unset).2 hvalid (by decide +kernel)
  obtain ⟨hfailure, hputs, hnear, -, -, -, -, hentries, -, hevictions, -⟩ :=
    hfilled (by decide +kernel) (by decide +kernel) (by decide +kernel)
  have hentries : s.totalEntries.toNat = 40000 := hentries.trans (by decide +kernel)
  refine ⟨hvalid, by decide, ⟨load, s, hload, hshutdown, hfailure, hputs.trans ?_,
    (hnear ?_).1.trans ?_, hentries, ?_⟩, (Load.ofEnvironment_outcome zero).1 _ hinvalid⟩
  · decide +kernel
  · decide +kernel
  · decide +kernel
  · rw [hevictions, hentries]
    decide +kernel

/-- A payload that is too long to be made is not refused for being too long for the cache. -/
theorem Load.ofEnvironment_fails_of_unmakeable :
    let env : Environment := fun name =>
      if name = Config.sizeVariable then
        some [57, 50, 50, 51, 51, 55, 50, 48, 51, 54, 56, 53, 52, 55, 55, 53, 56, 48, 56]
      else if name = Config.intervalVariable then none
      else some [49]
    let c := Config.ofEnvironment env
    c.validate = .ok () ∧ signedCount c.workers * signedCount c.entriesPerWorker = 1 ∧
      c.capacityBytes.toNat < c.entrySize.toNat ∧
      ∃ load, Load.ofEnvironment env = .ok load ∧
        load.failure = some (.fault .payloadTooLong) := by
  intro env c
  have hvalid : (Config.ofEnvironment env).validate = .ok () := by decide +kernel
  have hputs : signedCount c.workers * signedCount c.entriesPerWorker = 1 := by decide +kernel
  have hload : Load.ofEnvironment env = c.load := by
    rw [Load.ofEnvironment, hvalid]
    rfl
  obtain ⟨load, hload', -, hfailure, -⟩ :=
    Config.load_of_empty (c := c) (by decide +kernel)
      (Config.work_unmakeable (by omega) (by decide +kernel))
  exact ⟨hvalid, hputs, by decide +kernel, load, hload.trans hload', hfailure⟩

end LedgerCache
