import LedgerCache.Proofs.Workers

namespace LedgerCache

open Std Finset

namespace History

variable {h : History} {size limit t : Nat}

/-- Where no key comes again, the load of the puts from `t` on is that of all of them. -/
theorem load_of_distinct (hsizes : ∀ u, t ≤ u → u < h.length → h.sizeAt u = size)
    (hdistinct : ∀ u v, t ≤ u → u < v → v < h.length → h.keyAt v ≠ h.keyAt u) {n : Nat}
    (hn : n ≤ h.length) : h.load t n = (n - t) * size := by
  have hlatest : ∀ u ∈ Ico t n, h.Latest n u := by
    intro u hu v hv huv
    exact hdistinct u v (mem_Ico.1 hu).1 huv (hv.trans_le hn)
  have hsize : ∀ u ∈ Ico t n, h.sizeAt u = size := by
    intro u hu
    exact hsizes u (mem_Ico.1 hu).1 ((mem_Ico.1 hu).2.trans_le hn)
  rw [load, filter_true_of_mem hlatest, sum_const_nat hsize, Nat.card_Ico]

theorem stays_iff_of_distinct (hsizes : ∀ u, t ≤ u → u < h.length → h.sizeAt u = size)
    (hdistinct : ∀ u v, t ≤ u → u < v → v < h.length → h.keyAt v ≠ h.keyAt u)
    (ht : t + 1 < h.length) : h.Stays limit t ↔ (h.length - t) * size ≤ limit := by
  have hload (n : Nat) (hn : n ≤ h.length) := load_of_distinct hsizes hdistinct hn
  constructor
  · intro hs
    rw [← hload h.length (Nat.le_refl _)]
    exact hs.fits h.length (Nat.le_refl _) ht
  · intro hle
    refine ⟨by omega, fun u hu htu => hdistinct t u (Nat.le_refl _) htu hu, fun n hn _ => ?_⟩
    calc h.load t n = (n - t) * size := hload n hn
      _ ≤ (h.length - t) * size := Nat.mul_le_mul_right _ (Nat.sub_le_sub_right hn t)
      _ ≤ limit := hle

end History

namespace Worker

/-- What the worker has put. -/
def puts (w : Worker) : History := w.keys.map fun k => (k, Payload.synthetic k w.size)

theorem length_puts (w : Worker) : w.puts.length = w.written := by simp [puts, keys]

theorem map_fst_puts (w : Worker) : w.puts.map (·.1) = w.keys := by
  rw [puts, List.map_map]
  exact List.map_id _

theorem owner_of_mem_puts {w : Worker} {x : Key × Payload} (hx : x ∈ w.puts) :
    x.1.owner = w.owner := by
  apply owner_of_mem_keys
  rw [← map_fst_puts]
  exact List.mem_map_of_mem hx

/-- The puts of others do not repeat a key of the worker. -/
theorem nodup_append_puts {w : Worker} {h : History} (hnodup : (h.map (·.1)).Nodup)
    (hfresh : ∀ x ∈ h, x.1.owner ≠ w.owner) (hword : w.written ≤ 2 ^ 63) :
    ((h ++ w.puts).map (·.1)).Nodup := by
  rw [List.map_append, map_fst_puts, List.nodup_append]
  refine ⟨hnodup, nodup_keys hword, ?_⟩
  intro k hk k' hk' heq
  obtain ⟨x, hx, rfl⟩ := List.mem_map.1 hk
  exact hfresh x hx ((congrArg Key.owner heq).trans (owner_of_mem_keys hk'))

theorem puts_start (owner : Int64) (entries size : Nat) : (start owner entries size).puts = [] := by
  apply List.eq_nil_of_length_eq_zero
  rw [length_puts]
  exact written_writeOrStop (Nat.zero_le entries)

section

/-! The puts of the worker behind those in `h`, which may have put under its keys before. -/

variable {h : History} {w : Worker} {n : Nat}

theorem getElem?_append_puts (h : History) (hn : n < w.written) :
    (h ++ w.puts)[h.length + n]? = some (w.key n, Payload.synthetic (w.key n) w.size) := by
  rw [List.getElem?_append_right (Nat.le_add_right _ _), Nat.add_sub_cancel_left]
  simp [puts, keys, hn]

theorem keyAt_append_puts (h : History) (hn : n < w.written) :
    History.keyAt (h ++ w.puts) (h.length + n) = some (w.key n) := by
  rw [History.keyAt, getElem?_append_puts h hn]
  rfl

/-- An entry stays as long as it and all entries that were written behind it fit together. -/
theorem stays_puts_iff {limit : Nat} (h : History) (hword : w.written ≤ 2 ^ 63)
    (hn : n + 1 < w.written) :
    History.Stays (h ++ w.puts) limit (h.length + n) ↔ (w.written - n) * w.size ≤ limit := by
  have hlength : (h ++ w.puts).length = h.length + w.written := by
    rw [List.length_append, length_puts]
  have hsizes : ∀ u, h.length + n ≤ u → u < (h ++ w.puts).length →
      History.sizeAt (h ++ w.puts) u = w.size := by
    intro u htu hu
    obtain ⟨m, rfl⟩ := Nat.exists_eq_add_of_le (by omega : h.length ≤ u)
    rw [History.sizeAt, getElem?_append_puts h (by omega)]
    exact Payload.size_synthetic _ _
  have hdistinct : ∀ u v, h.length + n ≤ u → u < v → v < (h ++ w.puts).length →
      History.keyAt (h ++ w.puts) v ≠ History.keyAt (h ++ w.puts) u := by
    intro u v htu huv hv
    obtain ⟨m, rfl⟩ := Nat.exists_eq_add_of_le (by omega : h.length ≤ u)
    obtain ⟨k, rfl⟩ := Nat.exists_eq_add_of_le (by omega : h.length ≤ v)
    rw [keyAt_append_puts h (by omega), keyAt_append_puts h (by omega)]
    intro heq
    have hsame := key_inj (by omega) (by omega) (Option.some.inj heq)
    omega
  rw [History.stays_iff_of_distinct hsizes hdistinct (by omega), hlength, Nat.add_sub_add_left]

variable {c : Cache .oldestFirst} {r : Resident}

/-- What is resident under a key of the worker is what the worker put there. -/
theorem entry_of_index (hr : c.Records r (h ++ w.puts)) (hword : w.written ≤ 2 ^ 63)
    (hn : n < w.written) {e : Entry} (he : r.index[w.key n]? = some e) :
    e = ⟨Payload.synthetic (w.key n) w.size, h.length + n⟩ := by
  obtain ⟨hat, hstays⟩ := (hr.placed _ e.payload e.stamp).1 he
  have hlt : e.stamp < h.length + w.written := by
    simpa [List.length_append, length_puts] using hstays.lt
  have hkey : History.keyAt (h ++ w.puts) e.stamp = some (w.key n) := by
    rw [History.keyAt, hat]
    rfl
  have hstamp : e.stamp = h.length + n := by
    rcases Nat.lt_or_ge e.stamp (h.length + n) with hbefore | hle
    · -- An older entry was replaced by the worker's put.
      have hnewer := hstays.latest (h.length + n) (by simp [length_puts, hn]) hbefore
      rw [keyAt_append_puts h hn, hkey] at hnewer
      exact absurd rfl hnewer
    · obtain ⟨m, hm⟩ := Nat.exists_eq_add_of_le (by omega : h.length ≤ e.stamp)
      rw [hm, keyAt_append_puts h (by omega)] at hkey
      have hsame := key_inj (by omega) (by omega) (Option.some.inj hkey)
      omega
  have hput := getElem?_append_puts h hn
  rw [← hstamp, hat, Option.some.injEq, Prod.mk.injEq] at hput
  rw [← hput.2, ← hstamp]

theorem mem_index_iff (hr : c.Records r (h ++ w.puts)) (hword : w.written ≤ 2 ^ 63)
    (hn : n + 1 < w.written) :
    w.key n ∈ r.index ↔ (w.written - n) * w.size ≤ c.capacity.toNat := by
  rw [← stays_puts_iff h hword hn, TreeMap.mem_iff_isSome_getElem?, Option.isSome_iff_exists]
  constructor
  · intro hmem
    obtain ⟨e, he⟩ := hmem
    obtain rfl := entry_of_index hr hword (by omega) he
    exact ((hr.placed _ _ _).1 he).2
  · intro hstays
    exact ⟨_, (hr.placed _ _ _).2 ⟨getElem?_append_puts h (by omega), hstays⟩⟩

end

theorem puts_step {w : Worker} {c : Cache .oldestFirst} {h : History}
    (hp : w.Proceeds c h (w.step c)) : (w.step c).worker.puts = w.puts ++ w.due := by
  have hsize : (w.step c).worker.size = w.size := congrArg (·.2.2) (w.orders_step c)
  have hdue : (w.due.map (·.1)).map (fun k => (k, Payload.synthetic k w.size)) = w.due := by
    rw [List.map_map]
    refine (List.map_congr_left fun x hx => ?_).trans (List.map_id _)
    exact Prod.ext rfl (synthetic_of_mem_due hx).symm
  rw [Worker.puts, hp.keys, hsize, List.map_append, hdue]
  rfl

/-- Behind `taken` puts there is room for all entries of a worker. -/
structure Feasible (capacity : UInt64) (taken : Nat) (owner : Int64) (entries size : Nat) : Prop
    where
  size_pos : 0 < size
  size_le : size ≤ capacity.toNat
  made : size ≤ Payload.longest
  owner_nonneg : 0 ≤ owner
  entries_lt : entries < 2 ^ 63
  room : taken + entries < wordLimit

/-- The puts in `h`, of others, look like those of the worker. -/
structure Admissible (capacity : UInt64) (h : History) (owner : Int64) (entries size : Nat) : Prop
    extends Feasible capacity h.length owner entries size where
  synthetic : ∀ x ∈ h, x.2 = Payload.synthetic x.1 size
  fresh : ∀ x ∈ h, x.1.owner ≠ owner

end Worker

namespace Turn

variable {nominate : Nomination}

theorem steps_of_done {t : Turn nominate} (h : t.worker.result.isSome) (n : Nat) :
    t.steps n = t := by
  cases n with
  | zero => rfl
  | succ n => rw [steps, if_pos h]

/-- What each step of the worker keeps, a whole run keeps. -/
theorem steps_induction {P : Turn nominate → Prop} (hnext : ∀ t, P t → P t.next)
    {t : Turn nominate} (h : P t) (n : Nat) : P (t.steps n) := by
  induction n generalizing t with
  | zero => exact h
  | succ n ih =>
    rw [steps]
    split
    · exact h
    · exact ih (hnext t h)

theorem done_steps {t : Turn nominate} {n : Nat} (h : t.worker.remaining ≤ n) :
    (t.steps n).worker.result.isSome := by
  induction n generalizing t with
  | zero => exact t.worker.remaining_eq_zero_iff.1 (Nat.le_zero.1 h)
  | succ n ih =>
    rw [steps]
    split
    · assumption
    · have hstep := t.worker.remaining_step t.cache
      refine ih (hstep.trans ?_)
      omega

/-- The worker has come this far alone, on a cache that was `c` and had taken the puts in `h`. It
has found all that it looked up if an entry stays until it is looked up, and else nothing. -/
structure Underway (c : Cache .oldestFirst) (h : History) (owner : Int64) (entries size : Nat)
    (t : Turn .oldestFirst) : Prop where
  orders : t.worker.orders = (owner, entries, size)
  onTrack : t.worker.OnTrack
  records : ∃ r, t.cache.Records r (h ++ t.worker.puts)
  capacity : t.cache.capacity = c.capacity
  hits : t.cache.counters.hits = c.counters.hits + t.worker.report.cacheHits
  misses : t.cache.counters.misses = c.counters.misses + t.worker.report.fallbacks
  rejections : t.cache.counters.rejections = c.counters.rejections
  near : (readLag + 1) * size ≤ c.capacity.toNat → t.worker.report.fallbacks = 0
  far : c.capacity.toNat < (readLag + 1) * size → t.worker.report.cacheHits = 0

namespace Underway

variable {c : Cache .oldestFirst} {h : History} {owner : Int64} {entries size : Nat}
  {t : Turn .oldestFirst}

theorem start {r : Resident} (hr : c.Records r h) (owner : Int64) (entries size : Nat) :
    Underway c h owner entries size { worker := .start owner entries size, cache := c } where
  orders := rfl
  onTrack := Worker.onTrack_start owner entries size
  records := ⟨r, by rwa [Worker.puts_start, List.append_nil]⟩
  capacity := rfl
  hits := (UInt64.add_zero _).symm
  misses := (UInt64.add_zero _).symm
  rejections := rfl
  near _ := rfl
  far _ := rfl

theorem orders_eq (ha : Underway c h owner entries size t) :
    t.worker.owner = owner ∧ t.worker.entries = entries ∧ t.worker.size = size := by
  simpa [Worker.orders] using ha.orders

/-- The entry to be read is one that the worker has written, and not the last one. -/
theorem lag_lt (ha : Underway c h owner entries size t) (hentries : entries < 2 ^ 63) {n : Nat}
    (hp : t.worker.progress = .reading n) :
    readLag ≤ n ∧ n - readLag + 1 < t.worker.written ∧ t.worker.written ≤ 2 ^ 63 := by
  obtain ⟨hlag, hlt⟩ := ha.onTrack.lt_of_reading hp
  have hpos : 0 < readLag := by decide
  rw [ha.orders_eq.2.1] at hlt
  rw [Worker.written_of_reading hp]
  omega

/-- A lookup finds its entry exactly if all that was written since fits beside it. -/
theorem served (ha : Underway c h owner entries size t) (hentries : entries < 2 ^ 63) {n : Nat}
    (hp : t.worker.progress = .reading n) :
    ∃ s, s ≠ .corrupt ∧ (s = .faithful ↔ (readLag + 1) * size ≤ c.capacity.toNat) ∧
      t.next.worker = t.worker.readBack n s := by
  obtain ⟨r, hr⟩ := ha.records
  obtain ⟨hlag, hlt, hword⟩ := ha.lag_lt hentries hp
  obtain ⟨s, hs, hfound, hworker, -⟩ := Worker.step_reading hr.holds hp fun e he =>
    congrArg Entry.payload (Worker.entry_of_index hr hword (by omega) he)
  refine ⟨s, hs, hfound.trans ?_, hworker⟩
  rw [Worker.mem_index_iff hr hword hlt, Worker.written_of_reading hp, ha.orders_eq.2.2,
    ha.capacity]
  rw [show n + 1 - (n - readLag) = readLag + 1 by omega]

theorem room (ha : Underway c h owner entries size t)
    (hw : Worker.Feasible c.capacity h.length owner entries size) {n : Nat}
    (hp : t.worker.progress = .writing n) :
    t.worker.size ≤ Payload.longest ∧ (h ++ t.worker.puts).length + 1 < wordLimit := by
  obtain ⟨-, hentries, hsize⟩ := ha.orders_eq
  have hlt := ha.onTrack.lt_of_writing hp
  have hroom := hw.room
  rw [hentries] at hlt
  rw [hsize, List.length_append, Worker.length_puts, Worker.written_of_writing hp]
  exact ⟨hw.made, by omega⟩

theorem proceeds (ha : Underway c h owner entries size t)
    (hw : Worker.Feasible c.capacity h.length owner entries size) :
    t.worker.Proceeds t.cache (h ++ t.worker.puts) (t.worker.step t.cache) := by
  obtain ⟨r, hr⟩ := ha.records
  obtain ⟨howner, hentries, hsize⟩ := ha.orders_eq
  have hfits := hw.size_le
  rw [← ha.capacity] at hfits
  apply Worker.proceeds hr
  case ht => exact ha.onTrack
  case howner => rw [howner]; exact hw.owner_nonneg
  case hsize => rw [hsize]; exact hw.size_pos
  case hfits => rwa [hsize]
  case hentries => rw [hentries]; exact hw.entries_lt.trans (by decide)
  case hsynthetic =>
    intro n hp e he
    obtain ⟨-, hlt, hword⟩ := ha.lag_lt hw.entries_lt hp
    exact congrArg Entry.payload (Worker.entry_of_index hr hword (by omega) he)
  case hroom => exact fun n hp => ha.room hw hp

/-- With enough room no lookup falls back, and with too little room none hits. -/
theorem report_next (ha : Underway c h owner entries size t) (hentries : entries < 2 ^ 63) :
    ((readLag + 1) * size ≤ c.capacity.toNat →
        t.next.worker.report.fallbacks = t.worker.report.fallbacks) ∧
      (c.capacity.toNat < (readLag + 1) * size →
        t.next.worker.report.cacheHits = t.worker.report.cacheHits) := by
  have hnext : t.next.worker = (t.worker.step t.cache).worker := rfl
  rcases t.worker.step_cases t.cache with ⟨h, -⟩ | ⟨f, h⟩ | h | ⟨n, -, h⟩ | ⟨n, -, hp, -⟩
  · rw [hnext, h]
    exact ⟨fun _ => rfl, fun _ => rfl⟩
  · rw [hnext, h]
    exact ⟨fun _ => rfl, fun _ => rfl⟩
  · rw [hnext, h]
    exact ⟨fun _ => rfl, fun _ => rfl⟩
  · rw [hnext, h]
    exact ⟨fun _ => rfl, fun _ => rfl⟩
  · obtain ⟨s, hs, hfound, hworker⟩ := ha.served hentries hp
    rw [hworker]
    cases s with
    | missing =>
      refine ⟨fun hnear => ?_, fun _ => rfl⟩
      cases hfound.2 hnear
    | faithful =>
      refine ⟨fun _ => rfl, fun hfar => ?_⟩
      exact absurd (hfound.1 rfl) (Nat.not_le.2 hfar)
    | corrupt => exact absurd rfl hs

theorem next (ha : Underway c h owner entries size t)
    (hw : Worker.Feasible c.capacity h.length owner entries size) :
    Underway c h owner entries size t.next := by
  have hproceeds := ha.proceeds hw
  have hputs := Worker.puts_step hproceeds
  obtain ⟨hnear, hfar⟩ := ha.report_next hw.entries_lt
  obtain ⟨hits, hhits, hhits'⟩ := hproceeds.hits
  obtain ⟨misses, hmisses, hmisses'⟩ := hproceeds.misses
  obtain ⟨r, hrecords⟩ := hproceeds.records
  rw [List.append_assoc, ← hputs] at hrecords
  constructor
  case orders => exact (t.worker.orders_step t.cache).trans ha.orders
  case onTrack => exact hproceeds.onTrack
  case records => exact ⟨r, hrecords⟩
  case capacity => exact hproceeds.capacity.trans ha.capacity
  case hits =>
    show (t.worker.step t.cache).cache.counters.hits =
      _ + (t.worker.step t.cache).worker.report.cacheHits
    rw [hhits, hhits', ha.hits, UInt64.add_assoc]
  case misses =>
    show (t.worker.step t.cache).cache.counters.misses =
      _ + (t.worker.step t.cache).worker.report.fallbacks
    rw [hmisses, hmisses', ha.misses, UInt64.add_assoc]
  case rejections => exact hproceeds.rejections.trans ha.rejections
  case near => exact fun h => (hnear h).trans (ha.near h)
  case far => exact fun h => (hfar h).trans (ha.far h)

/-- A worker that is done has written and looked up all that it was told to. -/
theorem finished (ha : Underway c h owner entries size t) (hdone : t.worker.result.isSome) :
    t.worker.result = some (.ok t.worker.report) ∧ t.worker.report.puts.toNat = entries ∧
      t.worker.report.cacheHits.toNat + t.worker.report.fallbacks.toNat = entries - readLag := by
  obtain ⟨hresult, hwritten, hlooked⟩ := ha.onTrack.of_result hdone
  rw [ha.orders_eq.2.1] at hwritten hlooked
  exact ⟨hresult, ha.onTrack.puts.trans hwritten, ha.onTrack.reads.trans hlooked⟩

end Underway

/-- The worker has come this far alone, and all payloads are of its size. -/
structure Alone (c : Cache .oldestFirst) (h : History) (owner : Int64) (entries size : Nat)
    (t : Turn .oldestFirst) : Prop extends Underway c h owner entries size t where
  uniform : ∃ r, t.cache.Uniform size r (h ++ t.worker.puts)

namespace Alone

variable {c : Cache .oldestFirst} {h : History} {owner : Int64} {entries size : Nat}
  {t : Turn .oldestFirst}

theorem start {r : Resident} (hu : c.Uniform size r h) (owner : Int64) (entries : Nat) :
    Alone c h owner entries size { worker := .start owner entries size, cache := c } :=
  ⟨.start hu.records owner entries size, r, by rwa [Worker.puts_start, List.append_nil]⟩

theorem synthetic (ha : Alone c h owner entries size t)
    (hw : Worker.Admissible c.capacity h owner entries size) :
    ∀ x ∈ h ++ t.worker.puts, x.2 = Payload.synthetic x.1 t.worker.size := by
  intro x hx
  rcases List.mem_append.1 hx with hx | hx
  · rw [ha.orders_eq.2.2]
    exact hw.synthetic x hx
  · obtain ⟨k, -, rfl⟩ := List.mem_map.1 hx
    rfl

theorem next (ha : Alone c h owner entries size t)
    (hw : Worker.Admissible c.capacity h owner entries size) :
    Alone c h owner entries size t.next := by
  obtain ⟨r, hu⟩ := ha.uniform
  obtain ⟨howner, -, hsize⟩ := ha.orders_eq
  have hfits := hw.size_le
  have hputs := Worker.puts_step (ha.proceeds hw.toFeasible)
  have huniform : ∃ r', (t.worker.step t.cache).cache.Uniform t.worker.size r'
      (h ++ t.worker.puts ++ t.worker.due) := by
    apply Worker.uniform_step
    case hu => rwa [hsize]
    case howner => rw [howner]; exact hw.owner_nonneg
    case hsize => rw [hsize]; exact hw.size_pos
    case hfits => rwa [hsize, ha.capacity]
    case hsynthetic => exact ha.synthetic hw
    case hroom => exact fun n hp => ha.room hw.toFeasible hp
  rw [hsize, List.append_assoc, ← hputs] at huniform
  exact ⟨ha.toUnderway.next hw.toFeasible, huniform⟩

end Alone

end Turn

namespace Worker

/-- A call that ends the worker is its last one. -/
theorem run_of_done {nominate : Nomination} {w : Worker} {c : Cache nominate}
    (hw : 0 < w.entries) (hnone : w.result = none) (hdone : (w.step c).worker.result.isSome) :
    w.run c = w.step c := by
  obtain ⟨n, hn⟩ : ∃ n, w.stepBound = n + 1 := ⟨2 * w.entries - 1, by rw [stepBound]; omega⟩
  have hnext : Turn.next { worker := w, cache := c } = w.step c := by simp [Turn.next]
  rw [run, hn, Turn.steps, if_neg (by simp [hnone]), hnext, Turn.steps_of_done hdone]

theorem result_run {nominate : Nomination} (c : Cache nominate) (owner : Int64)
    (entries size : Nat) : ((start owner entries size).run c).worker.result.isSome :=
  Turn.done_steps (remaining_start owner entries size).le

variable {c : Cache .oldestFirst} {r : Resident} {h : History} {owner : Int64} {entries size : Nat}

/-- A worker that runs alone ends with all its entries written, and what it counted the cache has
counted too, whatever was put before. -/
theorem run_underway (hr : c.Records r h) (hw : Feasible c.capacity h.length owner entries size) :
    ((start owner entries size).run c).Underway c h owner entries size :=
  Turn.steps_induction (fun _ ha => ha.next hw) (Turn.Underway.start hr owner entries size) _

theorem run_alone (hu : c.Uniform size r h) (hw : Admissible c.capacity h owner entries size) :
    let t := (start owner entries size).run c
    t.Alone c h owner entries size ∧ t.worker.result = some (.ok t.worker.report) ∧
      t.worker.report.puts.toNat = entries ∧
      t.worker.report.cacheHits.toNat + t.worker.report.fallbacks.toNat = entries - readLag := by
  intro t
  have ha : t.Alone c h owner entries size :=
    Turn.steps_induction (fun t ha => ha.next hw) (Turn.Alone.start hu owner entries) _
  exact ⟨ha, ha.finished (result_run c owner entries size)⟩

end Worker

end LedgerCache
