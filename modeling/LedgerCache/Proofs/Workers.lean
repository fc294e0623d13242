import LedgerCache.Proofs.EqualSizes
import LedgerCache.Proofs.Totals
import LedgerCache.Workload.Worker
import Mathlib.Data.UInt
import Mathlib.Algebra.BigOperators.Group.List.Basic

namespace LedgerCache

open Std

theorem Int64.ofNat_inj_of_lt {m n : Nat} (hm : m < 2 ^ 63) (hn : n < 2 ^ 63)
    (h : Int64.ofNat m = Int64.ofNat n) : m = n := by
  have hint := congrArg Int64.toInt h
  rw [Int64.toInt_ofNat_of_lt hm, Int64.toInt_ofNat_of_lt hn] at hint
  exact Int.ofNat_inj.1 hint

theorem Int64.ofNat_nonneg_of_lt {n : Nat} (hn : n < 2 ^ 63) : 0 ≤ Int64.ofNat n := by
  rw [Int64.le_iff_toInt_le, Int64.toInt_ofNat_of_lt hn]
  exact Int.natCast_nonneg n

theorem signedCount_of_lt {n : UInt64} (h : n.toNat < 2 ^ 63) : signedCount n = n.toNat := if_pos h

theorem signedCount_of_le {n : UInt64} (h : 2 ^ 63 ≤ n.toNat) : signedCount n = 0 :=
  if_neg (Nat.not_lt.2 h)

theorem signedCount_le (n : UInt64) : signedCount n ≤ n.toNat := by
  unfold signedCount
  split <;> omega

theorem signedCount_lt (n : UInt64) : signedCount n < 2 ^ 63 := by
  unfold signedCount
  split <;> omega

/-- What is resident was put, so it is synthetic if all puts were. -/
theorem Cache.Records.synthetic_of_index {c : Cache .oldestFirst} {r : Resident} {h : History}
    (hr : c.Records r h) {size : Nat} (hsynthetic : ∀ x ∈ h, x.2 = Payload.synthetic x.1 size)
    (key : Key) (e : Entry) (he : r.index[key]? = some e) :
    e.payload = Payload.synthetic key size :=
  hsynthetic _ (List.mem_of_getElem? ((hr.placed key e.payload e.stamp).1 he).1)

/-- The counts of a cache after a lookup that was served so. -/
def Counters.served (c : Counters) : Served → Counters
  | .missing => c.miss
  | .faithful => c.hit
  | .corrupt => c.hit

namespace Progress

/-- How many of its `entries` a worker has written. -/
def written (entries : Nat) : Progress → Nat
  | .writing n => n
  | .reading n => n + 1
  | .stopped => entries
  | .failed _ => entries

/-- How many entries it has looked up. -/
def lookedUp (entries : Nat) : Progress → Nat
  | .writing n => n - readLag
  | .reading n => n - readLag
  | .stopped => entries - readLag
  | .failed _ => entries - readLag

/-- At most so many calls are left. -/
def remaining (entries : Nat) : Progress → Nat
  | .writing n => 2 * (entries - n - 1) + 2
  | .reading n => 2 * (entries - n - 1) + 1
  | .stopped => 0
  | .failed _ => 0

/-- Nothing failed, and what is written or read is one of the `entries`. -/
def Fair (entries : Nat) : Progress → Prop
  | .writing n => n < entries
  | .reading n => readLag ≤ n ∧ n < entries
  | .stopped => True
  | .failed _ => False

end Progress

namespace Worker

section

variable {entries n : Nat}

theorem written_writeOrStop (h : n ≤ entries) : (writeOrStop entries n).written entries = n := by
  unfold writeOrStop
  split
  · rfl
  · exact (Nat.le_antisymm h (by omega)).symm

theorem lookedUp_writeOrStop (h : n ≤ entries) :
    (writeOrStop entries n).lookedUp entries = n - readLag := by
  unfold writeOrStop
  split
  · rfl
  · rw [Nat.le_antisymm h (by omega)]
    rfl

theorem remaining_writeOrStop (entries n : Nat) :
    (writeOrStop entries n).remaining entries = 2 * (entries - n) := by
  unfold writeOrStop
  split
  · simp only [Progress.remaining]
    omega
  · simp only [Progress.remaining]
    omega

theorem fair_writeOrStop (entries n : Nat) : (writeOrStop entries n).Fair entries := by
  unfold writeOrStop
  split
  · assumption
  · trivial

end

/-- What a worker was told to do. -/
def orders (w : Worker) : Int64 × Nat × Nat := (w.owner, w.entries, w.size)

def written (w : Worker) : Nat := w.progress.written w.entries

def lookedUp (w : Worker) : Nat := w.progress.lookedUp w.entries

def remaining (w : Worker) : Nat := w.progress.remaining w.entries

/-- The keys under which it has put its entries. -/
def keys (w : Worker) : List Key := (List.range w.written).map w.key

theorem key_inj {w : Worker} {m n : Nat} (hm : m < 2 ^ 63) (hn : n < 2 ^ 63)
    (h : w.key m = w.key n) : m = n :=
  Int64.ofNat_inj_of_lt hm hn (congrArg Key.sequence h)

theorem nodup_keys {w : Worker} (h : w.written ≤ 2 ^ 63) : w.keys.Nodup := by
  refine List.Nodup.map_on (fun m hm n hn heq => ?_) List.nodup_range
  rw [List.mem_range] at hm hn
  exact key_inj (by omega) (by omega) heq

theorem owner_of_mem_keys {w : Worker} {k : Key} (h : k ∈ w.keys) : k.owner = w.owner := by
  obtain ⟨n, -, rfl⟩ := List.mem_map.1 h
  rfl

theorem written_of_writing {w : Worker} {n : Nat} (hp : w.progress = .writing n) :
    w.written = n := by
  rw [written, hp]
  rfl

theorem written_of_reading {w : Worker} {n : Nat} (hp : w.progress = .reading n) :
    w.written = n + 1 := by
  rw [written, hp]
  rfl

variable {nominate : Nomination} (w : Worker) (c : Cache nominate)

theorem lookedUp_le_written : w.lookedUp ≤ w.written := by
  unfold lookedUp written
  cases w.progress <;> simp only [Progress.lookedUp, Progress.written] <;> omega

theorem remaining_eq_zero_iff : w.remaining = 0 ↔ w.result.isSome := by
  unfold remaining result
  cases w.progress <;> simp [Progress.remaining]

theorem step_of_done (h : w.result.isSome) : w.step c = { worker := w, cache := c } := by
  unfold step
  cases hp : w.progress with
  | writing n => simp [result, hp] at h
  | reading n => simp [result, hp] at h
  | stopped => rfl
  | failed f => rfl

/-- What a call does to the worker: it fails or stops, or the entry is written or read back. -/
theorem step_cases :
    (w.step c).worker = w ∧ w.result.isSome ∨
    (∃ f, (w.step c).worker = { w with progress := .failed f }) ∨
    (w.step c).worker = { w with progress := .stopped } ∨
    (∃ n, w.progress = .writing n ∧ (w.step c).worker = w.wrote n) ∨
    ∃ n s, w.progress = .reading n ∧ (w.step c).worker = w.readBack n s := by
  cases hp : w.progress with
  | writing n =>
    rw [step, hp]
    dsimp only [write]
    split
    · exact .inr (.inl ⟨_, rfl⟩)
    · split
      · exact .inr (.inr (.inr (.inl ⟨n, rfl, rfl⟩)))
      · exact .inr (.inr (.inl rfl))
      · exact .inr (.inl ⟨_, rfl⟩)
  | reading n =>
    rw [step, hp]
    dsimp only [read]
    split
    · exact .inr (.inr (.inr (.inr ⟨n, _, rfl, rfl⟩)))
    · exact .inr (.inr (.inl rfl))
    · exact .inr (.inl ⟨_, rfl⟩)
  | stopped =>
    have hdone : w.result.isSome := by simp [result, hp]
    exact .inl ⟨congrArg Turn.worker (w.step_of_done c hdone), hdone⟩
  | failed f =>
    have hdone : w.result.isSome := by simp [result, hp]
    exact .inl ⟨congrArg Turn.worker (w.step_of_done c hdone), hdone⟩

theorem orders_step : (w.step c).worker.orders = w.orders := by
  rcases w.step_cases c with ⟨h, -⟩ | ⟨f, h⟩ | h | ⟨n, -, h⟩ | ⟨n, s, -, h⟩ <;> rw [h] <;> rfl

/-- Whatever the cache answers, no call is made in vain. -/
theorem remaining_step : (w.step c).worker.remaining ≤ w.remaining - 1 := by
  rcases w.step_cases c with ⟨h, hdone⟩ | ⟨f, h⟩ | h | ⟨n, hp, h⟩ | ⟨n, s, hp, h⟩
  · rw [h, w.remaining_eq_zero_iff.2 hdone]
  · rw [h]
    exact Nat.zero_le _
  · rw [h]
    exact Nat.zero_le _
  · rw [h, remaining, remaining, hp]
    simp only [wrote]
    split
    · rw [remaining_writeOrStop]
      simp only [Progress.remaining]
      omega
    · exact Nat.le_refl _
  · rw [h, remaining, remaining, hp]
    change (writeOrStop w.entries (n + 1)).remaining w.entries ≤ 2 * (w.entries - n - 1) + 1 - 1
    rw [remaining_writeOrStop]
    omega

theorem remaining_start (owner : Int64) (entries size : Nat) :
    (start owner entries size).remaining = (start owner entries size).stepBound :=
  remaining_writeOrStop entries 0

/-- The worker has not failed, its report counts what it has done, and it found what it wrote. -/
structure OnTrack (w : Worker) : Prop where
  fair : w.progress.Fair w.entries
  puts : w.report.puts.toNat = w.written
  reads : w.report.cacheHits.toNat + w.report.fallbacks.toNat = w.lookedUp
  faithful : w.report.corruptReads = 0

theorem onTrack_start (owner : Int64) (entries size : Nat) : (start owner entries size).OnTrack where
  fair := fair_writeOrStop entries 0
  puts := (written_writeOrStop (Nat.zero_le entries)).symm
  reads := ((lookedUp_writeOrStop (Nat.zero_le entries)).trans (Nat.zero_sub readLag)).symm
  faithful := rfl

namespace OnTrack

variable {w : Worker} {n : Nat}

theorem lt_of_writing (h : w.OnTrack) (hp : w.progress = .writing n) : n < w.entries := by
  have hfair := h.fair
  rwa [hp] at hfair

theorem lt_of_reading (h : w.OnTrack) (hp : w.progress = .reading n) :
    readLag ≤ n ∧ n < w.entries := by
  have hfair := h.fair
  rwa [hp] at hfair

/-- A worker that is not done was told to write something. -/
theorem entries_pos (h : w.OnTrack) (hdone : w.result = none) : 0 < w.entries := by
  cases hp : w.progress with
  | writing n => exact Nat.zero_lt_of_lt (h.lt_of_writing hp)
  | reading n => exact Nat.zero_lt_of_lt (h.lt_of_reading hp).2
  | stopped => simp [result, hp] at hdone
  | failed f => simp [result, hp] at hdone

theorem written_le (h : w.OnTrack) : w.written ≤ w.entries := by
  have hfair := h.fair
  unfold written
  cases hp : w.progress <;> simp only [hp, Progress.Fair, Progress.written] at hfair ⊢ <;> omega

theorem within (h : w.OnTrack) : w.report.Within w.entries where
  puts := h.puts.trans_le h.written_le
  cacheHits := by
    have hreads := h.reads
    have hle := w.lookedUp_le_written.trans h.written_le
    omega
  fallbacks := by
    have hreads := h.reads
    have hle := w.lookedUp_le_written.trans h.written_le
    omega
  corruptReads := by
    rw [h.faithful]
    exact Nat.zero_le _

/-- A worker that is done has written and looked up all that it was told to. -/
theorem of_result (h : w.OnTrack) (hdone : w.result.isSome) :
    w.result = some (.ok w.report) ∧ w.written = w.entries ∧ w.lookedUp = w.entries - readLag := by
  have hfair := h.fair
  unfold result written lookedUp at *
  cases hp : w.progress <;> simp [hp, Progress.Fair, Progress.written, Progress.lookedUp] at *

theorem wrote (h : w.OnTrack) (hp : w.progress = .writing n) (hn : w.entries < wordLimit) :
    (w.wrote n).OnTrack ∧ (w.wrote n).written = n + 1 ∧ w.written = n := by
  obtain ⟨hfair, hputs, hreads, hfaithful⟩ := h
  simp only [written, lookedUp, hp, Progress.Fair, Progress.written, Progress.lookedUp]
    at hfair hputs hreads ⊢
  have hcount : (w.report.puts + 1).toNat = n + 1 := by
    rw [toNat_add_of_lt (by rw [hputs]; exact Nat.lt_of_le_of_lt hfair hn), hputs]
    rfl
  have hwritten : (w.wrote n).written = n + 1 := by
    unfold Worker.wrote written
    dsimp only
    split
    · exact written_writeOrStop hfair
    · rfl
  refine ⟨⟨?_, hcount.trans hwritten.symm, ?_, hfaithful⟩, hwritten, trivial⟩
  · unfold Worker.wrote
    dsimp only
    split
    · exact fair_writeOrStop _ _
    · exact ⟨by omega, hfair⟩
  · unfold Worker.wrote lookedUp
    dsimp only
    rw [hreads]
    split
    · rw [lookedUp_writeOrStop hfair]
      omega
    · rfl

theorem readBack (h : w.OnTrack) (hp : w.progress = .reading n) (hn : w.entries < wordLimit)
    {s : Served} (hs : s ≠ .corrupt) :
    (w.readBack n s).OnTrack ∧ (w.readBack n s).written = w.written := by
  obtain ⟨hfair, hputs, hreads, hfaithful⟩ := h
  simp only [written, lookedUp, hp, Progress.Fair, Progress.written, Progress.lookedUp]
    at hfair hputs hreads ⊢
  have hwritten : (w.readBack n s).written = n + 1 := written_writeOrStop hfair.2
  have hlooked : (w.readBack n s).lookedUp = n - readLag + 1 :=
    (lookedUp_writeOrStop hfair.2).trans (by omega)
  have hone (a : UInt64) (ha : a.toNat ≤ n - readLag) : (a + 1).toNat = a.toNat + 1 := by
    apply toNat_add_of_lt
    change a.toNat + 1 < wordLimit
    omega
  refine ⟨⟨fair_writeOrStop _ _, ?_, ?_, ?_⟩, hwritten⟩
  · rw [hwritten, ← hputs]
    cases s <;> rfl
  · rw [hlooked, ← hreads]
    cases s with
    | missing =>
      change w.report.cacheHits.toNat + (w.report.fallbacks + 1).toNat = _
      rw [hone _ (by omega), Nat.add_assoc]
    | faithful =>
      change (w.report.cacheHits + 1).toNat + w.report.fallbacks.toNat = _
      rw [hone _ (by omega), Nat.add_right_comm]
    | corrupt => exact absurd rfl hs
  · cases s with
    | corrupt => exact absurd rfl hs
    | _ => exact hfaithful

end OnTrack

section

variable {c : Cache .oldestFirst} {r : Resident} {h : History} {w : Worker} {n : Nat}

/-- A payload that can be made and that fits is put, whatever was put before. -/
theorem step_writing (hr : c.Records r h) (hp : w.progress = .writing n) (howner : 0 ≤ w.owner)
    (hsize : 0 < w.size) (hfits : w.size ≤ c.capacity.toNat) (hmade : w.size ≤ Payload.longest)
    (hlt : h.length + 1 < wordLimit) :
    let payload := Payload.synthetic (w.key n) w.size
    let victims := r.oldest (w.key n) payload.size
    c.objection (w.key n) payload.size = none ∧
      payload.size ≤ (r.cleared (w.key n) victims).budget.available ∧
      (w.step c).worker = w.wrote n ∧
      (w.step c).cache = (c.admission r (w.key n) payload victims).cache := by
  intro payload victims
  have hv : c.objection (w.key n) payload.size = none := by
    rw [hr.holds.objection_eq_none_iff, hr.holds.capacity, Payload.size_synthetic]
    exact ⟨howner, hsize, hfits⟩
  have hnext : r.order.next + 1 < wordLimit := by rwa [hr.next]
  obtain ⟨hroom, -, hput⟩ := hr.holds.put_oldestFirst hv hnext
  have hput : c.put (w.key n) (Payload.synthetic (w.key n) w.size) =
    c.admission r (w.key n) payload victims := hput
  simp only [step, hp, write, Payload.generate_eq_ok _ _ hmade, hput]
  exact ⟨hv, hroom, rfl, rfl⟩

/-- What is resident is found as it was written. -/
theorem step_reading (hr : c.Holds r) (hp : w.progress = .reading n)
    (hsynthetic : ∀ e, r.index[w.key (n - readLag)]? = some e →
      e.payload = Payload.synthetic (w.key (n - readLag)) w.size) :
    ∃ s, s ≠ .corrupt ∧ (s = .faithful ↔ w.key (n - readLag) ∈ r.index) ∧
      (w.step c).worker = w.readBack n s ∧
      (w.step c).cache = { c with counters := c.counters.served s } := by
  rw [TreeMap.mem_iff_isSome_getElem?]
  cases he : r.index[w.key (n - readLag)]? with
  | some e =>
    refine ⟨.faithful, by decide, by simp, ?_⟩
    simp only [step, hp, read, hr.get_of_some he, inspect, hsynthetic e he, if_true]
    exact ⟨trivial, rfl⟩
  | none =>
    refine ⟨.missing, by decide, by simp, ?_⟩
    simp only [step, hp, read, hr.get_of_none he, inspect]
    exact ⟨trivial, rfl⟩

/-- What the worker's next call puts. -/
def due (w : Worker) : History :=
  match w.progress with
  | .writing n => [(w.key n, Payload.synthetic (w.key n) w.size)]
  | _ => []

theorem synthetic_of_mem_due {x : Key × Payload} (hx : x ∈ w.due) :
    x.2 = Payload.synthetic x.1 w.size := by
  rw [due] at hx
  split at hx
  · rw [List.mem_singleton.1 hx]
  · cases hx

/-- The call `t` puts what was due behind the puts in `h`, and what it adds to the counts of the
cache it adds to the worker's report as well. -/
structure Proceeds (w : Worker) (c : Cache .oldestFirst) (h : History) (t : Turn .oldestFirst) :
    Prop where
  records : ∃ r, t.cache.Records r (h ++ w.due)
  capacity : t.cache.capacity = c.capacity
  keys : t.worker.keys = w.keys ++ w.due.map (·.1)
  onTrack : t.worker.OnTrack
  hits : ∃ n, t.cache.counters.hits = c.counters.hits + n ∧
    t.worker.report.cacheHits = w.report.cacheHits + n
  misses : ∃ n, t.cache.counters.misses = c.counters.misses + n ∧
    t.worker.report.fallbacks = w.report.fallbacks + n
  rejections : t.cache.counters.rejections = c.counters.rejections

theorem proceeds_of_done (hr : c.Records r h) (ht : w.OnTrack) (hdue : w.due = []) :
    w.Proceeds c h { worker := w, cache := c } where
  records := ⟨r, by simpa [hdue] using hr⟩
  capacity := rfl
  keys := by simp [hdue]
  onTrack := ht
  hits := ⟨0, by simp⟩
  misses := ⟨0, by simp⟩
  rejections := rfl

theorem proceeds_of_reading (hr : c.Records r h) (ht : w.OnTrack) (hp : w.progress = .reading n)
    (hentries : w.entries < wordLimit)
    (hsynthetic : ∀ e, r.index[w.key (n - readLag)]? = some e →
      e.payload = Payload.synthetic (w.key (n - readLag)) w.size) : w.Proceeds c h (w.step c) := by
  obtain ⟨s, hs, -, hworker, hcache⟩ := step_reading hr.holds hp hsynthetic
  obtain ⟨honTrack, hwritten⟩ := ht.readBack hp hentries hs
  have hdue : w.due = [] := by simp only [due, hp]
  have hkeeps : Step.Keeps c (⟨.ok .done, { c with counters := c.counters.served s }, [], []⟩ :
    Step .oldestFirst Reply) := rfl
  constructor
  case records =>
    rw [hcache, hdue, List.append_nil]
    exact ⟨r, hr.of_keeps hkeeps⟩
  case capacity => rw [hcache]
  case keys =>
    rw [hworker, keys, keys, hwritten, hdue, List.map_nil, List.append_nil]
    rfl
  case onTrack => rwa [hworker]
  case hits =>
    rw [hworker, hcache]
    cases s with
    | missing => exact ⟨0, (UInt64.add_zero _).symm, (UInt64.add_zero _).symm⟩
    | faithful => exact ⟨1, rfl, rfl⟩
    | corrupt => exact absurd rfl hs
  case misses =>
    rw [hworker, hcache]
    cases s with
    | missing => exact ⟨1, rfl, rfl⟩
    | faithful => exact ⟨0, (UInt64.add_zero _).symm, (UInt64.add_zero _).symm⟩
    | corrupt => exact absurd rfl hs
  case rejections =>
    rw [hcache]
    cases s <;> rfl

theorem proceeds_of_writing (hr : c.Records r h) (ht : w.OnTrack) (hp : w.progress = .writing n)
    (howner : 0 ≤ w.owner) (hsize : 0 < w.size) (hfits : w.size ≤ c.capacity.toNat)
    (hmade : w.size ≤ Payload.longest) (hentries : w.entries < wordLimit)
    (hlt : h.length + 1 < wordLimit) : w.Proceeds c h (w.step c) := by
  obtain ⟨hv, hroom, hworker, hcache⟩ := step_writing hr hp howner hsize hfits hmade hlt
  obtain ⟨honTrack, hwritten, hwritten'⟩ := ht.wrote hp hentries
  have hdue : w.due = [(w.key n, Payload.synthetic (w.key n) w.size)] := by simp only [due, hp]
  constructor
  case records =>
    rw [hcache, hdue]
    exact ⟨_, hr.admission hv hroom⟩
  case capacity =>
    rw [hcache]
    rfl
  case keys =>
    rw [hworker, keys, keys, hwritten, hwritten', List.range_succ, List.map_append, hdue]
    rfl
  case onTrack => rwa [hworker]
  case hits =>
    rw [hworker, hcache]
    exact ⟨0, (UInt64.add_zero _).symm, (UInt64.add_zero _).symm⟩
  case misses =>
    rw [hworker, hcache]
    exact ⟨0, (UInt64.add_zero _).symm, (UInt64.add_zero _).symm⟩
  case rejections =>
    rw [hcache]
    rfl

/-- What one call does on an open cache, if nobody else's payload is found under the key that is
read. A worker that writes needs a payload that can be made and a stamp for it. -/
theorem proceeds (hr : c.Records r h) (ht : w.OnTrack) (howner : 0 ≤ w.owner)
    (hsize : 0 < w.size) (hfits : w.size ≤ c.capacity.toNat) (hentries : w.entries < wordLimit)
    (hsynthetic : ∀ n, w.progress = .reading n → ∀ e, r.index[w.key (n - readLag)]? = some e →
      e.payload = Payload.synthetic (w.key (n - readLag)) w.size)
    (hroom : ∀ n, w.progress = .writing n → w.size ≤ Payload.longest ∧ h.length + 1 < wordLimit) :
    w.Proceeds c h (w.step c) := by
  cases hp : w.progress with
  | writing n =>
    obtain ⟨hmade, hlt⟩ := hroom n hp
    exact proceeds_of_writing hr ht hp howner hsize hfits hmade hentries hlt
  | reading n => exact proceeds_of_reading hr ht hp hentries (hsynthetic n hp)
  | stopped =>
    rw [w.step_of_done c (by simp [result, hp])]
    exact proceeds_of_done hr ht (by simp only [due, hp])
  | failed f =>
    rw [w.step_of_done c (by simp [result, hp])]
    exact proceeds_of_done hr ht (by simp only [due, hp])

/-- Payloads of one size stay so. -/
theorem uniform_step (hu : c.Uniform w.size r h) (howner : 0 ≤ w.owner) (hsize : 0 < w.size)
    (hfits : w.size ≤ c.capacity.toNat)
    (hsynthetic : ∀ x ∈ h, x.2 = Payload.synthetic x.1 w.size)
    (hroom : ∀ n, w.progress = .writing n → w.size ≤ Payload.longest ∧ h.length + 1 < wordLimit) :
    ∃ r', (w.step c).cache.Uniform w.size r' (h ++ w.due) := by
  have hsame (hdone : w.result.isSome) (hdue : w.due = []) :
      ∃ r', (w.step c).cache.Uniform w.size r' (h ++ w.due) := by
    rw [w.step_of_done c hdone, hdue, List.append_nil]
    exact ⟨r, hu⟩
  cases hp : w.progress with
  | writing n =>
    obtain ⟨hmade, hlt⟩ := hroom n hp
    obtain ⟨hv, hroom, -, hcache⟩ := step_writing hu.records hp howner hsize hfits hmade hlt
    have hdue : w.due = [(w.key n, Payload.synthetic (w.key n) w.size)] := by simp only [due, hp]
    rw [hcache, hdue]
    exact ⟨_, hu.admission hv (Payload.size_synthetic _ _) hlt hroom⟩
  | reading n =>
    obtain ⟨s, -, -, -, hcache⟩ :=
      step_reading hu.records.holds hp (hu.records.synthetic_of_index hsynthetic _)
    have hdue : w.due = [] := by simp only [due, hp]
    rw [hcache, hdue, List.append_nil]
    exact ⟨r, hu.counted (by cases s <;> rfl)⟩
  | stopped => exact hsame (by simp [result, hp]) (by simp only [due, hp])
  | failed f => exact hsame (by simp [result, hp]) (by simp only [due, hp])

/-- So does a call on a cache whose payloads are all of the worker's size, which stay so. -/
structure Advances (w : Worker) (c : Cache .oldestFirst) (h : History) (t : Turn .oldestFirst) : Prop
    extends w.Proceeds c h t where
  uniform : ∃ r, t.cache.Uniform w.size r (h ++ w.due)

/-- What one call does on an open cache. A worker that writes needs a payload that can be made and a
stamp for it. -/
theorem advances (hu : c.Uniform w.size r h) (ht : w.OnTrack) (howner : 0 ≤ w.owner)
    (hsize : 0 < w.size) (hfits : w.size ≤ c.capacity.toNat) (hentries : w.entries < wordLimit)
    (hsynthetic : ∀ x ∈ h, x.2 = Payload.synthetic x.1 w.size)
    (hroom : ∀ n, w.progress = .writing n → w.size ≤ Payload.longest ∧ h.length + 1 < wordLimit) :
    w.Advances c h (w.step c) :=
  ⟨proceeds hu.records ht howner hsize hfits hentries
    (fun _ _ => hu.records.synthetic_of_index hsynthetic _) hroom,
    uniform_step hu howner hsize hfits hsynthetic hroom⟩

/-- A closed cache stops the worker. -/
theorem step_closed {nominate : Nomination} {c : Cache nominate} (hr : c.resident = none)
    (hc : c.closed = true) (hdone : w.result = none) (hmade : w.size ≤ Payload.longest) :
    (w.step c).worker = { w with progress := .stopped } ∧ (w.step c).cache = c := by
  cases hp : w.progress with
  | writing n =>
    simp only [step, hp, write, Payload.generate_eq_ok _ _ hmade, Cache.put_of_closed hc,
      Cache.refuseClosed]
    exact ⟨trivial, trivial⟩
  | reading n =>
    simp only [step, hp, read, Cache.get_of_closed hr, Cache.refuseClosed]
    exact ⟨trivial, trivial⟩
  | stopped => simp [result, hp] at hdone
  | failed f => simp [result, hp] at hdone

end

/-- No worker changes a closed cache, not even one whose payload cannot be made. -/
theorem cache_step_of_closed (w : Worker) {c : Cache nominate} (hr : c.resident = none)
    (hc : c.closed = true) : (w.step c).cache = c := by
  cases hp : w.progress with
  | writing n =>
    simp only [step, hp, write, Cache.put_of_closed hc, Cache.refuseClosed]
    split <;> rfl
  | reading n =>
    simp only [step, hp, read, Cache.get_of_closed hr, Cache.refuseClosed]
  | stopped => simp only [step, hp]
  | failed f => simp only [step, hp]

/-- A closed cache leaves the worker as it is or stops it there. -/
def Halts (w w' : Worker) : Prop := w' = w ∨ w.result = none ∧ w' = { w with progress := .stopped }

theorem halts_step {w : Worker} {c : Cache nominate} (hr : c.resident = none)
    (hc : c.closed = true) (hmade : w.result = none → w.size ≤ Payload.longest) :
    w.Halts (w.step c).worker ∧ (w.step c).cache = c := by
  by_cases hdone : w.result.isSome
  · rw [w.step_of_done c hdone]
    exact ⟨.inl rfl, rfl⟩
  · have hnone := Option.not_isSome_iff_eq_none.1 hdone
    obtain ⟨hworker, hcache⟩ := step_closed hr hc hnone (hmade hnone)
    exact ⟨.inr ⟨hnone, hworker⟩, hcache⟩

theorem Halts.trans {w w' w'' : Worker} (h : w.Halts w') (h' : w'.Halts w'') : w.Halts w'' := by
  rcases h with rfl | ⟨hnone, rfl⟩
  · exact h'
  · rcases h' with rfl | ⟨-, rfl⟩
    · exact .inr ⟨hnone, rfl⟩
    · exact .inr ⟨hnone, rfl⟩

/-- A worker that was stopped reports what it has done, which lacks a lookup only if it was stopped
between a put and the lookup behind it. -/
theorem OnTrack.of_halts {w w' : Worker} (ht : w.OnTrack) (h : w.Halts w')
    (hdone : w'.result.isSome) :
    w'.result = some (.ok w.report) ∧ w.report.puts.toNat ≤ w.entries ∧
      (w.report.cacheHits.toNat + w.report.fallbacks.toNat = w.report.puts.toNat - readLag ∨
        w.report.cacheHits.toNat + w.report.fallbacks.toNat = w.report.puts.toNat - readLag - 1 ∧
          w.progress = .reading (w.report.puts.toNat - 1)) := by
  refine ⟨?_, ht.puts.trans_le ht.written_le, ?_⟩
  · rcases h with rfl | ⟨-, rfl⟩
    · exact (ht.of_result hdone).1
    · rfl
  · rw [ht.puts, ht.reads, written, lookedUp]
    have hfair := ht.fair
    cases hp : w.progress with
    | writing n => exact .inl rfl
    | reading n =>
      refine .inr ⟨?_, rfl⟩
      simp only [Progress.lookedUp, Progress.written]
      omega
    | stopped => exact .inl rfl
    | failed f =>
      rw [hp] at hfair
      exact hfair.elim

end Worker

end LedgerCache
