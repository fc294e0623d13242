import LedgerCache.Proofs.Crews
import LedgerCache.Proofs.Loads

namespace LedgerCache

/-- A worker ends with this failure or, if there is none, with a report of at most so many of each
count. -/
def Ends (most : Nat) (fate : Option Failure) (result : Except Failure Report) : Prop :=
  match fate with
  | none => ∃ report, result = .ok report ∧ report.Within most
  | some f => result = .error f

namespace Crew

/-- Whatever turns are taken, the cache stays open and each worker that gets done ends so. -/
def EndsIn (crew : Crew .oldestFirst) (most : Nat) (fate : Option Failure) : Prop :=
  ∀ acts : List Act, (∀ a ∈ acts, a ≠ .close) →
    (∃ r, (crew.run acts).cache.Holds r) ∧
      ∀ w ∈ (crew.run acts).workers, ∀ result, w.result = some result → Ends most fate result

variable {crew : Crew .oldestFirst} {most : Nat} {fate : Option Failure}

namespace EndsIn

theorem holds (h : crew.EndsIn most fate) : ∃ r, crew.cache.Holds r :=
  (h [] (by simp)).1

theorem ends (h : crew.EndsIn most fate) {w : Worker} (hw : w ∈ crew.workers)
    {result : Except Failure Report} (hresult : w.result = some result) : Ends most fate result :=
  (h [] (by simp)).2 w hw result hresult

theorem turn (h : crew.EndsIn most fate) (place : Nat) :
    (crew.act (.turn place)).EndsIn most fate := by
  intro acts hacts
  refine h (.turn place :: acts) ?_
  rw [List.forall_mem_cons]
  exact ⟨by simp, hacts⟩

end EndsIn

/-- What each turn keeps holds at the end. -/
theorem endsIn_of_invariant {P : Crew .oldestFirst → Prop}
    (hturn : ∀ crew place, P crew → P (crew.act (.turn place)))
    (hends : ∀ crew, P crew → (∃ r, crew.cache.Holds r) ∧
      ∀ w ∈ crew.workers, ∀ result, w.result = some result → Ends most fate result)
    (h : P crew) : crew.EndsIn most fate := by
  intro acts hacts
  induction acts generalizing crew with
  | nil => exact hends crew h
  | cons a acts ih =>
    obtain ⟨ha, hrest⟩ := List.forall_mem_cons.1 hacts
    cases a with
    | close => exact absurd rfl ha
    | turn place => exact ih (hturn crew place h) hrest

/-- What a turn does to one worker, it does to the others as well. -/
theorem forall_turn {Q : Worker → Prop} (hall : ∀ w ∈ crew.workers, Q w)
    (hstep : ∀ w ∈ crew.workers, Q w → Q (w.step crew.cache).worker) (place : Nat) :
    ∀ w ∈ (crew.act (.turn place)).workers, Q w := by
  intro w hw
  obtain ⟨p, hget⟩ := List.mem_iff_getElem?.1 hw
  rw [getElem?_act] at hget
  obtain ⟨v, hv, rfl⟩ := Option.map_eq_some_iff.1 hget
  have hmem := List.mem_of_getElem? hv
  split
  · exact hstep v hmem (hall v hmem)
  · exact hall v hmem

/-- The cache behind a turn is that behind one worker's call, or it was nobody's turn. -/
theorem cache_turn (crew : Crew .oldestFirst) (place : Nat) :
    (crew.act (.turn place)).cache = crew.cache ∨
      ∃ w ∈ crew.workers, (crew.act (.turn place)).cache = (w.step crew.cache).cache := by
  rw [act]
  split
  · exact .inl rfl
  · next w hw => exact .inr ⟨w, List.mem_of_getElem? hw, rfl⟩

/-- Nobody has anything to write. -/
structure Idle (r : Resident) (crew : Crew .oldestFirst) : Prop where
  holds : crew.cache.Holds r
  done : ∀ w ∈ crew.workers, w.result = some (.ok {})

namespace Idle

variable {r : Resident}

theorem start {c : Cache .oldestFirst} (hc : c.Holds r) {workers entries : Nat}
    (hidle : workers * entries = 0) (size : Nat) : Idle r (.start c workers entries size) := by
  refine ⟨hc, fun w hw => ?_⟩
  obtain ⟨owner, howner, rfl⟩ := List.mem_map.1 hw
  have hworkers := Nat.zero_lt_of_lt (List.mem_range.1 howner)
  have hentries : entries = 0 := (Nat.mul_eq_zero.1 hidle).resolve_left hworkers.ne'
  subst hentries
  rfl

theorem turn (h : Idle r crew) (place : Nat) : Idle r (crew.act (.turn place)) := by
  have hstep (w : Worker) (hw : w.result = some (.ok {})) :
      w.step crew.cache = { worker := w, cache := crew.cache } :=
    w.step_of_done _ (by simp [hw])
  refine ⟨?_, forall_turn h.done (fun w _ hw => by rwa [hstep w hw]) place⟩
  rcases crew.cache_turn place with heq | ⟨w, hw, heq⟩
  · rw [heq]
    exact h.holds
  · rw [heq, hstep w (h.done w hw)]
    exact h.holds

theorem endsIn (h : Idle r crew) (most : Nat) : crew.EndsIn most none := by
  refine endsIn_of_invariant (P := Idle r) (fun _ place h => h.turn place) (fun crew h => ?_) h
  refine ⟨⟨r, h.holds⟩, fun w hw result hresult => ?_⟩
  rw [h.done w hw] at hresult
  cases hresult
  exact ⟨{}, rfl, Nat.zero_le _, Nat.zero_le _, Nat.zero_le _, Nat.zero_le _⟩

end Idle

/-- A worker whose first payload does not fit. -/
structure Barred (capacity size : Nat) (w : Worker) : Prop where
  size_eq : w.size = size
  owner_nonneg : 0 ≤ w.owner
  progress : w.progress = .writing 0 ∨
    w.progress = .failed (.refused (.oversizedPayload size capacity))

theorem Barred.step {c d : Cache .oldestFirst} {size : Nat} {w : Worker}
    (h : Barred c.capacity.toNat size w) (hopen : c.closed = false)
    (hmade : size ≤ Payload.longest) (hsize : c.capacity.toNat < size)
    (hd : ∃ counters, d = { c with counters }) :
    Barred c.capacity.toNat size (w.step d).worker ∧
      ∃ counters, (w.step d).cache = { c with counters } := by
  obtain ⟨counters, rfl⟩ := hd
  obtain ⟨rfl, howner, hp | hp⟩ := h
  · obtain ⟨hworker, hcache⟩ :=
      w.step_oversized (c := { c with counters }) hp hopen howner hmade hsize
    rw [hworker, hcache]
    exact ⟨⟨rfl, howner, .inr rfl⟩, _, rfl⟩
  · rw [w.step_of_done _ (by simp [Worker.result, hp])]
    exact ⟨⟨rfl, howner, .inr hp⟩, counters, rfl⟩

/-- No worker gets anything into the cache. -/
structure Stuck (c : Cache .oldestFirst) (size : Nat) (crew : Crew .oldestFirst) : Prop where
  cache : ∃ counters, crew.cache = { c with counters }
  barred : ∀ w ∈ crew.workers, Barred c.capacity.toNat size w

namespace Stuck

variable {c : Cache .oldestFirst} {size : Nat}

theorem start (c : Cache .oldestFirst) {workers entries : Nat} (hworkers : workers ≤ 2 ^ 63)
    (hentries : 0 < entries) (size : Nat) : Stuck c size (.start c workers entries size) := by
  refine ⟨⟨c.counters, rfl⟩, fun w hw => ?_⟩
  obtain ⟨owner, howner, rfl⟩ := List.mem_map.1 hw
  have hlt := (List.mem_range.1 howner).trans_le hworkers
  rw [Worker.start_eq hentries]
  exact ⟨rfl, Int64.ofNat_nonneg_of_lt hlt, .inl rfl⟩

theorem turn (h : Stuck c size crew) (hopen : c.closed = false) (hmade : size ≤ Payload.longest)
    (hsize : c.capacity.toNat < size) (place : Nat) : Stuck c size (crew.act (.turn place)) := by
  have hstep (w : Worker) (hw : w ∈ crew.workers) :=
    (h.barred w hw).step hopen hmade hsize h.cache
  refine ⟨?_, forall_turn h.barred (fun w hw _ => (hstep w hw).1) place⟩
  rcases crew.cache_turn place with heq | ⟨w, hw, heq⟩
  · rw [heq]
    exact h.cache
  · rw [heq]
    exact (hstep w hw).2

theorem endsIn (h : Stuck c size crew) {r : Resident} (hc : c.Holds r)
    (hmade : size ≤ Payload.longest) (hsize : c.capacity.toNat < size) (most : Nat) :
    crew.EndsIn most (some (.refused (.oversizedPayload size c.capacity.toNat))) := by
  refine endsIn_of_invariant (P := Stuck c size)
    (fun _ place h => h.turn hc.not_closed hmade hsize place) (fun crew h => ?_) h
  obtain ⟨counters, hcache⟩ := h.cache
  refine ⟨⟨r, ?_⟩, fun w hw result hresult => ?_⟩
  · rw [hcache]
    exact ⟨hc.resident, hc.not_closed, hc.sound, hc.capacity⟩
  · rcases (h.barred w hw).progress with hp | hp
    · simp [Worker.result, hp] at hresult
    · rw [Worker.result, hp] at hresult
      cases hresult
      rfl

end Stuck

theorem Reconciles.endsIn {capacity : UInt64} {workers entries size : Nat} {r : Resident}
    {h : History} (hc : Reconciles capacity workers entries size crew r h)
    (hf : Feasible capacity workers entries size) : crew.EndsIn entries none := by
  refine endsIn_of_invariant
    (P := fun crew => ∃ r h, Reconciles capacity workers entries size crew r h)
    (fun crew place h => ?_) (fun crew h => ?_) ⟨r, h, hc⟩
  · obtain ⟨r, h, hc⟩ := h
    exact hc.turn hf place
  · obtain ⟨r, h, hc⟩ := h
    refine ⟨⟨r, hc.uniform.records.holds⟩, fun w hw result hresult => ?_⟩
    obtain ⟨-, -, -, hentries, -⟩ := hc.orders_eq hw
    have htrack := hc.onTrack w hw
    have hreport := (htrack.of_result (by simp [hresult])).1
    rw [hresult] at hreport
    cases hreport
    exact ⟨w.report, rfl, hentries ▸ htrack.within⟩

end Crew

namespace Config

variable {c : Config}

/-- How all workers of the configuration end. -/
def fate (c : Config) : Option Failure :=
  if signedCount c.workers * signedCount c.entriesPerWorker = 0 ∨
      c.entrySize.toNat ≤ c.capacityBytes.toNat then none
  else some (.refused (.oversizedPayload c.entrySize.toNat c.capacityBytes.toNat))

/-- All payloads can be made, and what is admitted can be counted. -/
structure Countable (c : Config) : Prop where
  made : 0 < signedCount c.workers * signedCount c.entriesPerWorker →
    c.entrySize.toNat ≤ Payload.longest
  admissions : c.entrySize.toNat ≤ c.capacityBytes.toNat →
    signedCount c.workers * signedCount c.entriesPerWorker < wordLimit

theorem endsIn_fate (hc : c.Countable) (hvalid : c.validate = .ok ()) :
    (Crew.start (Cache.opened .oldestFirst c.capacityBytes) (signedCount c.workers)
      (signedCount c.entriesPerWorker) c.entrySize.toNat).EndsIn
        (signedCount c.entriesPerWorker) c.fate := by
  obtain ⟨-, -, -, hsize⟩ := c.validate_eq_ok_iff.1 hvalid
  have hsize : 0 < c.entrySize.toNat := UInt64.lt_iff_toNat_lt.1 (UInt64.pos_iff_ne_zero.2 hsize)
  have hworkers := signedCount_lt c.workers
  have hholds :
      (Cache.opened .oldestFirst c.capacityBytes).Holds (.empty c.capacityBytes.toNat {}) :=
    ⟨rfl, rfl, Resident.sound_empty _ _, rfl⟩
  rw [fate]
  rcases Nat.eq_zero_or_pos (signedCount c.workers * signedCount c.entriesPerWorker) with
    hzero | hpos
  · rw [if_pos (.inl hzero)]
    exact (Crew.Idle.start hholds hzero _).endsIn _
  · rcases Nat.lt_or_ge c.capacityBytes.toNat c.entrySize.toNat with hover | hfits
    · rw [if_neg (by omega)]
      exact (Crew.Stuck.start _ hworkers.le (Nat.pos_of_mul_pos_left hpos) _).endsIn hholds
        (hc.made hpos) hover _
    · rw [if_pos (.inr hfits)]
      exact (Crew.Reconciles.start _ _ _ _).endsIn
        ⟨hsize, hfits, .inl (hc.made hpos), signedCount_lt _, hworkers.le, hc.admissions hfits⟩

end Config

end LedgerCache
