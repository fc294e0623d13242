import LedgerCache.Proofs.Steps
import LedgerCache.Reporter
import LedgerCache.Workload.Worker

namespace LedgerCache

variable {nominate : Nomination}

namespace Event

/-- What a put may emit. -/
def ofPut : Event → Bool
  | .putRejected .. => true
  | .evicted .. => true
  | _ => false

def closes : Event → Bool
  | .cacheClosed .. => true
  | _ => false

variable {e : Event}

theorem source_of_ofPut (h : e.ofPut) : e.record.source = .store := by
  cases e <;> first | rfl | cases h

theorem not_closes_of_ofPut (h : e.ofPut) : e.closes = false := by
  cases e <;> first | rfl | cases h

end Event

def Timed.ofReporter (t : Timed) : Bool := t.event.record.source = .reporter

theorem Timed.not_closes_of_ofReporter {t : Timed} (h : t.ofReporter) :
    t.event.closes = false := by
  rcases t with ⟨time, event⟩
  cases event <;> first | rfl | cases h

namespace Change

def OfPut (c : Change) : Prop := ∀ e ∈ c.events, e.ofPut

theorem OfPut.andThen {c : Change} (hc : c.OfPut) {next : Resident → Change}
    (hnext : ∀ r, (next r).OfPut) : (c.andThen next).OfPut := by
  rcases c with ⟨r, events, calls, _ | f⟩
  · intro e he
    rcases Array.mem_append.1 he with he | he
    · exact hc e he
    · exact hnext r e he
  · exact hc

end Change

namespace Resident

theorem ofPut_remove (r : Resident) (key : Key) : (r.remove key).OfPut := by
  rw [remove]
  split
  · simp [Change.OfPut]
  · dsimp only
    split <;> simp [Change.OfPut]

theorem ofPut_evict (r : Resident) (key : Key) : (r.evict key).OfPut := by
  rw [evict]
  split
  · simp [Change.OfPut, Event.ofPut]
  · exact r.ofPut_remove key

theorem ofPut_evictAll (r : Resident) (victims : List Key) : (r.evictAll victims).OfPut := by
  have hnone : Change.OfPut { resident := r } := by simp [Change.OfPut]
  rw [evictAll]
  generalize ({ resident := r } : Change) = c at hnone
  induction victims generalizing c with
  | nil => exact hnone
  | cons k ks ih => exact ih _ (hnone.andThen fun r => r.ofPut_evict k)

theorem ofPut_store (r : Resident) (key : Key) (payload : Payload) :
    (r.store key payload).OfPut := by
  rw [store]
  split
  · simp [Change.OfPut]
  · dsimp only
    split <;> simp [Change.OfPut]

theorem ofPut_accept (r : Resident) (key : Key) (payload : Payload) (victims : List Key) :
    (r.accept key payload victims).OfPut :=
  ((r.ofPut_remove key).andThen fun r => r.ofPut_evictAll victims).andThen fun r =>
    r.ofPut_store key payload

end Resident

namespace Cache

/-- What a put leaves as it is, and what it emits. -/
structure PutFrame (c : Cache nominate) (s : Step nominate Unit) : Prop where
  resident : s.cache.resident.isSome = c.resident.isSome
  hits : s.cache.counters.hits = c.counters.hits
  misses : s.cache.counters.misses = c.counters.misses
  events : ∀ e ∈ s.events, e.ofPut

theorem putFrame_reject (c : Cache nominate) (key : Key) {e : Error} :
    c.PutFrame (c.reject key e) :=
  ⟨rfl, rfl, rfl, by simp [reject, Event.ofPut]⟩

theorem putFrame_accept (c : Cache nominate) (key : Key) (payload : Payload) :
    c.PutFrame (c.accept key payload) := by
  rw [accept]
  split
  · exact ⟨rfl, rfl, rfl, by simp [refuseClosed]⟩
  · next r hr =>
    split
    · exact ⟨rfl, rfl, rfl, by simp⟩
    · exact c.putFrame_reject key
    · next victims _ =>
      have hevents := r.ofPut_accept key payload victims
      dsimp only
      split <;> exact ⟨by rw [hr]; rfl, rfl, rfl, by simpa [Change.OfPut] using hevents⟩

theorem putFrame (c : Cache nominate) (key : Key) (payload : Payload) :
    c.PutFrame (c.put key payload) := by
  cases hv : c.objection key payload.size with
  | none =>
    rw [put_of_no_objection hv]
    exact c.putFrame_accept key payload
  | some e =>
    rw [put, check, hv]
    cases e with
    | closed => exact ⟨rfl, rfl, rfl, by simp [refuseClosed, Step.andThen]⟩
    | _ => exact c.putFrame_reject key

theorem events_get (c : Cache nominate) (key : Key) : (c.get key).events = [] := by
  rw [get]
  split
  · rfl
  · split <;> rfl

end Cache

/-- A worker never reports that the cache is closed. -/
theorem Worker.not_closes_step (w : Worker) (c : Cache nominate) :
    ∀ e ∈ (w.step c).events, e.closes = false := by
  cases hp : w.progress with
  | writing n =>
    simp only [step, hp, write]
    split
    · simp
    · next payload _ =>
      have hput (e : Event) (he : e ∈ (c.put (w.key n) payload).events) : e.closes = false :=
        Event.not_closes_of_ofPut ((c.putFrame _ _).events e he)
      split <;> simpa [or_imp, forall_and, Event.closes] using hput
  | reading n =>
    have hget := c.events_get (w.key (n - readLag))
    simp only [step, hp, read, hget]
    split
    · split <;> simp [Event.closes]
    · simp
    · simp
  | stopped => simp [step, hp]
  | failed f => simp [step, hp]

namespace Task

theorem ofReporter_start (t : Task) (now : Nat) : ∀ e ∈ (t.start now).2, e.ofReporter := by
  rcases t with ⟨job, phase⟩
  intro e he
  cases phase with
  | spawned =>
    cases job with
    | report interval =>
      cases List.mem_singleton.1 he
      rfl
    | yield value => exact absurd he List.not_mem_nil
    | fail => exact absurd he List.not_mem_nil
  | ticking reports next => exact absurd he List.not_mem_nil
  | ended value => exact absurd he List.not_mem_nil

theorem ofReporter_tick (t : Task) (c : Cache nominate) :
    ∀ e ∈ (t.tick c).events, e.ofReporter := by
  intro e he
  rw [tick] at he
  split at he
  case h_2 => exact absurd he (Array.not_mem_empty e)
  case h_1 =>
    dsimp only at he
    split at he
    · rw [List.mem_toArray, List.mem_singleton] at he
      subst he
      rfl
    · split at he
      · exact absurd he (Array.not_mem_empty e)
      · rw [List.mem_toArray, List.mem_singleton] at he
        subst he
        rfl

theorem ofReporter_ticks (n : Nat) {s : Stint nominate} (h : ∀ e ∈ s.events, e.ofReporter) :
    ∀ e ∈ (s.ticks n).events, e.ofReporter := by
  induction n generalizing s with
  | zero => exact h
  | succ n ih =>
    rw [Stint.ticks]
    split
    · exact h
    · refine ih fun e he => ?_
      rcases Array.mem_append.1 he with he | he
      · exact h e he
      · exact s.task.ofReporter_tick s.cache e he

theorem ofReporter_pass (t : Task) (c : Cache nominate) (now time : Nat) :
    ∀ e ∈ (t.pass c now time).events, e.ofReporter :=
  ofReporter_ticks _ fun e he => t.ofReporter_start now e (List.mem_toArray.1 he)

theorem ofReporter_join (t : Task) (c : Cache nominate) (now : Nat) :
    ∀ e ∈ (t.join c now).events, e.ofReporter := by
  intro e he
  rcases Array.mem_append.1 he with he | he
  · exact t.ofReporter_start now e (List.mem_toArray.1 he)
  · exact ofReporter_tick _ c e he

end Task

end LedgerCache
