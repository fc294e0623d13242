import LedgerCache.Proofs.Runs
import LedgerCache.Supervision

namespace LedgerCache

variable {nominate : Nomination}

@[simp] theorem Cache.cache_stats (c : Cache nominate) : c.stats.cache = c := c.cache_query _

theorem Cache.taken_stats {c : Cache nominate} {r : Resident} (h : c.resident = some r) :
    ∃ stats, c.stats.result = .ok stats := by
  rw [stats, query, h]
  exact ⟨_, rfl⟩

theorem Cache.refused_stats {c : Cache nominate} (h : c.resident = none) :
    c.stats.result = .error (.refused .closed) := by
  rw [stats, query, h]
  rfl

/-- Reading the statistics is all that a task does with its cache. -/
@[simp] theorem Task.cache_tick (t : Task) (c : Cache nominate) : (t.tick c).cache = c := by
  rw [tick]
  split
  · dsimp only
    split
    · exact c.cache_stats
    · split <;> exact c.cache_stats
  · rfl

@[simp] theorem Stint.cache_ticks (n : Nat) (s : Stint nominate) :
    (s.ticks n).cache = s.cache := by
  induction n generalizing s with
  | zero => rfl
  | succ n ih =>
    rw [ticks]
    split
    · rfl
    · exact (ih _).trans (s.task.cache_tick s.cache)

@[simp] theorem Task.cache_pass (t : Task) (c : Cache nominate) (now time : Nat) :
    (t.pass c now time).cache = c := Stint.cache_ticks _ _

@[simp] theorem Task.cache_join (t : Task) (c : Cache nominate) (now : Nat) :
    (t.join c now).cache = c := Task.cache_tick _ _

namespace Supervised

open Supervised.Action

variable (s : Supervised nominate)

theorem cache_after (acts : List Action) :
    (s.after acts).cache = s.cache.after (operations acts) := by
  induction acts generalizing s with
  | nil => rfl
  | cons a acts ih =>
    cases a with
    | sleep span =>
      refine (ih (s.sleep span).1).trans ?_
      rw [sleep, Task.cache_pass]
      rfl
    | abort => exact ih s.abort
    | perform op => exact ih { s with cache := (s.cache.perform op).cache }

theorem steps_run (acts : List Action) :
    (s.run acts).filterMap (·.step) = s.cache.run (operations acts) := by
  induction acts generalizing s with
  | nil => rfl
  | cons a acts ih =>
    cases a with
    | sleep span =>
      have hcache : (s.sleep span).1.cache = s.cache := s.task.cache_pass _ _ _
      show ((s.sleep span).1.run acts).filterMap (·.step) = s.cache.run (operations acts)
      rw [ih, hcache]
    | abort => exact ih s.abort
    | perform op =>
      exact congrArg (s.cache.perform op :: ·) (ih { s with cache := (s.cache.perform op).cache })

theorem clock_after (acts : List Action) : (s.after acts).clock = s.clock + duration acts := by
  induction acts generalizing s with
  | nil => rfl
  | cons a acts ih =>
    cases a with
    | sleep span => exact (ih (s.sleep span).1).trans (Nat.add_assoc _ _ _)
    | abort => exact ih s.abort
    | perform op => exact ih { s with cache := (s.cache.perform op).cache }

/-- A closed cache is not closed again, and nobody waits for its task. -/
theorem closeAndJoin_of_closed {f : Failure} (h : s.cache.stats.result = .error f) :
    s.closeAndJoin = ⟨.error f, s, [], []⟩ := by
  simp only [closeAndJoin, h, Cache.cache_stats]

/-- The shutdown of an open cache. -/
theorem closeAndJoin_of_holds {r : Resident} (h : s.cache.Holds r) :
    ∃ stats, s.cache.stats.result = .ok stats ∧
      s.closeAndJoin.result =
        .ok (stats, (s.task.join s.cache.close.cache s.clock).task.value.getD 0) ∧
      s.closeAndJoin.final =
        { s with
          cache := s.cache.close.cache
          task := (s.task.join s.cache.close.cache s.clock).task } ∧
      s.closeAndJoin.events =
        [⟨s.clock, .cacheClosed r.index.size r.budget.used⟩] ++
          (s.task.join s.cache.close.cache s.clock).events.toList ++
          if (s.task.join s.cache.close.cache s.clock).task.value.isNone then
            [⟨s.clock, .reporterLost⟩] else [] := by
  obtain ⟨stats, hstats⟩ := Cache.taken_stats h.resident
  refine ⟨stats, hstats, ?_⟩
  simp only [closeAndJoin, hstats, Cache.cache_stats, h.close_eq, Task.cache_join]
  exact ⟨trivial, trivial, rfl⟩

/-- Whatever the task of a new cache is, whenever it is aborted and however much time passes, the
operations of a run take the steps that they would take alone. The shutdown closes an open cache and
answers with the statistics from just before; a closed cache it leaves as it is, with its task. -/
theorem run_undisturbed (capacity : UInt64) (job : Job) (acts : List Action)
    {start : Step .oldestFirst Unit} (hstart : Cache.create .oldestFirst capacity = .ok start) :
    let s : Supervised .oldestFirst := { cache := start.cache, task := { job } }
    let c := start.cache.after (operations acts)
    let shutdown := (s.after acts).closeAndJoin
    (s.run acts).filterMap (·.step) = start.cache.run (operations acts) ∧
      (s.after acts).cache = c ∧
      (c.closed = false →
        ∃ stats value, c.stats.result = .ok stats ∧ shutdown.result = .ok (stats, value) ∧
          shutdown.final.cache = c.close.cache ∧ shutdown.final.cache.closed = true ∧
          shutdown.final.cache.resident = none) ∧
      (c.closed = true →
        shutdown.result = .error (.refused .closed) ∧ shutdown.final = s.after acts ∧
          shutdown.events = [] ∧ shutdown.calls = []) := by
  intro s c shutdown
  have hcache : (s.after acts).cache = c := s.cache_after acts
  have hsound : c.Sound := by
    have hopened : (Cache.opened .oldestFirst capacity).Sound := Cache.sound_opened capacity {}
    rw [← Cache.cache_of_create hstart] at hopened
    exact hopened.after_oldestFirst _
  refine ⟨s.steps_run acts, hcache, fun hopen => ?_, fun hclosed => ?_⟩
  · obtain ⟨r, h⟩ : ∃ r, c.Holds r := by
      rcases hsound with ⟨-, hclosed⟩ | h
      · rw [hopen] at hclosed
        cases hclosed
      · exact h
    rw [← hcache] at h
    obtain ⟨stats, hstats, hresult, hfinal, -⟩ := (s.after acts).closeAndJoin_of_holds h
    have hclose := h.close_eq
    rw [hcache] at hstats hfinal hclose
    refine ⟨stats, _, hstats, hresult, ?_⟩
    rw [show shutdown.final = _ from hfinal]
    exact ⟨rfl, by rw [hclose], by rw [hclose]⟩
  · have hnone : c.resident = none := by
      rcases hsound with ⟨hnone, -⟩ | ⟨r, h⟩
      · exact hnone
      · rw [h.not_closed] at hclosed
        cases hclosed
    have hstats := Cache.refused_stats (hcache ▸ hnone)
    have hshutdown : shutdown = _ := (s.after acts).closeAndJoin_of_closed hstats
    rw [hshutdown]
    exact ⟨rfl, rfl, rfl, rfl⟩

/-- A reporter that is aborted between two of its ticks; then the same with a close of the cache in
front of the shutdown. -/
theorem run_undisturbed_of_aborted :
    let start : Step .oldestFirst Unit :=
      { result := .ok (), cache := Cache.opened .oldestFirst 8, events := [.cacheCreated 8],
        calls := [.cleared] }
    let s : Supervised .oldestFirst := { cache := start.cache, task := { job := .report 10 } }
    let acts : List Action :=
      [.perform (.put ⟨1, 1⟩ #[7]), .sleep 25, .perform (.get ⟨1, 1⟩), .abort]
    Cache.create .oldestFirst 8 = .ok start ∧
      ((s.run acts).filterMap (·.step)).map (·.result) = [.ok .done, .ok (.view (some #[7]))] ∧
      (∃ stats value, (s.after acts).closeAndJoin.result = .ok (stats, value) ∧
        (s.after acts).closeAndJoin.final.cache.closed = true) ∧
      (s.after (acts ++ [.perform .close])).closeAndJoin.result = .error (.refused .closed) := by
  intro start s acts
  have hcreate : Cache.create .oldestFirst 8 = .ok start := Cache.create_eq (by decide) {}
  obtain ⟨hsteps, -, hopen, -⟩ := run_undisturbed 8 (.report 10) acts hcreate
  obtain ⟨-, -, -, hclosed⟩ := run_undisturbed 8 (.report 10) (acts ++ [.perform .close]) hcreate
  obtain ⟨stats, value, -, hresult, -, hflag, -⟩ := hopen (by decide +kernel)
  refine ⟨hcreate, ?_, ⟨stats, value, hresult, hflag⟩, (hclosed (by decide +kernel)).1⟩
  rw [hsteps]
  decide +kernel

end Supervised

end LedgerCache
