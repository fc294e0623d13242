import LedgerCache.Proofs.Conservation
import LedgerCache.Proofs.Emissions
import LedgerCache.Proofs.Supervision
import Mathlib.Data.List.Basic

namespace LedgerCache

variable {nominate : Nomination}

def Operation.looksUp : Operation → Bool
  | .get _ => true
  | _ => false

namespace Cache

theorem events_perform (c : Cache nominate) (op : Operation) :
    ∀ e ∈ (c.perform op).events, e.record.source = .store := by
  by_cases hop : op.changes = false
  · rw [(c.silent_perform hop).events]
    simp
  cases op with
  | put key payload =>
    exact fun e he => Event.source_of_ofPut ((c.putFrame key payload).events e he)
  | close =>
    rw [perform, Step.events_map, close]
    split
    · simp [refuseClosed]
    · rw [finishClose]
      split <;> simp [Event.record]
  | _ => exact absurd rfl hop

/-- The cache is open, and its lookups and those of the operations are no more than a word counts. -/
structure Readable (c : Cache nominate) (ops : List Operation) : Prop where
  resident : c.resident.isSome
  lookups :
    c.counters.hits.toNat + c.counters.misses.toNat + ops.countP Operation.looksUp < wordLimit

namespace Readable

variable {c : Cache nominate} {op : Operation} {ops : List Operation}

theorem perform (h : c.Readable (op :: ops)) (hop : op ≠ .close) :
    (c.perform op).cache.Readable ops := by
  obtain ⟨hresident, hlookups⟩ := h
  rw [List.countP_cons] at hlookups
  have hcount (words : UInt64) : (words + 1).toNat ≤ words.toNat + 1 := by
    rw [UInt64.toNat_add]
    exact Nat.mod_le _ _
  by_cases hobserves : op.observes
  · rw [c.cache_perform_of_observes hobserves]
    exact ⟨hresident, by omega⟩
  cases op with
  | put key payload =>
    have hframe := c.putFrame key payload
    refine ⟨hframe.resident.trans hresident, ?_⟩
    show (c.put key payload).cache.counters.hits.toNat +
      (c.put key payload).cache.counters.misses.toNat + _ < _
    rw [hframe.hits, hframe.misses]
    omega
  | get key =>
    have hlookup : (Operation.get key).looksUp = true := rfl
    rw [hlookup, if_pos rfl] at hlookups
    rw [Cache.perform, Step.cache_map, get]
    split
    · next hnone => simp [hnone] at hresident
    · split
      · have hhits := hcount c.counters.hits
        refine ⟨hresident, ?_⟩
        show (c.counters.hits + 1).toNat + c.counters.misses.toNat + _ < _
        omega
      · have hmisses := hcount c.counters.misses
        refine ⟨hresident, ?_⟩
        show c.counters.hits.toNat + (c.counters.misses + 1).toNat + _ < _
        omega
  | close => exact absurd rfl hop
  | _ => exact absurd rfl hobserves

theorem after (h : c.Readable ops) (hclose : ∀ op ∈ ops, op ≠ .close) :
    (c.after ops).Readable [] := by
  induction ops generalizing c with
  | nil => exact h
  | cons op ops ih =>
    rw [List.forall_mem_cons] at hclose
    exact ih (h.perform hclose.1) hclose.2

end Readable

/-- The statistics of an open cache. -/
def figures (c : Cache nominate) : Stats :=
  match c.stats.result with
  | .ok s => s
  | .error _ => {}

/-- The statistics can be taken, and their rates can be told. -/
theorem Readable.stats_eq {c : Cache nominate} {ops : List Operation} (h : c.Readable ops) :
    c.stats.result = .ok c.figures ∧ ∃ x, c.figures.hitRate = .ok x := by
  obtain ⟨r, hr⟩ := Option.isSome_iff_exists.1 h.resident
  have hlt : c.counters.hits.toNat + c.counters.misses.toNat < wordLimit :=
    (Nat.le_add_right _ _).trans_lt h.lookups
  obtain ⟨s, hs⟩ := taken_stats hr
  have hstats : c.stats.result = .ok c.figures := by rw [figures, hs]
  refine ⟨hstats, Stats.share c.counters.hits (c.counters.hits + c.counters.misses), ?_⟩
  have hfigures : c.figures.hits = c.counters.hits ∧ c.figures.misses = c.counters.misses := by
    rw [figures, stats, query, hr]
    exact ⟨rfl, rfl⟩
  rw [Stats.hitRate, Stats.lookups, hfigures.1, hfigures.2, addWords, if_pos hlt]
  rfl

end Cache

namespace Task

/-- A reporter that has reported at each tick before `now` and waits for the next one. -/
def onTime (interval now : Nat) : Task where
  job := .report interval
  phase := .ticking (UInt64.ofNat (now / interval)) ((now / interval + 1) * interval)

theorem due_onTime {interval now time : Nat} (hi : 0 < interval) :
    (onTime interval now).due time = time / interval - now / interval := by
  show (if (now / interval + 1) * interval ≤ time then
    (time - (now / interval + 1) * interval) / interval + 1 else 0) = _
  have hle : now / interval + 1 ≤ time / interval ↔ (now / interval + 1) * interval ≤ time :=
    Nat.le_div_iff_mul_le hi
  split
  · rw [Nat.mul_comm, Nat.sub_mul_div]
    omega
  · omega

/-- On a cache that can be read each tick is a report. -/
theorem ticks_reporting {c : Cache nominate} {ops : List Operation} (hc : c.Readable ops)
    (interval n : Nat) (reports : UInt64) (next : Nat) (events : Array Timed) :
    Stint.ticks n
        { task := { job := .report interval, phase := .ticking reports next }, cache := c, events } =
      { task := { job := .report interval,
                  phase := .ticking (reports + UInt64.ofNat n) (next + n * interval) }
        cache := c
        events := events ++
          ((List.range n).map fun i => ⟨next + i * interval, .report c.figures⟩).toArray } := by
  obtain ⟨hstats, x, hrate⟩ := hc.stats_eq
  induction n generalizing reports next events with
  | zero => simp [Stint.ticks]
  | succ n ih =>
    have htick : tick { job := .report interval, phase := .ticking reports next } c =
        { task := { job := .report interval, phase := .ticking (reports + 1) (next + interval) }
          cache := c, events := #[⟨next, .report c.figures⟩] } := by
      simp only [tick, hstats, hrate, Cache.cache_stats]
    have hcount : reports + 1 + UInt64.ofNat n = reports + UInt64.ofNat (n + 1) := by
      rw [UInt64.ofNat_add, UInt64.add_assoc, UInt64.add_comm 1]
      rfl
    have htime (i : Nat) : next + interval + i * interval = next + (i + 1) * interval := by
      rw [Nat.succ_mul, Nat.add_assoc, Nat.add_comm interval]
    simp only [Stint.ticks, htick]
    rw [ih]
    simp only [hcount, htime, List.range_succ_eq_map, List.map_cons, List.map_map]
    simp [Function.comp_def]

/-- A reporter on time stays on time while the cache can be read. -/
theorem ticks_onTime {c : Cache nominate} {ops : List Operation} (hc : c.Readable ops)
    {interval now time : Nat} (hi : 0 < interval) (hle : now ≤ time) (events : Array Timed) :
    Stint.ticks ((onTime interval now).due time)
        { task := onTime interval now, cache := c, events } =
      { task := onTime interval time
        cache := c
        events := events ++
          ((List.range' (now / interval + 1) (time / interval - now / interval)).map fun k =>
            ⟨k * interval, .report c.figures⟩).toArray } := by
  have hmono : now / interval ≤ time / interval := Nat.div_le_div_right hle
  have hsum : now / interval + (time / interval - now / interval) = time / interval := by omega
  have hnext : (now / interval + 1) * interval + (time / interval - now / interval) * interval =
      (time / interval + 1) * interval := by
    rw [← Nat.add_mul, Nat.add_right_comm, hsum]
  have htime (i : Nat) : (now / interval + 1) * interval + i * interval =
      (now / interval + 1 + i) * interval := (Nat.add_mul _ _ _).symm
  rw [due_onTime hi, onTime, ticks_reporting hc, ← UInt64.ofNat_add, hsum, hnext,
    List.range'_eq_map_range, List.map_map]
  simp only [htime]
  rfl

end Task

namespace Supervised

open Supervised.Action

/-- The task is a reporter on time; it may still be about to start. -/
structure OnSchedule (interval : Nat) (s : Supervised nominate) : Prop where
  job : s.task.job = .report interval
  phase : s.task.phase = .spawned ∧ s.clock = 0 ∨ s.task = .onTime interval s.clock

/-- What a reporter emits when it starts, if it still has to. -/
def opening (s : Supervised nominate) : List Timed :=
  match s.task.phase, s.task.job with
  | .spawned, .report interval => [⟨s.clock, .reporterStarted interval⟩]
  | _, _ => []

variable {interval : Nat} {s : Supervised nominate}

theorem OnSchedule.onTime (interval : Nat) (c : Cache nominate) (clock : Nat) :
    OnSchedule interval
      ({ cache := c, task := .onTime interval clock, clock } : Supervised nominate) :=
  ⟨rfl, .inr rfl⟩

theorem OnSchedule.phase_abort (h : OnSchedule interval s) : s.abort.task.phase = .ended none := by
  rcases h.phase with ⟨hphase, -⟩ | htask
  · simp [abort, Task.abort, hphase]
  · simp [abort, Task.abort, htask, Task.onTime]

/-- It starts, if it has not, and goes on as if it had been on time before. -/
theorem OnSchedule.start_eq (h : OnSchedule interval s) :
    s.task.start s.clock = (.onTime interval s.clock, s.opening) := by
  obtain ⟨hjob, ⟨hphase, hclock⟩ | htask⟩ := h
  · simp [Task.start, opening, hphase, hjob, hclock, Task.onTime]
  · rw [opening, htask]
    rfl

theorem OnSchedule.sleep_eq (h : OnSchedule interval s) (hi : 0 < interval) {ops : List Operation}
    (hc : s.cache.Readable ops) (span : Nat) :
    s.sleep span =
      ({ s with task := .onTime interval (s.clock + span), clock := s.clock + span },
        s.opening ++ (List.range' (s.clock / interval + 1)
          ((s.clock + span) / interval - s.clock / interval)).map fun k =>
            ⟨k * interval, .report s.cache.figures⟩) := by
  simp only [sleep, Task.pass, h.start_eq]
  rw [Task.ticks_onTime hc hi (Nat.le_add_right _ _)]
  simp

theorem ofReporter_act_perform (s : Supervised nominate) (op : Operation) :
    (s.act (.perform op)).events.filter Timed.ofReporter = [] := by
  rw [List.filter_eq_nil_iff]
  intro t ht
  obtain ⟨e, he, rfl⟩ := List.mem_map.1 ht
  have hstore := s.cache.events_perform op e he
  simp [Timed.ofReporter, hstore]

/-- An operation within a run is nothing that the reporter emits. -/
theorem ofReporter_emitted_perform (s : Supervised nominate) (before : List Action)
    (op : Operation) (behind : List Action) :
    (s.emitted (before ++ .perform op :: behind)).filter Timed.ofReporter =
      (s.emitted before).filter Timed.ofReporter ++
        (((s.after before).act (.perform op)).after.emitted behind).filter Timed.ofReporter := by
  rw [emitted_append, List.filter_append, emitted_cons, List.filter_append,
    ofReporter_act_perform, List.nil_append]

theorem ofReporter_opening (s : Supervised nominate) :
    s.opening.filter Timed.ofReporter = s.opening := by
  rw [opening]
  split <;> rfl

/-- The reports that are due while the actions take the clock on from `now`. -/
def dueReports (interval now : Nat) (c : Cache nominate) (acts : List Action) : List Timed :=
  (List.range' (now / interval + 1) ((now + duration acts) / interval - now / interval)).map fun k =>
    ⟨k * interval, .report (c.after (operationsBefore (k * interval - now) acts)).figures⟩

theorem ofReporter_reports {ks : List Nat} (figures : Nat → Stats) :
    (ks.map fun k => (⟨k * interval, .report (figures k)⟩ : Timed)).filter Timed.ofReporter =
      ks.map fun k => ⟨k * interval, .report (figures k)⟩ := by
  rw [List.filter_eq_self]
  intro t ht
  obtain ⟨k, -, rfl⟩ := List.mem_map.1 ht
  rfl

/-- The reports in a sleep show the cache as it is, and those that are due later do not depend on
where the sleep ends. -/
theorem dueReports_sleep (hi : 0 < interval) (now span : Nat) (c : Cache nominate)
    (acts : List Action) :
    dueReports interval now c (.sleep span :: acts) =
      ((List.range' (now / interval + 1) ((now + span) / interval - now / interval)).map fun k =>
        ⟨k * interval, .report c.figures⟩) ++ dueReports interval (now + span) c acts := by
  have hmid : now / interval ≤ (now + span) / interval := Nat.div_le_div_right (Nat.le_add_right _ _)
  have hend : (now + span) / interval ≤ (now + span + duration acts) / interval :=
    Nat.div_le_div_right (Nat.le_add_right _ _)
  have hsplit : (now + duration (.sleep span :: acts)) / interval - now / interval =
      (now + span) / interval - now / interval +
        ((now + span + duration acts) / interval - (now + span) / interval) := by
    rw [duration, ← Nat.add_assoc]
    omega
  have hfirst : now / interval + 1 + ((now + span) / interval - now / interval) =
      (now + span) / interval + 1 := by omega
  rw [dueReports, hsplit, ← List.range'_append_1, List.map_append, hfirst]
  congr 1
  · refine List.map_congr_left fun k hk => ?_
    have hle : k * interval ≤ now + span := by
      rw [← Nat.le_div_iff_mul_le hi]
      have hlt := (List.mem_range'_1.1 hk).2
      omega
    rw [operationsBefore, if_pos (by omega)]
    rfl
  · refine List.map_congr_left fun k hk => ?_
    have hlt : now + span < k * interval := by
      rw [← Nat.div_lt_iff_lt_mul hi]
      have hle := (List.mem_range'_1.1 hk).1
      omega
    rw [operationsBefore, if_neg (by omega), Nat.sub_sub]

/-- As long as the cache is open and the task is not aborted, the reporter reports on time. -/
theorem OnSchedule.run (h : OnSchedule interval s) (hi : 0 < interval) {acts : List Action}
    (hquiet : ∀ a ∈ acts, a ≠ .abort ∧ a ≠ .perform .close)
    (hc : s.cache.Readable (operations acts)) :
    OnSchedule interval (s.after acts) ∧
      (s.emitted acts).filter Timed.ofReporter ++ (s.after acts).opening =
        s.opening ++ dueReports interval s.clock s.cache acts := by
  induction acts generalizing s with
  | nil =>
    have hnone : dueReports interval s.clock s.cache [] = [] := by simp [dueReports, duration]
    rw [hnone, List.append_nil]
    exact ⟨h, rfl⟩
  | cons a acts ih =>
    obtain ⟨⟨habort, hclose⟩, hrest⟩ := List.forall_mem_cons.1 hquiet
    cases a with
    | abort => exact absurd rfl habort
    | perform op =>
      have hop : op ≠ .close := fun heq => hclose (congrArg _ heq)
      have hnext : OnSchedule interval (s.act (.perform op)).after := ⟨h.job, h.phase⟩
      obtain ⟨hafter, hevents⟩ := ih hnext hrest (hc.perform hop)
      refine ⟨hafter, ?_⟩
      rw [emitted_cons, List.filter_append, ofReporter_act_perform, List.nil_append]
      exact hevents
    | sleep span =>
      have hsleep := h.sleep_eq hi hc span
      have hact : (s.act (.sleep span)).after = (s.sleep span).1 := rfl
      have hemitted : (s.act (.sleep span)).events = (s.sleep span).2 := rfl
      rw [hsleep] at hact hemitted
      have hnext : OnSchedule interval (s.act (.sleep span)).after := by
        rw [hact]
        exact .onTime interval s.cache (s.clock + span)
      have hreadable : (s.act (.sleep span)).after.cache.Readable (operations acts) := by
        rw [hact]
        exact hc
      obtain ⟨hafter, hevents⟩ := ih hnext hrest hreadable
      refine ⟨hafter, ?_⟩
      have hopening : (s.act (.sleep span)).after.opening = [] := by
        rw [hact]
        rfl
      rw [emitted_cons, List.filter_append, List.append_assoc]
      rw [show (s.after (.sleep span :: acts)).opening =
        ((s.act (.sleep span)).after.after acts).opening from rfl, hevents, hopening,
        List.nil_append, dueReports_sleep hi, hemitted, hact, List.filter_append, ofReporter_opening,
        ofReporter_reports fun _ => s.cache.figures, List.append_assoc]

/-- The start of the reporter comes in front of its reports, if it comes at all. -/
theorem OnSchedule.run_started (h : OnSchedule interval s) (hi : 0 < interval) {acts : List Action}
    (hquiet : ∀ a ∈ acts, a ≠ .abort ∧ a ≠ .perform .close)
    (hc : s.cache.Readable (operations acts)) :
    OnSchedule interval (s.after acts) ∧
      ∃ first, first ++ (s.after acts).opening = s.opening ∧
        (s.emitted acts).filter Timed.ofReporter =
          first ++ dueReports interval s.clock s.cache acts ∧
        ((s.after acts).opening = [] ∨ dueReports interval s.clock s.cache acts = []) := by
  obtain ⟨hafter, hevents⟩ := h.run hi hquiet hc
  refine ⟨hafter, ?_⟩
  rcases hafter.phase with ⟨hphase, hclock⟩ | htask
  · have hzero : s.clock = 0 ∧ duration acts = 0 := by
      rw [clock_after] at hclock
      omega
    have hnone : dueReports interval s.clock s.cache acts = [] := by simp [dueReports, hzero]
    rw [hnone, List.append_nil] at hevents
    exact ⟨_, hevents, by rw [hnone, List.append_nil], .inr hnone⟩
  · have hnone : (s.after acts).opening = [] := by
      rw [opening, htask]
      rfl
    rw [hnone, List.append_nil] at hevents
    exact ⟨_, by rw [hnone, List.append_nil], hevents, .inl hnone⟩

/-- A task that is over stays so and emits nothing. -/
theorem run_of_ended {value : Option UInt64} (h : s.task.phase = .ended value) (acts : List Action) :
    (s.emitted acts).filter Timed.ofReporter = [] ∧ (s.after acts).task = s.task := by
  induction acts generalizing s with
  | nil => exact ⟨rfl, rfl⟩
  | cons a acts ih =>
    have hact : (s.act a).events.filter Timed.ofReporter = [] ∧ (s.act a).after.task = s.task := by
      cases a with
      | sleep span =>
        have hdue : s.task.due (s.clock + span) = 0 := by simp [Task.due, h]
        simp [act, sleep, Task.pass, Task.start, h, hdue, Stint.ticks]
      | abort => simp [act, abort, Task.abort, h]
      | perform op => exact ⟨s.ofReporter_act_perform op, rfl⟩
    obtain ⟨hevents, htask⟩ := ih (s := (s.act a).after) (hact.2 ▸ h)
    refine ⟨?_, htask.trans hact.2⟩
    rw [emitted_cons, List.filter_append, hact.1, hevents]
    rfl

/-- The next tick is still to come. -/
theorem lt_nextTick (hi : 0 < interval) (clock : Nat) :
    ¬(clock / interval + 1) * interval ≤ clock := by
  rw [Nat.not_le, Nat.mul_comm]
  exact Nat.lt_mul_div_succ clock hi

/-- As long as it is to come, no other tick has passed. -/
theorem div_eq_of_lt_nextTick (hi : 0 < interval) {clock span : Nat}
    (h : ¬(clock / interval + 1) * interval ≤ clock + span) :
    (clock + span) / interval = clock / interval := by
  have hmono : clock / interval ≤ (clock + span) / interval :=
    Nat.div_le_div_right (Nat.le_add_right _ _)
  rw [← Nat.le_div_iff_mul_le hi] at h
  omega

/-- The last that a reporter emits, at its first tick after the close of the cache. -/
def exiting (interval clock : Nat) : Timed :=
  ⟨(clock / interval + 1) * interval, .reporterExiting (UInt64.ofNat (clock / interval))⟩

theorem OnSchedule.join_eq (h : OnSchedule interval s) {c : Cache nominate} {f : Failure}
    (hc : c.stats.result = .error f) :
    s.task.join c s.clock =
      { task := { job := .report interval
                  phase := .ended (some (UInt64.ofNat (s.clock / interval))) }
        cache := c
        events := (s.opening ++ [exiting interval s.clock]).toArray } := by
  simp only [Task.join, h.start_eq, Task.tick, Task.onTime, hc, Cache.cache_stats, exiting]
  simp

/-- On a closed cache the reporter waits for its next tick and ends with it. -/
theorem OnSchedule.sleep_closed (h : OnSchedule interval s) (hi : 0 < interval) {f : Failure}
    (hc : s.cache.stats.result = .error f) (span : Nat) :
    s.sleep span =
      if (s.clock / interval + 1) * interval ≤ s.clock + span then
        ({ s with
            task := { job := .report interval
                      phase := .ended (some (UInt64.ofNat (s.clock / interval))) }
            clock := s.clock + span },
          s.opening ++ [exiting interval s.clock])
      else ({ s with task := .onTime interval (s.clock + span), clock := s.clock + span },
        s.opening) := by
  simp only [sleep, Task.pass, h.start_eq, Task.due_onTime hi]
  split
  · next hdue =>
    rw [← Nat.le_div_iff_mul_le hi] at hdue
    obtain ⟨n, hn⟩ : ∃ n, (s.clock + span) / interval - s.clock / interval = n + 1 :=
      ⟨(s.clock + span) / interval - s.clock / interval - 1, by omega⟩
    have hover (n : Nat) (t : Stint nominate) (value : Option UInt64)
        (ht : t.task.phase = .ended value) : t.ticks n = t := by
      cases n <;> simp [Stint.ticks, ht]
    rw [hn, Stint.ticks]
    simp only [Task.tick, Task.onTime, hc, Cache.cache_stats]
    rw [hover n _ _ rfl]
    simp [exiting]
  · next hdue =>
    have hsame := div_eq_of_lt_nextTick hi hdue
    rw [hsame, Nat.sub_self, Stint.ticks, Task.onTime, Task.onTime, hsame]

/-- What a reporter on a closed cache still emits, before it may be aborted. -/
theorem OnSchedule.run_closed (h : OnSchedule interval s) (hi : 0 < interval)
    (hr : s.cache.resident = none) (hclosed : s.cache.closed = true) (acts : List Action) :
    ∃ first, (first = [] ∨ first = s.opening) ∧
      (s.emitted acts).filter Timed.ofReporter = first ++
        if (s.clock / interval + 1) * interval ≤
            s.clock + duration (acts.takeWhile (· ≠ .abort)) then
          [exiting interval s.clock] else [] := by
  induction acts generalizing s with
  | nil => exact ⟨[], .inl rfl, (if_neg (lt_nextTick hi s.clock)).symm⟩
  | cons a acts ih =>
    rw [emitted_cons, List.filter_append]
    cases a with
    | abort =>
      have hover : (s.act .abort).after.task.phase = .ended none := h.phase_abort
      refine ⟨[], .inl rfl, ?_⟩
      rw [(run_of_ended hover acts).1]
      exact (if_neg (lt_nextTick hi s.clock)).symm
    | perform op =>
      have hkeeps := (Cache.silent_of_closed hr hclosed op).keeps
      have hnext : OnSchedule interval (s.act (.perform op)).after := ⟨h.job, h.phase⟩
      rw [ofReporter_act_perform]
      exact ih hnext (hkeeps.resident.trans hr) (hkeeps.closed.trans hclosed)
    | sleep span =>
      have hsleep := h.sleep_closed hi (Cache.refused_stats hr) span
      have hafter : (s.act (.sleep span)).after = (s.sleep span).1 := rfl
      have hevents : (s.act (.sleep span)).events = (s.sleep span).2 := rfl
      have hduration : duration ((Action.sleep span :: acts).takeWhile (· ≠ .abort)) =
          span + duration (acts.takeWhile (· ≠ .abort)) := rfl
      rw [hsleep] at hafter hevents
      refine ⟨s.opening, .inr rfl, ?_⟩
      rw [hduration, ← Nat.add_assoc]
      by_cases hdue : (s.clock / interval + 1) * interval ≤ s.clock + span
      · rw [if_pos hdue] at hafter hevents
        have hover := run_of_ended (s := (s.act (.sleep span)).after)
          (congrArg (·.task.phase) hafter) acts
        rw [hevents, hover.1, List.filter_append, ofReporter_opening, List.append_nil,
          if_pos (hdue.trans (Nat.le_add_right _ _))]
        rfl
      · rw [if_neg hdue] at hafter hevents
        have hsame := div_eq_of_lt_nextTick hi hdue
        obtain ⟨first, hfirst, hrest⟩ := ih (s := (s.act (.sleep span)).after)
          (hafter ▸ .onTime interval s.cache (s.clock + span)) (hafter ▸ hr) (hafter ▸ hclosed)
        have hnone : first = [] := by
          rcases hfirst with hfirst | hfirst
          · exact hfirst
          · rw [hfirst, hafter]
            rfl
        rw [hrest, hnone, hevents, ofReporter_opening, hafter]
        simp only [hsame, exiting, List.nil_append]

theorem stats_closed {c : Cache nominate} {r : Resident} (h : c.Holds r) :
    c.close.cache.stats.result = .error (.refused .closed) ∧ c.close.cache.closed = true := by
  rw [h.close_eq]
  exact ⟨Cache.refused_stats rfl, rfl⟩

/-- The shutdown waits for a reporter on time. -/
theorem OnSchedule.shutdown (h : OnSchedule interval s) {r : Resident} (hr : s.cache.Holds r) :
    (∃ stats, s.cache.stats.result = .ok stats ∧
      s.closeAndJoin.result = .ok (stats, UInt64.ofNat (s.clock / interval))) ∧
      s.closeAndJoin.events.filter Timed.ofReporter = s.opening ++ [exiting interval s.clock] := by
  obtain ⟨stats, hstats, hresult, -, hevents⟩ := s.closeAndJoin_of_holds hr
  have hjoin := h.join_eq (stats_closed hr).1
  rw [hjoin] at hresult hevents
  refine ⟨⟨stats, hstats, hresult⟩, ?_⟩
  rw [hevents]
  simp only [List.filter_append, ofReporter_opening]
  exact List.append_nil _

/-- The shutdown counts nothing of a task that was aborted. -/
theorem shutdown_of_aborted (h : s.task.phase = .ended none) {r : Resident}
    (hr : s.cache.Holds r) :
    (∃ stats, s.cache.stats.result = .ok stats ∧ s.closeAndJoin.result = .ok (stats, 0)) ∧
      s.closeAndJoin.final.cache.closed = true ∧
      s.closeAndJoin.events.filter Timed.ofReporter = [⟨s.clock, .reporterLost⟩] := by
  obtain ⟨stats, hstats, hresult, hfinal, hevents⟩ := s.closeAndJoin_of_holds hr
  have hjoin : s.task.join s.cache.close.cache s.clock =
      { task := s.task, cache := s.cache.close.cache } := by
    simp [Task.join, Task.start, Task.tick, h]
  have hvalue : s.task.value = none := by rw [Task.value, h]
  rw [hjoin, hvalue] at hresult
  rw [hjoin, hvalue] at hevents
  refine ⟨⟨stats, hstats, hresult⟩, ?_, ?_⟩
  · rw [hfinal]
    exact (stats_closed hr).2
  · rw [hevents]
    rfl

namespace Action

theorem operations_append (acts more : List Action) :
    operations (acts ++ more) = operations acts ++ operations more := by
  induction acts with
  | nil => rfl
  | cons a acts ih => cases a <;> simp [operations, ih]

theorem mem_operations {acts : List Action} {op : Operation} :
    op ∈ operations acts ↔ .perform op ∈ acts := by
  induction acts with
  | nil => simp [operations]
  | cons a acts ih => cases a <;> simp [operations, ih]

/-- What comes behind does not count before the time is over. -/
theorem operationsBefore_append {time : Nat} {acts : List Action} (more : List Action)
    (hpos : 0 < time) (hle : time ≤ duration acts) :
    operationsBefore time (acts ++ more) = operationsBefore time acts := by
  induction acts generalizing time with
  | nil => exact absurd hle (Nat.not_le.2 hpos)
  | cons a acts ih =>
    cases a with
    | abort => exact ih hpos hle
    | perform op => exact congrArg (op :: ·) (ih hpos hle)
    | sleep span =>
      rw [List.cons_append, operationsBefore, operationsBefore]
      split
      · rfl
      · rw [duration] at hle
        exact ih (by omega) (by omega)

theorem operationsBefore_sublist (time : Nat) (acts : List Action) :
    (operationsBefore time acts).Sublist (operations acts) := by
  induction acts generalizing time with
  | nil => exact List.Sublist.slnil
  | cons a acts ih =>
    cases a with
    | abort => exact ih time
    | perform op => exact (ih time).cons_cons op
    | sleep span =>
      rw [operationsBefore]
      split
      · exact List.nil_sublist _
      · exact ih _

end Action

/-- The reporter of a run has emitted `first`, then a report at each multiple of its interval up to
`time`, each with the statistics that the operations before it left, and then `last`. -/
def Reported (c : Cache nominate) (interval : Nat) (acts : List Action) (log first : List Timed)
    (time : Nat) (last : List Timed) : Prop :=
  ∃ figures : Nat → Stats,
    (∀ k, 0 < k → k ≤ time / interval →
      (c.after (operationsBefore (k * interval) acts)).stats.result = .ok (figures k)) ∧
    log.filter Timed.ofReporter =
      first ++ (List.range' 1 (time / interval)).map (fun k =>
        ⟨k * interval, .report (figures k)⟩) ++ last

/-- A reporter that starts with the run reports until the end of its first part, `acts`. -/
theorem reported_of_run {c : Cache nominate} (hi : 0 < interval) {acts more : List Action}
    (hquiet : ∀ a ∈ acts, a ≠ .perform .close) (hc : c.Readable (operations acts))
    {log first last : List Timed}
    (hlog : log.filter Timed.ofReporter = first ++ dueReports interval 0 c acts ++ last) :
    Reported c interval (acts ++ more) log first (duration acts) last := by
  refine ⟨fun k => (c.after (operationsBefore (k * interval) acts)).figures,
    fun k hpos hle => ?_, ?_⟩
  · rw [operationsBefore_append more (Nat.mul_pos hpos hi) ((Nat.le_div_iff_mul_le hi).1 hle)]
    have hsublist := operationsBefore_sublist (k * interval) acts
    have hcount := hsublist.countP_le (p := Operation.looksUp)
    have hreadable : c.Readable (operationsBefore (k * interval) acts) :=
      ⟨hc.resident, (Nat.add_le_add_left hcount _).trans_lt hc.lookups⟩
    exact (hreadable.after fun op hop heq =>
      hquiet _ (mem_operations.1 (hsublist.mem hop)) (congrArg _ heq)).stats_eq.1
  · rw [hlog, dueReports]
    simp only [Nat.zero_div, Nat.zero_add, Nat.sub_zero]

/-- A new cache with a reporter that is about to start. -/
def reporting (capacity : UInt64) (interval : Nat) : Supervised .oldestFirst :=
  { cache := .opened .oldestFirst capacity, task := { job := .report interval } }

section Reporting

variable {capacity : UInt64} {acts : List Action}

theorem onSchedule_reporting : OnSchedule interval (reporting capacity interval) :=
  ⟨rfl, .inl ⟨rfl, rfl⟩⟩

theorem clock_reporting (acts : List Action) :
    ((reporting capacity interval).after acts).clock = duration acts :=
  (clock_after _ acts).trans (Nat.zero_add _)

theorem readable_reporting (capacity : UInt64) (interval : Nat)
    (hlookups : (operations acts).countP Operation.looksUp < wordLimit) :
    (reporting capacity interval).cache.Readable (operations acts) := by
  refine ⟨rfl, ?_⟩
  show 0 + 0 + _ < _
  omega

theorem lookups_left {before behind : List Action}
    (hlookups : (operations (before ++ behind)).countP Operation.looksUp < wordLimit) :
    (operations before).countP Operation.looksUp < wordLimit := by
  rw [operations_append, List.countP_append] at hlookups
  omega

/-- The cache stays open if nobody closes it. -/
theorem holds_reporting (capacity : UInt64) (interval : Nat)
    (hlookups : (operations acts).countP Operation.looksUp < wordLimit)
    (hclose : ∀ a ∈ acts, a ≠ .perform .close) :
    ∃ r, ((reporting capacity interval).after acts).cache.Holds r := by
  have hopen := (readable_reporting capacity interval hlookups).after
    fun op hop heq => hclose _ (mem_operations.1 hop) (congrArg _ heq)
  obtain ⟨r, hr⟩ := Option.isSome_iff_exists.1 hopen.resident
  have hsound : ((Cache.opened .oldestFirst capacity).after (operations acts)).Sound :=
    (Cache.sound_opened capacity {}).after_oldestFirst _
  refine ⟨r, ?_⟩
  rw [cache_after]
  exact hsound.holds hr

/-- If nobody aborts the reporter or closes the cache, the shutdown waits for its next tick and
answers with the number of its reports. -/
theorem reports_of_quiet (hi : 0 < interval)
    (hlookups : (operations acts).countP Operation.looksUp < wordLimit)
    (hquiet : ∀ a ∈ acts, a ≠ .abort ∧ a ≠ .perform .close) :
    let s := reporting capacity interval
    Reported s.cache interval acts (s.log acts) [⟨0, .reporterStarted interval⟩] (duration acts)
        [exiting interval (duration acts)] ∧
      ∃ stats, (s.cache.after (operations acts)).stats.result = .ok stats ∧
        (s.after acts).closeAndJoin.result =
          .ok (stats, UInt64.ofNat (duration acts / interval)) := by
  intro s
  have hclose : ∀ a ∈ acts, a ≠ .perform .close := fun a ha => (hquiet a ha).2
  have hreadable : s.cache.Readable (operations acts) :=
    readable_reporting capacity interval hlookups
  obtain ⟨r, hr⟩ := holds_reporting capacity interval hlookups hclose
  obtain ⟨hafter, hevents⟩ := onSchedule_reporting.run hi hquiet hreadable
  obtain ⟨hresult, hlast⟩ := hafter.shutdown hr
  rw [cache_after, clock_reporting] at hresult
  rw [clock_reporting] at hlast
  refine ⟨?_, hresult⟩
  have hreported : Reported s.cache interval (acts ++ []) (s.log acts)
      [⟨0, .reporterStarted interval⟩] (duration acts) [exiting interval (duration acts)] := by
    apply reported_of_run hi hclose hreadable
    rw [log, List.filter_append, hlast, ← List.append_assoc, hevents]
    rfl
  rwa [List.append_nil] at hreported

/-- An abort ends the reports, and the shutdown counts none of them. -/
theorem reports_of_abort {before behind : List Action} (hi : 0 < interval)
    (hlookups : (operations (before ++ .abort :: behind)).countP Operation.looksUp < wordLimit)
    (habort : ∀ a ∈ before, a ≠ .abort)
    (hclose : ∀ a ∈ before ++ .abort :: behind, a ≠ .perform .close) :
    let s := reporting capacity interval
    let acts := before ++ .abort :: behind
    (∃ first, (first = [] ∨ first = [⟨0, .reporterStarted interval⟩]) ∧
      Reported s.cache interval acts (s.log acts) first (duration before)
        [⟨duration acts, .reporterLost⟩]) ∧
      (s.after acts).closeAndJoin.final.cache.closed = true ∧
      ∃ stats, (s.cache.after (operations acts)).stats.result = .ok stats ∧
        (s.after acts).closeAndJoin.result = .ok (stats, 0) := by
  intro s acts
  have hquiet : ∀ a ∈ before, a ≠ .abort ∧ a ≠ .perform .close := fun a ha =>
    ⟨habort a ha, hclose a (List.mem_append_left _ ha)⟩
  have hfront : s.cache.Readable (operations before) :=
    readable_reporting capacity interval (lookups_left hlookups)
  obtain ⟨hsplit, first, hfirst, hevents, -⟩ := onSchedule_reporting.run_started hi hquiet hfront
  obtain ⟨hsilent, htask⟩ := run_of_ended (s := (s.after before).abort) hsplit.phase_abort behind
  have hafter : s.after acts = (s.after before).abort.after behind := s.after_append _ _
  have hemitted : s.emitted acts = s.emitted before ++ (s.after before).abort.emitted behind :=
    s.emitted_append _ _
  have hover : (s.after acts).task.phase = .ended none := by
    rw [hafter, htask]
    exact hsplit.phase_abort
  obtain ⟨r, hr⟩ := holds_reporting capacity interval hlookups hclose
  obtain ⟨hresult, hclosed, hlast⟩ := shutdown_of_aborted hover hr
  rw [cache_after] at hresult
  rw [clock_reporting] at hlast
  refine ⟨⟨first, (List.append_eq_singleton_iff.1 hfirst).imp And.left And.left, ?_⟩, hclosed,
    hresult⟩
  apply reported_of_run hi (fun a ha => (hquiet a ha).2) hfront
  rw [log, List.filter_append, hlast, hemitted, List.filter_append, hevents, hsilent,
    List.append_nil]
  rfl

/-- After a close the reporter ends with its next tick, unless it is aborted before, and the shutdown
refuses to close again. -/
theorem reports_of_close {before behind : List Action} (hi : 0 < interval)
    (hlookups :
      (operations (before ++ .perform .close :: behind)).countP Operation.looksUp < wordLimit)
    (hquiet : ∀ a ∈ before, a ≠ .abort ∧ a ≠ .perform .close) :
    let s := reporting capacity interval
    let acts := before ++ .perform .close :: behind
    (∃ first, (first = [] ∨ first = [⟨0, .reporterStarted interval⟩]) ∧
      Reported s.cache interval acts (s.log acts) first (duration before)
        (if (duration before / interval + 1) * interval ≤
            duration before + duration (behind.takeWhile (· ≠ .abort)) then
          [exiting interval (duration before)] else [])) ∧
      (s.after acts).closeAndJoin.result = .error (.refused .closed) ∧
      (s.after acts).closeAndJoin.final = s.after acts := by
  intro s acts
  have hfront := lookups_left hlookups
  have hreadable : s.cache.Readable (operations before) :=
    readable_reporting capacity interval hfront
  obtain ⟨hsplit, first, hfirst, hevents, hearly⟩ :=
    onSchedule_reporting.run_started hi hquiet hreadable
  obtain ⟨r, hr⟩ := holds_reporting capacity interval hfront
    fun a ha => (hquiet a ha).2
  -- the run goes on behind the close with the same task
  let t := ((s.after before).act (.perform .close)).after
  have ht : OnSchedule interval t := ⟨hsplit.job, hsplit.phase⟩
  have hclock : t.clock = duration before := clock_reporting before
  have hclosed : t.cache = (s.after before).cache.close.cache := rfl
  rw [hr.close_eq] at hclosed
  have hnone : t.cache.resident = none := congrArg (·.resident) hclosed
  have hflag : t.cache.closed = true := congrArg (·.closed) hclosed
  obtain ⟨second, hsecond, hrest⟩ := ht.run_closed hi hnone hflag behind
  have hemitted := s.ofReporter_emitted_perform before .close behind
  have hafter : s.after acts = t.after behind := s.after_append _ _
  have hrefused : (s.after acts).cache.stats.result = .error (.refused .closed) := by
    rw [hafter, cache_after]
    exact Cache.refused_stats (Cache.resident_after_of_closed hnone hflag _)
  have hshutdown := (s.after acts).closeAndJoin_of_closed hrefused
  -- a reporter that had not started before the close had nothing to report
  have hswap : dueReports interval s.clock s.cache before ++ second =
      second ++ dueReports interval s.clock s.cache before := by
    rcases hearly with hstarted | hnothing
    · have hsecond : second = [] := hsecond.elim id (·.trans hstarted)
      rw [hsecond, List.append_nil, List.nil_append]
    · rw [hnothing, List.append_nil, List.nil_append]
  have hstart : first ++ second = [] ∨ first ++ second = [⟨0, .reporterStarted interval⟩] := by
    rcases hsecond with hsecond | hsecond
    · rw [hsecond, List.append_nil]
      exact (List.append_eq_singleton_iff.1 hfirst).imp And.left And.left
    · rw [hsecond]
      exact .inr hfirst
  refine ⟨⟨first ++ second, hstart, ?_⟩, by rw [hshutdown], by rw [hshutdown]⟩
  apply reported_of_run hi (fun a ha => (hquiet a ha).2) hreadable
  rw [log, hshutdown, List.append_nil, hemitted, hevents, hrest, hclock]
  simp only [List.append_assoc]
  rw [← List.append_assoc _ second, hswap, List.append_assoc]
  rfl

end Reporting

/-- A reporter on a new cache, from its start at time zero. If nobody aborts it or closes the cache,
the shutdown waits for its next tick and answers with the number of its reports, which is counted in
a word. An abort ends the reports, and the shutdown counts none of them. After a close the reporter
ends with its next tick, unless it is aborted before, and the shutdown refuses to close again. -/
theorem run_reports (capacity : UInt64) (interval : Nat) (acts : List Action) (hc : 0 < capacity)
    (hi : 0 < interval) (hlookups : (operations acts).countP Operation.looksUp < wordLimit) :
    ∃ start, Cache.create .oldestFirst capacity = .ok start ∧
      let s : Supervised .oldestFirst :=
        { cache := start.cache, task := { job := .report interval } }
      let shutdown := (s.after acts).closeAndJoin
      let started : Timed := ⟨0, .reporterStarted interval⟩
      let Reports := Reported start.cache interval acts (s.log acts)
      ((∀ a ∈ acts, a ≠ .abort ∧ a ≠ .perform .close) →
        Reports [started] (duration acts) [exiting interval (duration acts)] ∧
          ∃ stats reports, (start.cache.after (operations acts)).stats.result = .ok stats ∧
            shutdown.result = .ok (stats, reports) ∧
            reports = UInt64.ofNat (duration acts / interval) ∧
            (duration acts / interval < wordLimit → reports.toNat = duration acts / interval)) ∧
      (∀ before behind, acts = before ++ .abort :: behind → (∀ a ∈ before, a ≠ .abort) →
        (∀ a ∈ acts, a ≠ .perform .close) →
        (∃ first, (first = [] ∨ first = [started]) ∧
          Reports first (duration before) [⟨duration acts, .reporterLost⟩]) ∧
          shutdown.final.cache.closed = true ∧
          ∃ stats, (start.cache.after (operations acts)).stats.result = .ok stats ∧
            shutdown.result = .ok (stats, 0)) ∧
      ∀ before behind, acts = before ++ .perform .close :: behind →
        (∀ a ∈ before, a ≠ .abort ∧ a ≠ .perform .close) →
        (∃ first, (first = [] ∨ first = [started]) ∧
          Reports first (duration before)
            (if (duration before / interval + 1) * interval ≤
                duration before + duration (behind.takeWhile (· ≠ .abort)) then
              [exiting interval (duration before)] else [])) ∧
          shutdown.result = .error (.refused .closed) ∧ shutdown.final = s.after acts := by
  refine ⟨_, Cache.create_eq hc {}, fun hquiet => ?_, fun before behind hacts habort hclose => ?_,
    fun before behind hacts hquiet => ?_⟩
  · obtain ⟨hreports, stats, hstats, hresult⟩ := reports_of_quiet hi hlookups hquiet
    exact ⟨hreports, stats, _, hstats, hresult, rfl, UInt64.toNat_ofNat_of_lt'⟩
  · subst hacts
    exact reports_of_abort hi hlookups habort hclose
  · subst hacts
    exact reports_of_close hi hlookups hquiet

/-- Thirty-five milliseconds with a report every ten of them; then with an abort after twenty-five,
and with a close. -/
theorem run_reports_of_ten :
    let quiet : List Action :=
      [.perform (.put ⟨1, 1⟩ #[7]), .sleep 25, .perform (.get ⟨1, 1⟩), .sleep 10]
    let aborted : List Action := [.sleep 25, .abort, .sleep 10]
    let closed : List Action := [.sleep 25, .perform .close, .sleep 10]
    ∃ start, Cache.create .oldestFirst 8 = .ok start ∧
      let s : Supervised .oldestFirst := { cache := start.cache, task := { job := .report 10 } }
      (Reported s.cache 10 quiet (s.log quiet) [⟨0, .reporterStarted 10⟩] 35
          [⟨40, .reporterExiting 3⟩] ∧
        ∃ stats reports, (s.after quiet).closeAndJoin.result = .ok (stats, reports) ∧
          reports.toNat = 3) ∧
      (∃ stats, (s.after aborted).closeAndJoin.result = .ok (stats, 0)) ∧
      (∃ first, Reported s.cache 10 closed (s.log closed) first 25 [⟨30, .reporterExiting 2⟩]) ∧
      (s.after closed).closeAndJoin.result = .error (.refused .closed) := by
  intro quiet aborted closed
  have hduration : duration quiet = 35 := by decide
  have hlast : exiting 10 35 = ⟨40, .reporterExiting 3⟩ := by decide
  obtain ⟨start, hstart, hquiet, -, -⟩ := run_reports 8 10 quiet (by decide) (by decide) (by decide)
  obtain ⟨_, hsame, -, haborted, -⟩ := run_reports 8 10 aborted (by decide) (by decide) (by decide)
  cases hstart.symm.trans hsame
  obtain ⟨_, hsame, -, -, hclosed⟩ := run_reports 8 10 closed (by decide) (by decide) (by decide)
  cases hstart.symm.trans hsame
  obtain ⟨hreports, stats, reports, -, hresult, -, hcount⟩ := hquiet (by decide)
  rw [hduration, hlast] at hreports
  rw [hduration] at hcount
  obtain ⟨-, -, stats', -, hzero⟩ := haborted [.sleep 25] [.sleep 10] rfl (by decide) (by decide)
  obtain ⟨⟨first, -, hend⟩, hrefused, -⟩ := hclosed [.sleep 25] [.sleep 10] rfl (by decide)
  exact ⟨start, hstart, ⟨hreports, stats, reports, hresult, hcount (by decide)⟩,
    ⟨stats', hzero⟩, ⟨first, hend⟩, hrefused⟩

end Supervised

end LedgerCache
