import LedgerCache.Proofs.Conservation
import LedgerCache.Proofs.Loads

namespace LedgerCache

/-- What a closed cache of this capacity answers. -/
def Operation.answerClosed (capacity : UInt64) : Operation → Except Failure Reply
  | .capacity => .ok (.number capacity.toNat)
  | .isClosed => .ok (.flag true)
  | _ => .error (.refused .closed)

/-- Whether the move is a close that succeeded. -/
def Move.closes {nominate : Nomination} (m : Move nominate) : Bool :=
  m.op = .close ∧ m.step.result = .ok .done

namespace Cache

variable {nominate : Nomination} {c : Cache nominate}

/-- Which operation it is makes no difference but for the two that need no resident set. -/
theorem perform_eq_of_closed (hr : c.resident = none) (hc : c.closed = true) (op : Operation) :
    c.perform op = ⟨op.answerClosed c.capacity, c, [], []⟩ := by
  have hquery {α : Type} (f : Resident → α) : c.query f = c.refuseClosed := by
    simp only [query, hr]
  cases op with
  | put key payload => exact perform_of_closed hr hc rfl
  | close => exact perform_of_closed hr hc rfl
  | get key => exact congrArg (Step.map Reply.view) (get_of_closed hr key)
  | has key => exact congrArg (Step.map Reply.flag) (hquery _)
  | count => exact congrArg (Step.map Reply.number) (hquery _)
  | size => exact congrArg (Step.map Reply.number) (hquery _)
  | stats => exact congrArg (Step.map Reply.stats) (hquery _)
  | capacity => rfl
  | isClosed =>
    rw [perform, hc]
    rfl

/-- Nothing that a closed cache answers depends on what it was asked before. -/
theorem run_eq_of_closed (hr : c.resident = none) (hc : c.closed = true) (ops : List Operation) :
    c.run ops = ops.map fun op => ⟨op.answerClosed c.capacity, c, [], []⟩ := by
  induction ops with
  | nil => rfl
  | cons op ops ih =>
    rw [run, perform_eq_of_closed hr hc, List.map_cons]
    exact congrArg _ ih

/-- An operation sets the flag exactly if it is a close that succeeds, which finds it not set. -/
theorem Sound.closed_perform (hs : c.Sound) {op : Operation} (hclean : (c.perform op).Clean) :
    (c.perform op).cache.closed.toNat =
      c.closed.toNat + (⟨c, op⟩ : Move nominate).closes.toNat := by
  cases hs.performed hclean with
  | read hop =>
    have hother : op ≠ .close := by
      rintro rfl
      cases hop
    simp [(c.silent_perform hop).keeps.closed, Move.closes, hother]
  | barred _ _ _ hstep => simp [Move.closes, Move.step, hstep]
  | rejected _ _ hstep => simp [Move.closes, hstep, reject]
  | stored _ _ _ _ _ _ hstep => simp [Move.closes, hstep, admission]
  | closed h hstep => simp [Move.closes, Move.step, hstep, h.not_closed]

/-- The flag counts the closes of a run that succeed. -/
theorem Ready.closed_after {capacity : UInt64} {ops : List Operation} (h : Ready capacity c ops)
    (hn : nominate.NamesOnce) :
    (c.after ops).closed.toNat = c.closed.toNat + (c.moves ops).countP Move.closes := by
  induction ops generalizing c with
  | nil => rfl
  | cons op ops ih =>
    have hclean := h.sound.clean_perform hn h.bounded
    have hfirst := h.sound.closed_perform hclean
    have hrest := ih (h.perform hclean)
    rw [moves, List.countP_cons]
    change ((c.perform op).cache.after ops).closed.toNat = _
    rw [hrest, hfirst]
    cases (⟨c, op⟩ : Move nominate).closes
    · simp
    · simp
      omega

theorem Sound.closed_iff (hs : c.Sound) : c.closed = true ↔ c.resident = none := by
  refine ⟨fun hc => ?_, hs.closed_of_none⟩
  rcases hs with ⟨hr, -⟩ | ⟨r, h⟩
  · exact hr
  · rw [h.not_closed] at hc
    cases hc

end Cache

namespace Worker

variable {nominate : Nomination} {c : Cache nominate} {w : Worker}

theorem events_step_of_closed (hc : c.closed = true) {n : Nat} (hp : w.progress = .writing n)
    (hmade : w.size ≤ Payload.longest) :
    (w.step c).events = #[.workerStopping (w.key n)] ∧ (w.step c).calls = #[] := by
  simp [step, hp, write, Payload.generate_eq_ok _ _ hmade, Cache.put_of_closed hc,
    Cache.refuseClosed]

/-- A worker that has nothing to write, or whose first put is refused, has nothing to report. -/
theorem run_of_closed (hr : c.resident = none) (hc : c.closed = true) (owner : Int64)
    {entries size : Nat} (hmade : entries = 0 ∨ size ≤ Payload.longest) :
    (start owner entries size).run c =
      { worker := { owner, entries, size, progress := .stopped }, cache := c,
        events := if entries = 0 then #[] else #[.workerStopping ⟨owner, 0⟩] } := by
  rcases Nat.eq_zero_or_pos entries with rfl | hpos
  · rfl
  have hsize := hmade.resolve_left hpos.ne'
  rw [start_eq hpos, if_neg hpos.ne']
  set w : Worker := { owner, entries, size, progress := .writing 0 } with hw
  obtain ⟨hworker, hcache⟩ := step_closed (w := w) hr hc rfl hsize
  obtain ⟨hevents, hcalls⟩ := events_step_of_closed (w := w) hc rfl hsize
  rw [run_of_done hpos rfl (by rw [hworker]; rfl)]
  rcases hstep : w.step c with ⟨worker, cache, events, calls⟩
  rw [hstep] at hworker hcache hevents hcalls
  dsimp only at hworker hcache hevents hcalls
  rw [hworker, hcache, hevents, hcalls]
  rfl

end Worker

namespace Cache

/-- Under a policy that names no tracked key twice, one close of a run succeeds at most. Until then
the flag is not set and something is held; from then on operations are refused, but for the two that
need no resident set, and change, emit and call nothing, whatever their arguments are. A worker ends
with an empty report, unless it fails to make its payload. -/
theorem run_closes_once (nominate : Nomination) (capacity : UInt64) (order : AdmissionOrder)
    (ops : List Operation) (hc : 0 < capacity) (hn : nominate.NamesOnce) :
    ∃ start, create nominate capacity order = .ok start ∧
      (order.next + start.cache.admissions ops < wordLimit →
        let c := start.cache.after ops
        let closes := (start.cache.moves ops).countP Move.closes
        closes ≤ 1 ∧ (c.perform .isClosed).result = .ok (.flag (0 < closes)) ∧
          (c.resident = none ↔ 0 < closes) ∧
          (0 < closes →
            (∀ more, c.run more = more.map fun op => ⟨op.answerClosed capacity, c, [], []⟩) ∧
            ∀ (owner : Int64) (entries : UInt64) (size : Nat),
              let t := (Worker.start owner (signedCount entries) size).run c
              t.cache = c ∧ t.calls = #[] ∧
                (signedCount entries = 0 → t.worker.result = some (.ok {}) ∧ t.events = #[]) ∧
                (0 < signedCount entries → size ≤ Payload.longest →
                  t.worker.result = some (.ok {}) ∧ t.events = #[.workerStopping ⟨owner, 0⟩]) ∧
                (0 < signedCount entries → Payload.longest < size →
                  t.worker.result = some (.error (.fault .payloadTooLong)) ∧ t.events = #[]))) := by
  refine ⟨_, create_eq hc order, fun hbound => ?_⟩
  intro c closes
  have hready := ready_opened_over nominate capacity order ops hbound
  have hend := (hready.run hn).2
  have hcount : c.closed.toNat = closes :=
    (hready.closed_after hn).trans (Nat.zero_add _)
  have hflag : c.closed = decide (0 < closes) := by
    rw [← hcount]
    cases c.closed <;> rfl
  have hcloses : 0 < closes ↔ c.closed = true := by rw [hflag, decide_eq_true_iff]
  refine ⟨hcount ▸ Bool.toNat_le _, ?_, ?_, fun hpos => ?_⟩
  · rw [perform, hflag]
  · rw [hcloses, hend.sound.closed_iff]
  have hclosed := hcloses.1 hpos
  have hr := hend.sound.closed_iff.1 hclosed
  have hcapacity : c.capacity = capacity := hend.capacity
  refine ⟨fun more => ?_, fun owner entries size => ?_⟩
  · rw [run_eq_of_closed hr hclosed, hcapacity]
  intro t
  rcases Nat.eq_zero_or_pos (signedCount entries) with hzero | hentries
  · have hrun : t = _ := Worker.run_of_closed hr hclosed owner (.inl hzero)
    rw [hrun, if_pos hzero]
    exact ⟨rfl, rfl, fun _ => ⟨rfl, rfl⟩, fun h => absurd hzero h.ne', fun h => absurd hzero h.ne'⟩
  rcases Nat.lt_or_ge Payload.longest size with hlong | hmade
  · have hrun : t = _ := Worker.run_eq_of_unmakeable hentries hlong
    rw [hrun]
    exact ⟨rfl, rfl, fun h => absurd h hentries.ne', fun _ h => absurd h (Nat.not_le.2 hlong),
      fun _ _ => ⟨rfl, rfl⟩⟩
  · have hrun : t = _ := Worker.run_of_closed hr hclosed owner (.inr hmade)
    rw [hrun, if_neg hentries.ne']
    exact ⟨rfl, rfl, fun h => absurd h hentries.ne', fun _ _ => ⟨rfl, rfl⟩,
      fun _ h => absurd h (Nat.not_lt.2 hmade)⟩

/-- Of two closes the first succeeds, and not even a put of nothing under a negative owner is told
anything else afterwards. -/
theorem run_closes_once_of_two :
    let ops : List Operation := [.put ⟨1, 0⟩ #[7], .close, .get ⟨1, 0⟩, .close]
    let c := opened .amongStrangers 4 { next := 5 }
    let closed := c.after ops
    (0 : UInt64) < 4 ∧ Nomination.amongStrangers.NamesOnce ∧ 5 + c.admissions ops < wordLimit ∧
      (c.moves ops).countP Move.closes = 1 ∧ closed.resident = none ∧
      closed.run [.put ⟨-1, 0⟩ #[], .close, .capacity] =
        [⟨.error (.refused .closed), closed, [], []⟩, ⟨.error (.refused .closed), closed, [], []⟩,
          ⟨.ok (.number 4), closed, [], []⟩] ∧
      ((Worker.start (-3) 10 16).run closed).worker.result = some (.ok {}) ∧
      ((Worker.start (-3) 10 16).run closed).events = #[.workerStopping ⟨-3, 0⟩] := by
  intro ops c closed
  have hbound : 5 + c.admissions ops < wordLimit := by decide +kernel
  have hcloses : (c.moves ops).countP Move.closes = 1 := by decide +kernel
  obtain ⟨start, hstart, hrun⟩ :=
    run_closes_once .amongStrangers 4 { next := 5 } ops (by decide)
      Nomination.namesOnce_amongStrangers
  rw [create_eq (by decide)] at hstart
  cases hstart
  obtain ⟨-, -, hresident, hafter⟩ := hrun hbound
  have hpos : 0 < (c.moves ops).countP Move.closes := by omega
  obtain ⟨hmore, hworker⟩ := hafter hpos
  obtain ⟨-, -, -, hstops, -⟩ := hworker (-3) 10 16
  exact ⟨by decide, Nomination.namesOnce_amongStrangers, hbound, hcloses, hresident.2 hpos,
    hmore _, hstops (by decide) (by decide)⟩

/-- A worker on a closed cache makes its payload before it is told that the cache is closed. -/
theorem run_closes_once_fails_of_unmakeable :
    let c := (opened .oldestFirst 1).after [.close]
    ((opened .oldestFirst 1).moves [.close]).countP Move.closes = 1 ∧ c.resident = none ∧
      ((Worker.start 1 (signedCount 1) 9223372036854775808).run c).worker.result =
        some (.error (.fault .payloadTooLong)) := by
  intro c
  exact ⟨by decide +kernel, rfl, (Worker.run_unmakeable (by decide) (by decide)).1⟩

end Cache

end LedgerCache
