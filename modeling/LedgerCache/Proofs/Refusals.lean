import LedgerCache.Proofs.Runs

namespace LedgerCache

open Std

/-- The operation answers with the refusal `e`. -/
def Step.Refuses {nominate : Nomination} {α : Type} (s : Step nominate α) (e : Error) : Prop :=
  s.result = .error (.refused e)

namespace Cache

variable {nominate : Nomination}

/-- When a put is refused, with which answer and what comes of it. Each cause counts only if none of
those before it applies; the last one is that the nominees give up too little. -/
structure RefusesInOrder (c : Cache nominate) (key : Key) (payload : Payload) : Prop where
  closed : (c.put key payload).Refuses .closed ↔ c.closed = true
  negativeOwner : c.closed = false →
    ((c.put key payload).Refuses (.negativeOwner key) ↔ key.owner < 0)
  emptyPayload : c.closed = false → 0 ≤ key.owner →
    ((c.put key payload).Refuses .emptyPayload ↔ payload.size = 0)
  oversizedPayload : c.closed = false → 0 ≤ key.owner → 0 < payload.size →
    ((c.put key payload).Refuses (.oversizedPayload payload.size c.capacity.toNat) ↔
      c.capacity.toNat < payload.size)
  noRoom : c.closed = false → 0 ≤ key.owner → 0 < payload.size →
    payload.size ≤ c.capacity.toNat → ∃ r, c.resident = some r ∧
      ((c.put key payload).Refuses (.noRoom payload.size (c.capacity.toNat - r.budget.used)) ↔
        r.room key (r.candidates nominate key) < payload.size)
  causes : ∀ e, (c.put key payload).Refuses e →
    e = .closed ∨ e = .negativeOwner key ∨ e = .emptyPayload ∨
      e = .oversizedPayload payload.size c.capacity.toNat ∨
      ∃ r, c.resident = some r ∧ e = .noRoom payload.size (c.capacity.toNat - r.budget.used)
  silent : c.closed = true → (c.put key payload).cache = c ∧ (c.put key payload).events = [] ∧
    (c.put key payload).calls = []
  counted : ∀ e, (c.put key payload).Refuses e → e ≠ .closed →
    (c.put key payload).cache =
        { c with counters := { c.counters with rejections := c.counters.rejections + 1 } } ∧
      (c.put key payload).events = [.putRejected key e] ∧ (c.put key payload).calls = []

/-- What an open cache objects to before it looks at what is resident. -/
theorem objection_eq_some_iff {c : Cache nominate} (hopen : c.closed = false) {key : Key}
    {size : Nat} {e : Error} :
    c.objection key size = some e ↔
      key.owner < 0 ∧ e = .negativeOwner key ∨
      0 ≤ key.owner ∧ size = 0 ∧ e = .emptyPayload ∨
      0 ≤ key.owner ∧ 0 < size ∧ c.capacity.toNat < size ∧
        e = .oversizedPayload size c.capacity.toNat := by
  rw [objection, hopen, if_neg Bool.false_ne_true]
  by_cases howner : key.owner < 0
  · have hnot := Int64.not_le.2 howner
    simp [howner, hnot, eq_comm]
  have hle := Int64.not_lt.1 howner
  rcases Nat.eq_zero_or_pos size with rfl | hsize
  · simp [howner, hle, eq_comm]
  · simp [howner, hle, hsize, hsize.ne', eq_comm]

namespace Holds

variable {c : Cache nominate} {r : Resident} {key : Key} {payload : Payload} {e : Error}

/-- The two stages in which an open cache refuses a put. -/
theorem refuses_iff (h : c.Holds r) :
    (c.put key payload).Refuses e ↔ c.objection key payload.size = some e ∨
      c.objection key payload.size = none ∧
        r.room key (r.candidates nominate key) < payload.size ∧
        e = .noRoom payload.size (c.capacity.toNat - r.budget.used) := by
  have havailable : r.budget.available = c.capacity.toNat - r.budget.used := by
    rw [Budget.available, h.capacity]
  cases hv : c.objection key payload.size with
  | some e' =>
    rw [Step.Refuses, put_of_objection h.not_closed hv]
    simp [reject]
  | none =>
    rw [← Resident.chosen_eq_none_iff, ← havailable]
    rcases h.put_cases hv with
      ⟨hfull, hput⟩ | ⟨victims, hchosen, ⟨-, -, -, hput⟩ | ⟨-, f, hput⟩⟩
    · rw [Step.Refuses, hput]
      simp [reject, hfull, eq_comm]
    · rw [Step.Refuses, hput]
      simp [admission, hchosen]
    · rw [Step.Refuses, hput]
      simp [hchosen]

theorem put_of_refuses (h : c.Holds r) (he : (c.put key payload).Refuses e) :
    c.put key payload = c.reject key e := by
  rcases h.refuses_iff.1 he with hv | ⟨hv, hshort, rfl⟩
  · exact put_of_objection h.not_closed hv
  · have hnone := Resident.chosen_eq_none_iff.2 hshort
    rw [h.put_of_chosen_none hv hnone, Budget.available, h.capacity]

theorem refusesInOrder (h : c.Holds r) (key : Key) (payload : Payload) :
    c.RefusesInOrder key payload := by
  have hopen := h.not_closed
  constructor
  case closed =>
    rw [h.refuses_iff, objection_eq_some_iff hopen, hopen]
    simp
  case negativeOwner =>
    intro _
    rw [h.refuses_iff, objection_eq_some_iff hopen]
    simp
  case emptyPayload =>
    intro _ howner
    rw [h.refuses_iff, objection_eq_some_iff hopen]
    simp [howner]
  case oversizedPayload =>
    intro _ howner hsize
    rw [h.refuses_iff, objection_eq_some_iff hopen]
    simp [howner, hsize]
  case noRoom =>
    intro _ howner hsize hle
    have hv := (h.objection_eq_none_iff key payload.size).2 ⟨howner, hsize, by rwa [h.capacity]⟩
    refine ⟨r, h.resident, ?_⟩
    rw [h.refuses_iff, hv]
    simp
  case causes =>
    intro e he
    rcases h.refuses_iff.1 he with hv | ⟨-, -, rfl⟩
    · rcases (objection_eq_some_iff hopen).1 hv with
        ⟨-, rfl⟩ | ⟨-, -, rfl⟩ | ⟨-, -, -, rfl⟩ <;> simp
    · simp [h.resident]
  case silent =>
    intro hclosed
    rw [hopen] at hclosed
    cases hclosed
  case counted =>
    intro e he _
    rw [h.put_of_refuses he]
    exact ⟨rfl, rfl, rfl⟩

theorem not_refuses_noRoom {c : Cache .oldestFirst} (h : c.Holds r) (size available : Nat) :
    ¬(c.put key payload).Refuses (.noRoom size available) := by
  intro he
  rcases h.refuses_iff.1 he with hv | ⟨hv, hshort, -⟩
  · rw [objection_eq_some_iff h.not_closed] at hv
    simp at hv
  · have hsize := ((h.objection_eq_none_iff _ _).1 hv).2.2
    have hnone := Resident.chosen_eq_none_iff.2 hshort
    rw [h.sound.chosen_oldestFirst key payload.size hsize] at hnone
    cases hnone

end Holds

theorem Sound.refusesInOrder {c : Cache nominate} (hs : c.Sound) (key : Key) (payload : Payload) :
    c.RefusesInOrder key payload := by
  rcases hs with ⟨-, hc⟩ | ⟨r, h⟩
  · have hput : c.put key payload = c.refuseClosed := put_of_closed hc key payload
    have hrefuses (e : Error) : (c.put key payload).Refuses e ↔ e = .closed := by
      rw [Step.Refuses, hput]
      simp [refuseClosed, eq_comm]
    constructor
    case closed => simp [hrefuses, hc]
    case silent =>
      intro _
      rw [hput]
      exact ⟨rfl, rfl, rfl⟩
    case causes => exact fun e he => .inl ((hrefuses e).1 he)
    case counted => exact fun e he hne => absurd ((hrefuses e).1 he) hne
    all_goals simp [hc]
  · exact h.refusesInOrder key payload

/-- Under any policy, after any run in which nothing failed, a put is refused for the first cause
that applies, and only counted and reported. First in, first out there is always room. -/
theorem run_put_refuses (capacity : UInt64) (order : AdmissionOrder) (ops : List Operation)
    (key : Key) (payload : Payload) (hc : 0 < capacity) :
    (∀ nominate, ∃ start, create nominate capacity order = .ok start ∧
      ((∀ s ∈ start.cache.run ops, s.Clean) →
        (start.cache.after ops).RefusesInOrder key payload)) ∧
    ∃ start, create .oldestFirst capacity order = .ok start ∧
      ((∀ s ∈ start.cache.run ops, s.Clean) →
        ∀ size available,
          ¬((start.cache.after ops).put key payload).Refuses (.noRoom size available)) := by
  constructor
  · intro nominate
    refine ⟨_, create_eq hc order, fun hclean => ?_⟩
    exact ((sound_opened capacity order).after hclean).refusesInOrder key payload
  · refine ⟨_, create_eq hc order, fun hclean size available => ?_⟩
    rcases (sound_opened capacity order).after hclean with ⟨-, hclosed⟩ | ⟨r, h⟩
    · rw [Step.Refuses, put_of_closed hclosed]
      simp [refuseClosed]
    · exact h.not_refuses_noRoom size available

/-- Nobody may be evicted: the entry under the key stays, and its bytes are not said to be free. -/
theorem run_put_refuses_of_nobody :
    let ops : List Operation := [.put ⟨1, 0⟩ #[7, 7], .put ⟨1, 1⟩ #[8, 8, 8]]
    let c := (opened .nobody 6).after ops
    let d := (opened .oldestFirst 6).after ops
    (0 : UInt64) < 6 ∧ (∀ s ∈ (opened .nobody 6).run ops, s.Clean) ∧
      (∀ s ∈ (opened .oldestFirst 6).run ops, s.Clean) ∧
      (c.put ⟨1, 0⟩ #[9, 9, 9, 9]).Refuses (.noRoom 4 1) ∧
      (c.put ⟨1, 0⟩ #[9, 9, 9, 9]).events = [.putRejected ⟨1, 0⟩ (.noRoom 4 1)] ∧
      ¬(d.put ⟨1, 0⟩ #[9, 9, 9, 9]).Refuses (.noRoom 4 1) := by
  intro ops c d
  have hclean : ∀ s ∈ (opened .nobody 6).run ops, s.Clean := by decide +kernel
  have hclean' : ∀ s ∈ (opened .oldestFirst 6).run ops, s.Clean := by decide +kernel
  have hresult : (c.put ⟨1, 0⟩ #[9, 9, 9, 9]).result = .error (.refused (.noRoom 4 1)) := by
    decide +kernel
  obtain ⟨hany, start', hstart', hroom⟩ :=
    run_put_refuses 6 {} ops ⟨1, 0⟩ #[9, 9, 9, 9] (by decide)
  obtain ⟨start, hstart, hrun⟩ := hany .nobody
  rw [create_eq (by decide)] at hstart hstart'
  cases hstart
  cases hstart'
  have hcounted := (hrun hclean).counted (.noRoom 4 1) hresult (by simp)
  exact ⟨by decide, hclean, hclean', hresult, hcounted.2.1, hroom hclean' 4 1⟩

end Cache

end LedgerCache
