import LedgerCache.Nomination

namespace LedgerCache

namespace AdmissionOrder

/-- What can be asked of an order. -/
inductive Request where
  | push (key : Key)
  | forget (stamp : Nat)
  | clear
  deriving DecidableEq, Repr

/-- Meets the requests one after another, and gives the stamps that the pushes got. -/
def run (o : AdmissionOrder) : List Request → Except Fault (List Nat × AdmissionOrder)
  | [] => .ok ([], o)
  | .push k :: requests =>
    match o.push k with
    | .error f => .error f
    | .ok (stamp, o) => (o.run requests).map fun (stamps, o) => (stamp :: stamps, o)
  | .forget stamp :: requests => (o.forget stamp).run requests
  | .clear :: requests => o.clear.run requests

namespace Request

def pushes : List Request → Nat
  | [] => 0
  | .push _ :: requests => pushes requests + 1
  | .forget _ :: requests => pushes requests
  | .clear :: requests => pushes requests

/-- Whether a key that is tracked under this stamp leaves. -/
def drops (stamp : Nat) : Request → Bool
  | .push _ => false
  | .forget stamp' => stamp' = stamp
  | .clear => true

/-- The pushes, numbered from `n` on, without those that a later request drops. -/
def standing (n : Nat) : List Request → List (Nat × Key)
  | [] => []
  | .push k :: requests =>
    if requests.any (drops n) then standing (n + 1) requests
    else (n, k) :: standing (n + 1) requests
  | .forget _ :: requests => standing n requests
  | .clear :: requests => standing n requests

theorem pushes_append (requests more : List Request) :
    pushes (requests ++ more) = pushes requests + pushes more := by
  induction requests with
  | nil => exact (Nat.zero_add _).symm
  | cons r requests ih =>
    cases r with
    | push k => rw [List.cons_append, pushes, pushes, ih, Nat.add_right_comm]
    | forget stamp => exact ih
    | clear => exact ih

theorem standing_append (n : Nat) (requests more : List Request) :
    standing n (requests ++ more) =
      ((standing n requests).filter fun x => !more.any (drops x.1)) ++
        standing (n + pushes requests) more := by
  induction requests generalizing n with
  | nil => rfl
  | cons r requests ih =>
    cases r with
    | forget stamp => exact ih n
    | clear => exact ih n
    | push k =>
      rw [List.cons_append, standing, standing, pushes, ih, List.any_append, Nat.add_comm (pushes _),
        ← Nat.add_assoc]
      by_cases hold : requests.any (drops n)
      · simp [hold]
      · by_cases hnew : more.any (drops n)
        · simp [hold, hnew]
        · simp [hold, hnew]

/-- Only what stands can be dropped. -/
theorem standing_forget {n stamp : Nat} {before : List Request}
    (h : stamp ∉ (standing n before).map (·.1)) (behind : List Request) :
    standing n (before ++ .forget stamp :: behind) = standing n (before ++ behind) := by
  rw [standing_append, standing_append]
  congr 1
  apply List.filter_congr
  intro x hx
  have hne : stamp ≠ x.1 := by
    rintro rfl
    exact h (List.mem_map_of_mem hx)
  simp [drops, hne]

end Request

open Request

/-- The order tracks these keys under these stamps, and `n` is the next one. -/
structure Tracks (o : AdmissionOrder) (n : Nat) (log : List (Nat × Key)) : Prop where
  next : o.next = n
  live : o.live.toList = log
  below : ∀ x ∈ log, x.1 < n

namespace Tracks

variable {o : AdmissionOrder} {n : Nat} {log : List (Nat × Key)}

theorem empty : Tracks {} 0 [] := ⟨rfl, rfl, by simp⟩

theorem push (h : o.Tracks n log) (hn : n + 1 < wordLimit) (k : Key) :
    ∃ o', o.push k = .ok (n, o') ∧ o'.Tracks (n + 1) (log ++ [(n, k)]) := by
  obtain ⟨rfl, rfl, hbelow⟩ := h
  rw [AdmissionOrder.push, checkedAdd_eq_ok _ _ hn]
  refine ⟨_, rfl, rfl, ?_, ?_⟩
  · apply toList_eq
    · rw [List.pairwise_append]
      refine ⟨pairwise_toList _, List.pairwise_singleton _ _, fun x hx y hy => ?_⟩
      rw [List.mem_singleton.1 hy]
      exact hbelow x hx
    · intro stamp k'
      have hold := hbelow (stamp, k')
      rw [Std.TreeMap.mem_toList_iff_getElem?_eq_some] at hold
      rw [List.mem_append, Std.TreeMap.mem_toList_iff_getElem?_eq_some, List.mem_singleton,
        Std.TreeMap.getElem?_insert]
      grind
  · intro x hx
    rcases List.mem_append.1 hx with hx | hx
    · exact Nat.lt_succ_of_lt (hbelow x hx)
    · rw [List.mem_singleton.1 hx]
      exact Nat.lt_succ_self _

theorem forget (h : o.Tracks n log) (stamp : Nat) :
    (o.forget stamp).Tracks n (log.filter fun x => x.1 ≠ stamp) where
  next := h.next
  live := by rw [← h.live, AdmissionOrder.forget, toList_erase]
  below x hx := h.below x (List.mem_filter.1 hx).1

theorem clear (h : o.Tracks n log) : o.clear.Tracks n [] where
  next := h.next
  live := rfl
  below := by simp

/-- What was tracked stays unless a request drops it, and behind it stand the new pushes. -/
theorem run (h : o.Tracks n log) {requests : List Request}
    (hn : n + pushes requests < wordLimit) :
    ∃ o', o.run requests = .ok (List.range' n (pushes requests), o') ∧
      o'.Tracks (n + pushes requests)
        ((log.filter fun x => !requests.any (drops x.1)) ++ standing n requests) := by
  induction requests generalizing o n log with
  | nil =>
    have hall : (log.filter fun x => !([] : List Request).any (drops x.1)) = log :=
      List.filter_eq_self.2 fun _ _ => rfl
    exact ⟨o, rfl, by rwa [hall, standing, List.append_nil]⟩
  | cons r requests ih =>
    cases r with
    | push k =>
      rw [pushes, Nat.add_comm (pushes _), ← Nat.add_assoc] at hn
      obtain ⟨o₁, hpush, h₁⟩ := h.push (by omega) k
      obtain ⟨o', hrun, h'⟩ := ih h₁ hn
      refine ⟨o', ?_, ?_⟩
      · simp only [AdmissionOrder.run, hpush, hrun]
        rfl
      · rw [pushes, Nat.add_comm (pushes _), ← Nat.add_assoc, standing]
        rw [List.filter_append, List.append_assoc] at h'
        by_cases hdrops : requests.any (drops n)
        · simpa [hdrops, drops] using h'
        · simpa [hdrops, drops] using h'
    | forget stamp =>
      obtain ⟨o', hrun, h'⟩ := ih (h.forget stamp) hn
      refine ⟨o', hrun, ?_⟩
      rw [List.filter_filter] at h'
      have hfilter : (log.filter fun x => !(Request.forget stamp :: requests).any (drops x.1)) =
          log.filter fun x => !requests.any (drops x.1) && decide (x.1 ≠ stamp) := by
        apply List.filter_congr
        intro x _
        rw [List.any_cons, drops, Bool.not_or, Bool.and_comm, ← decide_not]
        simp only [ne_comm]
      rw [hfilter]
      exact h'
    | clear =>
      obtain ⟨o', hrun, h'⟩ := ih h.clear hn
      refine ⟨o', hrun, ?_⟩
      have hfilter : (log.filter fun x => !(Request.clear :: requests).any (drops x.1)) = [] :=
        List.filter_eq_nil_iff.2 fun _ _ => by simp [drops]
      rw [hfilter]
      exact h'

theorem toList_oldestFirst (h : o.Tracks n log) :
    (Nomination.oldestFirst o).toList = log.map (·.2) := by
  rw [Nomination.oldestFirst, toList_nominees, keys, listed_eq, h.live]

theorem size_eq (h : o.Tracks n log) : o.size = log.length := by
  rw [size, ← Std.TreeMap.length_toList, h.live]

theorem isEmpty_iff (h : o.Tracks n log) : o.isEmpty = true ↔ log = [] := by
  rw [isEmpty, h.size_eq, beq_iff_eq, List.length_eq_zero_iff]

end Tracks

/-- A new order answers as the log of its requests does, as long as there are stamps. A stamp that
does not stand may be forgotten anywhere, even if it is given to a key later. -/
theorem run_logs (requests : List Request) (h : pushes requests < wordLimit) :
    ∃ o, run {} requests = .ok (List.range (pushes requests), o) ∧
      (Nomination.oldestFirst o).toList = (standing 0 requests).map (·.2) ∧
      o.size = (standing 0 requests).length ∧ (o.isEmpty = true ↔ standing 0 requests = []) ∧
      ∀ before stamp behind, requests = before ++ behind →
        stamp ∉ (standing 0 before).map (·.1) →
          ∃ o', run {} (before ++ .forget stamp :: behind) =
              .ok (List.range (pushes requests), o') ∧
            o'.live.toList = o.live.toList ∧ o'.next = o.next := by
  have hnew (requests : List Request) (h : pushes requests < wordLimit) :
      ∃ o, run {} requests = .ok (List.range (pushes requests), o) ∧
        o.Tracks (pushes requests) (standing 0 requests) := by
    rw [← Nat.zero_add (pushes requests)] at h
    obtain ⟨o, hrun, ho⟩ := Tracks.empty.run h
    rw [Nat.zero_add] at ho
    exact ⟨o, by rw [hrun, List.range_eq_range'], ho⟩
  obtain ⟨o, hrun, ho⟩ := hnew requests h
  refine ⟨o, hrun, ho.toList_oldestFirst, ho.size_eq, ho.isEmpty_iff, ?_⟩
  rintro before stamp behind rfl hstamp
  have hpushes : pushes (before ++ .forget stamp :: behind) = pushes (before ++ behind) := by
    rw [pushes_append, pushes_append, pushes]
  obtain ⟨o', hrun', ho'⟩ := hnew (before ++ .forget stamp :: behind) (hpushes ▸ h)
  rw [hpushes] at hrun' ho'
  rw [standing_forget hstamp] at ho'
  exact ⟨o', hrun', ho'.live.trans ho.live.symm, ho'.next.trans ho.next.symm⟩

/-- Stamp 1 is forgotten before it is given out and stamp 4 twice, and one key is tracked twice. -/
theorem run_logs_of_early :
    let before : List Request := [.push ⟨9, 9⟩, .clear]
    let behind : List Request := [.push ⟨1, 0⟩, .push ⟨1, 0⟩, .forget 0, .push ⟨2, 0⟩,
      .push ⟨3, 0⟩, .forget 4, .forget 4]
    let keys : List Key := [⟨1, 0⟩, ⟨1, 0⟩, ⟨2, 0⟩]
    pushes (before ++ behind) < wordLimit ∧ 1 ∉ (standing 0 before).map (·.1) ∧
      ∃ o o', run {} (before ++ behind) = .ok ([0, 1, 2, 3, 4], o) ∧
        (Nomination.oldestFirst o).toList = keys ∧ o.size = 3 ∧
        run {} (before ++ .forget 1 :: behind) = .ok ([0, 1, 2, 3, 4], o') ∧
        o'.live.toList = o.live.toList := by
  intro before behind keys
  have hbound : pushes (before ++ behind) < wordLimit := by decide
  have hstamp : 1 ∉ (standing 0 before).map (·.1) := by decide
  obtain ⟨o, hrun, hkeys, hsize, -, hforget⟩ := run_logs (before ++ behind) hbound
  obtain ⟨o', hrun', hlive, -⟩ := hforget before 1 behind rfl hstamp
  exact ⟨hbound, hstamp, o, o', hrun, hkeys, hsize, hrun', hlive⟩

end AdmissionOrder

end LedgerCache
