import LedgerCache.Proofs.Queue
import LedgerCache.Proofs.Reads

namespace LedgerCache

open Std

/-- The keys of the puts that a step reports as rejected. -/
def Step.rejected {nominate : Nomination} {α : Type} (s : Step nominate α) : List Key :=
  s.events.filterMap fun
    | .putRejected key _ => some key
    | _ => none

namespace Move

variable {nominate : Nomination}

/-- Brings the keys and lengths that are held up to date: what is reported as evicted goes, then
the payload of a put that succeeded comes. -/
def replay (m : Move nominate) (held : TreeMap Key Nat) : TreeMap Key Nat :=
  let kept := m.step.evicted.foldl (fun held x => held.erase x.1) held
  match m.op, m.stored with
  | .put key _, some payload => kept.insert key payload.size
  | _, _ => kept

def replayAll (ms : List (Move nominate)) : TreeMap Key Nat :=
  ms.foldl (fun held m => m.replay held) ∅

theorem replayAll_concat (ms : List (Move nominate)) (m : Move nominate) :
    replayAll (ms ++ [m]) = m.replay (replayAll ms) := by
  rw [replayAll, List.foldl_append]
  rfl

/-- What is reported of a move is so, and reads report nothing. -/
structure Logged (m : Move nominate) : Prop where
  evicted : ∀ k bytes, .evicted k bytes ∈ m.step.events →
    ∃ key payload r e, m.op = .put key payload ∧ k ≠ key ∧ m.before.resident = some r ∧
      r.index[k]? = some e ∧ e.size = bytes
  reads : m.op.changes = false → m.step.events = []
  closed : m.op = .close → m.step.result = .ok .done →
    ∃ entries bytes, m.before.count.result = .ok entries ∧ m.before.size.result = .ok bytes ∧
      m.step.events = [.cacheClosed entries bytes]

end Move

theorem getElem?_foldl_erase (held : TreeMap Key Nat) (gone : List (Key × Nat)) (k : Key) :
    (gone.foldl (fun held x => held.erase x.1) held)[k]? =
      if k ∈ gone.map (·.1) then none else held[k]? := by
  induction gone generalizing held with
  | nil => simp
  | cons x gone ih =>
    rw [List.foldl_cons, ih, TreeMap.getElem?_erase, List.map_cons]
    simp only [LawfulEqCmp.compare_eq_iff_eq, List.mem_cons]
    grind

/-- Lengths that agree with a resident set do so again once the victims are out and the payload is
in. -/
theorem Resident.getElem?_insert_erase_leaving {r : Resident} {held : TreeMap Key Nat}
    (hheld : ∀ k : Key, held[k]? = r.index[k]?.map Entry.size) (key : Key) (payload : Payload)
    (victims : List Key) (k : Key) :
    (((((r.without key).leaving victims).map fun x => (x.1, x.2.size)).foldl
        (fun held x => held.erase x.1) held).insert key payload.size)[k]? =
      ((r.cleared key victims).stored key payload).index[k]?.map Entry.size := by
  have hleaving := ((r.without key).keys_leaving victims).2 k
  simp only [TreeMap.getElem?_insert, getElem?_foldl_erase, LawfulEqCmp.compare_eq_iff_eq,
    List.map_map, Function.comp_def, index_stored, index_cleared, hheld, hleaving]
  by_cases hk : k = key
  · simp [hk, Entry.size]
  · have hresident : k ∈ (r.without key).index ↔ r.index[k]?.isSome := by
      rw [TreeMap.mem_iff_isSome_getElem?, index_without, if_neg hk]
    by_cases hv : k ∈ victims
    · cases he : r.index[k]? <;> simp [hk, Ne.symm hk, hv, he, hresident]
    · simp [hk, Ne.symm hk, hv]

namespace Cache

variable {nominate : Nomination}

/-- The moves tell what the cache holds and how often it evicted and rejected. No entry is evicted
that was not put. -/
structure Recounted (c : Cache nominate) (ms : List (Move nominate)) : Prop where
  held : ∀ r, c.resident = some r →
    ∀ k : Key, (Move.replayAll ms)[k]? = r.index[k]?.map Entry.size
  evictions : c.counters.evictions = UInt64.ofNat (ms.flatMap (·.step.evicted)).length
  rejections : c.counters.rejections = UInt64.ofNat (ms.flatMap (·.step.rejected)).length
  bounded : (ms.flatMap (·.step.evicted)).length + (c.resident.map (·.index.size)).getD 0 ≤
    (ms.filterMap Move.stored).length

namespace Recounted

variable {c : Cache nominate} {ms : List (Move nominate)} {m : Move nominate}

theorem opened (capacity : UInt64) (order : AdmissionOrder) :
    (opened nominate capacity order).Recounted [] where
  held := by
    intro r hr k
    cases hr
    simp [Move.replayAll, Resident.empty]
  evictions := rfl
  rejections := rfl
  bounded := Nat.le_refl _

/-- A move that stores nothing and evicts nothing. -/
theorem concat_of_none (h : c.Recounted ms) (hstored : m.stored = none)
    (hevicted : m.step.evicted = [])
    (hresident : m.step.cache.resident = c.resident ∨ m.step.cache.resident = none)
    (hevictions : m.step.cache.counters.evictions = c.counters.evictions)
    (hrejections : m.step.cache.counters.rejections =
      c.counters.rejections + UInt64.ofNat m.step.rejected.length) :
    m.step.cache.Recounted (ms ++ [m]) := by
  have hreplay : Move.replayAll (ms ++ [m]) = Move.replayAll ms := by
    simp [Move.replayAll_concat, Move.replay, hstored, hevicted]
  have hcount : (ms ++ [m]).flatMap (·.step.evicted) = ms.flatMap (·.step.evicted) := by
    simp [hevicted]
  have hputs : (ms ++ [m]).filterMap Move.stored = ms.filterMap Move.stored := by
    simp [hstored]
  constructor
  case held =>
    intro r hr
    rw [hreplay]
    apply h.held r
    rcases hresident with hsame | hnone
    · rw [← hsame, hr]
    · rw [hnone] at hr
      cases hr
  case evictions => rw [hevictions, h.evictions, hcount]
  case rejections =>
    rw [hrejections, h.rejections, ← UInt64.ofNat_add, List.flatMap_append, List.flatMap_singleton,
      List.length_append]
  case bounded =>
    rw [hcount, hputs]
    rcases hresident with hsame | hnone
    · rw [hsame]
      exact h.bounded
    · rw [hnone]
      exact (Nat.le_add_right _ _).trans h.bounded

theorem concat_of_admission (h : c.Recounted ms) {r : Resident} (hr : c.resident = some r)
    {key : Key} {payload : Payload} {victims : List Key}
    (hc : r.chosen nominate key payload.size = some victims) (hn : victims.Nodup)
    (hstep : c.perform (.put key payload) =
      (c.admission r key payload victims).map fun _ => .done) :
    (c.perform (.put key payload)).cache.Recounted (ms ++ [⟨c, .put key payload⟩]) := by
  have hevicted : (⟨c, .put key payload⟩ : Move nominate).step.evicted =
      ((r.without key).leaving victims).map fun x => (x.1, x.2.size) := by
    rw [Move.step, hstep]
    simp [Step.evicted, admission, Resident.evictions]
  have hstored := Move.stored_of_admission hstep
  have hrejected : (⟨c, .put key payload⟩ : Move nominate).step.rejected = [] := by
    rw [Move.step, hstep]
    simp [Step.rejected, admission, Resident.evictions]
  constructor
  case held =>
    intro r' hr' k
    rw [hstep] at hr'
    cases hr'
    simp only [Move.replayAll_concat, Move.replay, hstored, hevicted]
    exact Resident.getElem?_insert_erase_leaving (h.held r hr) key payload victims k
  case evictions =>
    rw [hstep, List.flatMap_append, List.flatMap_singleton, hevicted, List.length_append,
      List.length_map, Resident.length_leaving_of_chosen hc hn, UInt64.ofNat_add, ← h.evictions]
    rfl
  case rejections =>
    rw [hstep, List.flatMap_append, List.flatMap_singleton, hrejected, List.append_nil,
      ← h.rejections]
    rfl
  case bounded =>
    have hbounded := h.bounded
    have hsize := r.size_admitted key payload victims
    simp only [hr, hstep, hevicted, hstored, admission, Step.cache_map, List.flatMap_append,
      List.flatMap_singleton, List.filterMap_append, filterMap_singleton, List.length_append,
      List.length_map, Option.map_some, Option.getD_some, Option.toList_some,
      List.length_singleton] at hbounded ⊢
    omega

/-- What one move that does not fail adds to the account. -/
theorem concat (h : m.before.Recounted ms) (hs : m.before.Sound) (hn : nominate.NamesOnce)
    (hclean : m.step.Clean) : m.step.cache.Recounted (ms ++ [m]) := by
  obtain ⟨c, op⟩ := m
  cases hs.performed hclean with
  | read hop =>
    have hsilent := c.silent_perform hop
    -- A read may count a lookup, which no other count depends on.
    have hlookups := c.withLookups_read 0 0 hop
    have hstored : (⟨c, op⟩ : Move nominate).stored = none := by
      cases op with
      | put => cases hop
      | _ => rfl
    apply h.concat_of_none hstored
    case hevicted => simp [Step.evicted, Move.step, hsilent.events]
    case hresident => exact .inl hsilent.keeps.resident
    case hevictions => exact congrArg (·.counters.evictions) hlookups
    case hrejections =>
      simp only [Step.rejected, Move.step, hsilent.events]
      exact (congrArg (·.counters.rejections) hlookups).trans (UInt64.add_zero _).symm
  | barred _ _ _ hstep =>
    apply h.concat_of_none <;>
      simp [Move.stored, Move.step, hstep, Step.evicted, Step.rejected]
  | rejected _ _ hstep =>
    apply h.concat_of_none <;>
      simp [Move.stored, Move.step, hstep, Step.evicted, Step.rejected, reject, Counters.reject]
  | stored hr _ hc _ _ _ hstep =>
    exact h.concat_of_admission hr.resident hc (hr.sound.nodup_chosen hn hc) hstep
  | closed _ hstep =>
    apply h.concat_of_none <;>
      simp [Move.stored, Move.step, hstep, Step.evicted, Step.rejected]

theorem after (h : c.Recounted ms) (hn : nominate.NamesOnce) {capacity : UInt64}
    {ops : List Operation} (hr : Ready capacity c ops) :
    (c.after ops).Recounted (ms ++ c.moves ops) := by
  induction ops generalizing c ms with
  | nil => simpa [Cache.after, moves] using h
  | cons op ops ih =>
    have hclean := hr.sound.clean_perform hn hr.bounded
    have hstep := concat (m := ⟨c, op⟩) h hr.sound hn hclean
    have htail := ih hstep (hr.perform hclean)
    rwa [List.append_assoc] at htail

end Recounted

/-- A close that succeeds finds the cache open. -/
theorem Sound.perform_close {c : Cache nominate} (hs : c.Sound)
    (hok : (c.perform .close).result = .ok .done) :
    ∃ r, c.Holds r ∧ c.perform .close =
      { result := .ok .done, cache := { c with closed := true, resident := none }
        events := [.cacheClosed r.index.size r.budget.used], calls := [.cleared] } := by
  rcases hs with ⟨hr, hc⟩ | ⟨r, hr⟩
  · rw [perform_of_closed hr hc rfl] at hok
    cases hok
  · refine ⟨r, hr, ?_⟩
    rw [Cache.perform, hr.close_eq]
    rfl

/-- What a step of a sound cache reports is so. -/
theorem Sound.logged {c : Cache nominate} (hs : c.Sound) {op : Operation}
    (hclean : (c.perform op).Clean) : (⟨c, op⟩ : Move nominate).Logged := by
  constructor
  case evicted =>
    intro k bytes hevent
    rw [Move.step] at hevent
    cases hs.performed hclean with
    | read hop =>
      rw [(c.silent_perform hop).events] at hevent
      cases hevent
    | barred _ _ _ hstep =>
      rw [hstep] at hevent
      cases hevent
    | rejected _ _ hstep =>
      rw [hstep] at hevent
      simp [reject] at hevent
    | @stored r key payload victims hr hv hc hfits hadmits hnext hstep =>
      rw [hstep] at hevent
      obtain ⟨e, hleaving, hbytes⟩ : ∃ e, (k, e) ∈ (r.without key).leaving victims ∧
          e.size = bytes := by
        simpa [admission, Resident.evictions] using hevent
      obtain ⟨-, hindex⟩ := ((r.without key).mem_leaving victims k e).1 hleaving
      rw [Resident.index_without] at hindex
      split at hindex
      · cases hindex
      · next hne => exact ⟨key, payload, r, e, rfl, hne, hr.resident, hindex, hbytes⟩
    | closed _ hstep =>
      rw [hstep] at hevent
      simp at hevent
  case reads => exact fun hop => (c.silent_perform hop).events
  case closed =>
    rintro rfl hok
    obtain ⟨r, hr, hstep⟩ := hs.perform_close hok
    refine ⟨r.index.size, r.budget.used, ?_, ?_, ?_⟩
    · rw [count, query, hr.resident]
    · rw [size, query, hr.resident]
    · rw [Move.step, hstep]

/-- Nothing is reported or stored behind a close. -/
theorem moves_of_closed {c : Cache nominate} (hr : c.resident = none) (hc : c.closed = true)
    (ops : List Operation) : ∀ m ∈ c.moves ops, m.step.events = [] ∧ m.stored = none := by
  induction ops generalizing c with
  | nil => simp [moves]
  | cons op ops ih =>
    have hsilent := silent_of_closed hr hc op
    have hstored : (⟨c, op⟩ : Move nominate).stored = none := by
      cases op with
      | put key payload =>
        have hstep : c.perform (.put key payload) = _ := perform_of_closed hr hc rfl
        simp [Move.stored, Move.step, hstep]
      | _ => rfl
    rw [moves, List.forall_mem_cons]
    exact ⟨⟨hsilent.events, hstored⟩,
      ih (hsilent.keeps.resident.trans hr) (hsilent.keeps.closed.trans hc)⟩

theorem Sound.silent_behind_close {c : Cache nominate} (hs : c.Sound) {ops : List Operation}
    (hclean : ∀ s ∈ c.run ops, s.Clean) :
    (c.moves ops).Pairwise fun m m' => m.op = .close → m.step.result = .ok .done →
      m'.step.events = [] ∧ m'.stored = none := by
  induction ops generalizing c with
  | nil => exact .nil
  | cons op ops ih =>
    rw [run, List.forall_mem_cons] at hclean
    rw [Cache.moves, List.pairwise_cons]
    refine ⟨?_, ih (hs.perform hclean.1).1 hclean.2⟩
    rintro m hm rfl hok
    obtain ⟨r, -, hstep⟩ := hs.perform_close hok
    rw [hstep] at hm
    exact moves_of_closed rfl rfl ops m hm

/-- Under a policy that names no tracked key twice, the puts that succeeded and the evictions that
were reported say which keys are resident and how long their payloads are; every report is true, the
counters count the reports, and behind a close there are none. -/
theorem run_log_accounts (nominate : Nomination) (capacity : UInt64) (order : AdmissionOrder)
    (ops : List Operation) (hc : 0 < capacity) (hn : nominate.NamesOnce) :
    ∃ start, create nominate capacity order = .ok start ∧
      (order.next + start.cache.admissions ops < wordLimit →
        (∀ r, (start.cache.after ops).resident = some r →
          ∀ k : Key, (Move.replayAll (start.cache.moves ops))[k]? = r.index[k]?.map Entry.size) ∧
        (∀ m ∈ start.cache.moves ops, m.Logged) ∧
        (start.cache.after ops).counters.evictions.toNat =
          ((start.cache.run ops).flatMap (·.evicted)).length ∧
        (start.cache.after ops).counters.rejections =
          UInt64.ofNat ((start.cache.run ops).flatMap (·.rejected)).length ∧
        (start.cache.moves ops).Pairwise fun m m' => m.op = .close → m.step.result = .ok .done →
          m'.step.events = [] ∧ m'.stored = none) := by
  refine ⟨_, create_eq hc order, fun hbound => ?_⟩
  have hready := ready_opened_over nominate capacity order ops hbound
  have hclean : ∀ s ∈ (opened nominate capacity order).run ops, s.Clean :=
    fun s hs => ((hready.run hn).1 s hs).1
  have hrecounted := (Recounted.opened capacity order).after hn hready
  rw [List.nil_append] at hrecounted
  have hmoves := (opened nominate capacity order).map_step_moves ops
  refine ⟨hrecounted.held, fun m hm => ?_, ?_, ?_, hready.sound.silent_behind_close hclean⟩
  · obtain ⟨hbefore, hstep⟩ := hready.sound.moves hclean m hm
    exact hbefore.logged hstep
  · have hstored := (opened nominate capacity order).length_stored_le ops
    have hadmissions := hstored.trans_lt ((Nat.le_add_left _ order.next).trans_lt hbound)
    have hlt : (((opened nominate capacity order).moves ops).flatMap (·.step.evicted)).length <
        wordLimit := by
      have hle := hrecounted.bounded
      omega
    rw [hrecounted.evictions, UInt64.toNat_ofNat_of_lt' hlt, ← hmoves, List.flatMap_map]
  · rw [hrecounted.rejections, ← hmoves, List.flatMap_map]

/-- An entry is evicted and put again, another one replaced; a put is rejected and a key looked
up. -/
theorem run_log_accounts_of_seven :
    let ops : List Operation := [.put ⟨1, 0⟩ #[7], .put ⟨2, 0⟩ #[8, 8], .put ⟨3, 0⟩ #[9, 9, 9],
      .put ⟨1, 0⟩ #[5], .put ⟨-1, 0⟩ #[4], .get ⟨1, 0⟩, .put ⟨1, 0⟩ #[6, 6]]
    let c := opened .amongStrangers 5
    (0 : UInt64) < 5 ∧ Nomination.amongStrangers.NamesOnce ∧ c.admissions ops = 5 ∧
      (c.run ops).flatMap (·.evicted) = [(⟨1, 0⟩, 1), (⟨2, 0⟩, 2)] ∧
      (Move.replayAll (c.moves ops)).toList = [(⟨1, 0⟩, 2), (⟨3, 0⟩, 3)] ∧
      (∃ r, (c.after ops).resident = some r ∧
        ∀ k : Key, (Move.replayAll (c.moves ops))[k]? = r.index[k]?.map Entry.size) ∧
      (c.after ops).counters.evictions.toNat = 2 ∧ ∀ m ∈ c.moves ops, m.Logged := by
  intro ops c
  have hadmissions : c.admissions ops = 5 := by decide +kernel
  have hevicted : (c.run ops).flatMap (·.evicted) = [(⟨1, 0⟩, 1), (⟨2, 0⟩, 2)] := by decide +kernel
  have hopen : (c.after ops).resident.isSome := by decide +kernel
  obtain ⟨r, hr⟩ := Option.isSome_iff_exists.1 hopen
  obtain ⟨start, hstart, hrun⟩ :=
    run_log_accounts .amongStrangers 5 {} ops (by decide) Nomination.namesOnce_amongStrangers
  have hcache : start.cache = c := cache_of_create hstart
  rw [hcache] at hrun
  obtain ⟨hheld, hlogged, hevictions, -⟩ := hrun (hadmissions ▸ by decide)
  rw [hevicted] at hevictions
  exact ⟨by decide, Nomination.namesOnce_amongStrangers, hadmissions, hevicted, by decide +kernel,
    ⟨r, hr, hheld r hr⟩, hevictions, hlogged⟩

end Cache

end LedgerCache
