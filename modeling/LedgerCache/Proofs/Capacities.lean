import LedgerCache.Proofs.Conservation
import LedgerCache.Proofs.History

namespace LedgerCache

open Std

theorem History.Stays.mono {h : History} {limit limit' t : Nat} (hs : h.Stays limit t)
    (hle : limit ≤ limit') : h.Stays limit' t :=
  ⟨hs.lt, hs.latest, fun n hn hlt => (hs.fits n hn hlt).trans hle⟩

/-- A put under a key of a cache, of a payload that fits into the larger capacity only. -/
def Operation.between (small large : UInt64) : Operation → Bool
  | .put key payload => 0 ≤ key.owner ∧ small.toNat < payload.size ∧ payload.size ≤ large.toNat
  | _ => false

/-- Neither step fails, both are accepted or none is, and the second finds what the first finds. -/
structure Step.EchoedBy (s s' : Step .oldestFirst Reply) : Prop where
  clean : s.Clean ∧ s'.Clean
  accepted : s.result.isOk = s'.result.isOk
  found : ∀ p, s.result = .ok (.view (some p)) → s'.result = .ok (.view (some p))

/-- The step `s'` of a larger cache leaves and answers at least what `s` does. -/
structure Step.CoveredBy (s s' : Step .oldestFirst Reply) : Prop extends s.EchoedBy s' where
  entries : ∃ r r', s.cache.resident = some r ∧ s'.cache.resident = some r' ∧
    ∀ (k : Key) (e : Entry), r.index[k]? = some e → r'.index[k]? = some e
  hits : s.cache.counters.hits ≤ s'.cache.counters.hits
  misses : s'.cache.counters.misses ≤ s.cache.counters.misses
  evictions : s'.cache.counters.evictions ≤ s.cache.counters.evictions

theorem toNat_add_of_lt {a b : UInt64} (h : a.toNat + b.toNat < wordLimit) :
    (a + b).toNat = a.toNat + b.toNat := by
  rw [UInt64.toNat_add]
  exact Nat.mod_eq_of_lt h

namespace Cache

theorem Holds.toNat_evictions_admission {nominate : Nomination} {c : Cache nominate} {r : Resident}
    {key : Key} {victims : List Key} (payload : Payload)
    (hc : r.chosen nominate key payload.size = some victims) (hn : victims.Nodup)
    (hlt : c.counters.evictions.toNat + r.index.size < wordLimit) :
    (c.admission r key payload victims).cache.counters.evictions.toNat +
        ((r.cleared key victims).stored key payload).index.size + r.index[key]?.toList.length =
      c.counters.evictions.toNat + r.index.size + 1 := by
  have hsize := r.size_admitted key payload victims
  have hleft := (r.without key).size_withoutAll victims
  have hold := r.size_without key
  rw [Resident.length_leaving_of_chosen hc hn] at hsize hleft
  have hword : (UInt64.ofNat victims.length).toNat = victims.length :=
    UInt64.toNat_ofNat_of_lt' (show victims.length < wordLimit by omega)
  have hsum : (c.counters.evictions + UInt64.ofNat victims.length).toNat =
      c.counters.evictions.toNat + victims.length := by
    rw [toNat_add_of_lt (by omega), hword]
  rw [admission, Counters.evict, hsum]
  omega

/-- After the puts in `h` and `n` operations, `c` with `r` is behind `c'` with `r'`. Evictions are
compared together with the entries that are still there to be evicted. -/
structure Trails (n : Nat) (c c' : Cache .oldestFirst) (r r' : Resident) (h : History) : Prop where
  small : c.Records r h
  large : c'.Records r' h
  capacity : c.capacity ≤ c'.capacity
  length_le : h.length ≤ n
  hits : c.counters.hits.toNat ≤ c'.counters.hits.toNat
  hits_le : c'.counters.hits.toNat ≤ n
  misses : c'.counters.misses.toNat ≤ c.counters.misses.toNat
  misses_le : c.counters.misses.toNat ≤ n
  evictions : c'.counters.evictions.toNat + r'.index.size ≤
    c.counters.evictions.toNat + r.index.size
  evictions_le : c.counters.evictions.toNat + r.index.size ≤ n

namespace Trails

variable {n : Nat} {c c' : Cache .oldestFirst} {r r' : Resident} {h : History} {key : Key}
  {payload : Payload}

/-- Both hold what stays of the same puts, and more stays where there is more room. -/
theorem getElem?_index (ht : Trails n c c' r r' h) {k : Key} {e : Entry}
    (he : r.index[k]? = some e) : r'.index[k]? = some e := by
  obtain ⟨hput, hstays⟩ := (ht.small.placed k e.payload e.stamp).1 he
  have hle := UInt64.le_iff_toNat_le.1 ht.capacity
  exact (ht.large.placed k e.payload e.stamp).2 ⟨hput, hstays.mono hle⟩

theorem size_le (ht : Trails n c c' r r' h) : r.index.size ≤ r'.index.size := by
  have hsub : r.index.toList ⊆ r'.index.toList := by
    intro x hx
    rw [TreeMap.mem_toList_iff_getElem?_eq_some] at hx ⊢
    exact ht.getElem?_index hx
  have hle := ((Resident.nodup_toList r.index).subperm hsub).length_le
  rwa [TreeMap.length_toList, TreeMap.length_toList] at hle

theorem length_toList_le (ht : Trails n c c' r r' h) (k : Key) :
    r.index[k]?.toList.length ≤ r'.index[k]?.toList.length := by
  cases he : r.index[k]? with
  | none => exact Nat.zero_le _
  | some e => rw [ht.getElem?_index he]

/-- Of what is evicted or held the smaller cache has no less, and it holds no more. -/
theorem evictions_anti (ht : Trails n c c' r r' h) :
    c'.counters.evictions ≤ c.counters.evictions := by
  have hsize := ht.size_le
  have hevictions := ht.evictions
  rw [UInt64.le_iff_toNat_le]
  omega

theorem covered {s s' : Step .oldestFirst Reply} (ht : Trails n s.cache s'.cache r r' h)
    (hs : s.EchoedBy s') : s.CoveredBy s' where
  toEchoedBy := hs
  entries := ⟨r, r', ht.small.holds.resident, ht.large.holds.resident, fun _ _ => ht.getElem?_index⟩
  hits := UInt64.le_iff_toNat_le.2 ht.hits
  misses := UInt64.le_iff_toNat_le.2 ht.misses
  evictions := ht.evictions_anti

/-- Steps that evict nothing, of which the counts of lookups stay in order. -/
theorem of_keeps (ht : Trails n c c' r r' h) {s s' : Step .oldestFirst Reply}
    (hs : s.Keeps c) (hs' : s'.Keeps c')
    (hevictions : s.cache.counters.evictions = c.counters.evictions)
    (hevictions' : s'.cache.counters.evictions = c'.counters.evictions)
    (hhits : s.cache.counters.hits.toNat ≤ s'.cache.counters.hits.toNat ∧
      s'.cache.counters.hits.toNat ≤ n + 1)
    (hmisses : s'.cache.counters.misses.toNat ≤ s.cache.counters.misses.toNat ∧
      s.cache.counters.misses.toNat ≤ n + 1) :
    Trails (n + 1) s.cache s'.cache r r' h where
  small := ht.small.of_keeps hs
  large := ht.large.of_keeps hs'
  capacity := by
    rw [hs.capacity, hs'.capacity]
    exact ht.capacity
  length_le := Nat.le_succ_of_le ht.length_le
  hits := hhits.1
  hits_le := hhits.2
  misses := hmisses.1
  misses_le := hmisses.2
  evictions := by
    rw [hevictions, hevictions']
    exact ht.evictions
  evictions_le := by
    rw [hevictions]
    exact Nat.le_succ_of_le ht.evictions_le

theorem succ (ht : Trails n c c' r r' h) : Trails (n + 1) c c' r r' h :=
  { ht with
    length_le := Nat.le_succ_of_le ht.length_le
    hits_le := Nat.le_succ_of_le ht.hits_le
    misses_le := Nat.le_succ_of_le ht.misses_le
    evictions_le := Nat.le_succ_of_le ht.evictions_le }

theorem echoed_of_observes (ht : Trails n c c' r r' h) {op : Operation} (hop : op.observes) :
    (c.perform op).EchoedBy (c'.perform op) := by
  have hr := ht.small.holds.resident
  have hr' := ht.large.holds.resident
  cases op with
  | put => cases hop
  | get => cases hop
  | close => cases hop
  | _ =>
    refine ⟨⟨(c.silent_perform rfl).clean, (c'.silent_perform rfl).clean⟩, ?_, ?_⟩ <;>
      simp [Cache.perform, has, count, size, stats, query, hr, hr', Step.map, Except.map,
        Except.isOk, Except.toBool]

theorem observe (ht : Trails n c c' r r' h) {op : Operation} (hop : op.observes) :
    (c.perform op).EchoedBy (c'.perform op) ∧
      ∃ r₁ r₁' h₁, Trails (n + 1) (c.perform op).cache (c'.perform op).cache r₁ r₁' h₁ := by
  have hnext := ht.succ
  rw [← cache_perform_of_observes c hop, ← cache_perform_of_observes c' hop] at hnext
  exact ⟨ht.echoed_of_observes hop, _, _, _, hnext⟩

theorem echoed_get (ht : Trails n c c' r r' h) (key : Key) :
    (c.perform (.get key)).EchoedBy (c'.perform (.get key)) where
  clean := ⟨(c.silent_perform rfl).clean, (c'.silent_perform rfl).clean⟩
  accepted := by
    obtain ⟨v, hv, -⟩ := ht.small.get_eq key
    obtain ⟨v', hv', -⟩ := ht.large.get_eq key
    simp [Cache.perform, Step.map, hv, hv', Except.map, Except.isOk, Except.toBool]
  found := by
    intro p hp
    cases he : r.index[key]? with
    | none =>
      rw [Cache.perform, ht.small.holds.get_of_none he] at hp
      simp [Step.map, Except.map] at hp
    | some e =>
      rw [Cache.perform, ht.small.holds.get_of_some he] at hp
      rw [Cache.perform, ht.large.holds.get_of_some (ht.getElem?_index he)]
      exact hp

/-- A lookup may hit in the larger cache alone. -/
theorem get (ht : Trails n c c' r r' h) (hn : n + 1 < wordLimit) (key : Key) :
    Trails (n + 1) (c.perform (.get key)).cache (c'.perform (.get key)).cache r r' h := by
  have hhits := ht.hits
  have hhits_le := ht.hits_le
  have hmisses := ht.misses
  have hmisses_le := ht.misses_le
  have hsucc {a : UInt64} (ha : a.toNat ≤ n) : (a + 1).toNat = a.toNat + 1 :=
    toNat_add_of_lt (Nat.lt_of_le_of_lt (Nat.succ_le_succ ha) hn)
  have hhit := hsucc (hhits.trans hhits_le)
  have hhit' := hsucc hhits_le
  have hmiss := hsucc hmisses_le
  have hmiss' := hsucc (hmisses.trans hmisses_le)
  rw [Cache.perform, Cache.perform]
  cases he : r.index[key]? with
  | some e =>
    rw [ht.small.holds.get_of_some he, ht.large.holds.get_of_some (ht.getElem?_index he)]
    refine ht.of_keeps rfl rfl rfl rfl ?_ ⟨hmisses, Nat.le_succ_of_le hmisses_le⟩
    simp only [Step.cache_map, Counters.hit, hhit, hhit']
    omega
  | none =>
    rw [ht.small.holds.get_of_none he]
    cases he' : r'.index[key]? with
    | some e' =>
      rw [ht.large.holds.get_of_some he']
      refine ht.of_keeps rfl rfl rfl rfl ?_ ?_
      all_goals
        simp only [Step.cache_map, Counters.hit, Counters.miss, hhit', hmiss]
        omega
    | none =>
      rw [ht.large.holds.get_of_none he']
      refine ht.of_keeps rfl rfl rfl rfl ⟨hhits, Nat.le_succ_of_le hhits_le⟩ ?_
      simp only [Step.cache_map, Counters.miss, hmiss, hmiss']
      omega

theorem objection_eq_none_iff (ht : Trails n c c' r r' h)
    (hgap : ¬(Operation.put key payload).between c.capacity c'.capacity) :
    c.objection key payload.size = none ↔ c'.objection key payload.size = none := by
  have hle := UInt64.le_iff_toNat_le.1 ht.capacity
  simp only [Operation.between, decide_eq_true_iff, not_and] at hgap
  rw [ht.small.holds.objection_eq_none_iff, ht.large.holds.objection_eq_none_iff,
    ht.small.holds.capacity, ht.large.holds.capacity]
  constructor
  · intro hv
    exact ⟨hv.1, hv.2.1, hv.2.2.trans hle⟩
  · intro hv
    have hfits := hgap hv.1
    exact ⟨hv.1, hv.2.1, by omega⟩

theorem put_refused (ht : Trails n c c' r r' h) {e e' : Error}
    (hv : c.objection key payload.size = some e) (hv' : c'.objection key payload.size = some e') :
    (c.perform (.put key payload)).EchoedBy (c'.perform (.put key payload)) ∧
      Trails (n + 1) (c.perform (.put key payload)).cache (c'.perform (.put key payload)).cache
        r r' h := by
  rw [Cache.perform, Cache.perform, put_of_objection ht.small.holds.not_closed hv,
    put_of_objection ht.large.holds.not_closed hv']
  refine ⟨⟨⟨?_, ?_⟩, rfl, ?_⟩, ht.of_keeps rfl rfl rfl rfl ?_ ?_⟩
  · intro f
    simp [reject, Step.map, Except.map]
  · intro f
    simp [reject, Step.map, Except.map]
  · simp [reject, Step.map, Except.map]
  · exact ⟨ht.hits, Nat.le_succ_of_le ht.hits_le⟩
  · exact ⟨ht.misses, Nat.le_succ_of_le ht.misses_le⟩

/-- Where the larger cache replaces an entry, the smaller one may have to store it anew. -/
theorem admission (ht : Trails n c c' r r' h) (hn : n + 1 < wordLimit)
    (hv : c.objection key payload.size = none) (hv' : c'.objection key payload.size = none)
    (hfits : payload.size ≤ (r.cleared key (r.oldest key payload.size)).budget.available)
    (hfits' : payload.size ≤ (r'.cleared key (r'.oldest key payload.size)).budget.available) :
    Trails (n + 1) (c.admission r key payload (r.oldest key payload.size)).cache
      (c'.admission r' key payload (r'.oldest key payload.size)).cache
      ((r.cleared key (r.oldest key payload.size)).stored key payload)
      ((r'.cleared key (r'.oldest key payload.size)).stored key payload)
      (h ++ [(key, payload)]) := by
  have hs := ht.small.holds.sound
  have hs' := ht.large.holds.sound
  have hevictions := ht.evictions
  have hevictions_le := ht.evictions_le
  have hreplaced := ht.length_toList_le key
  have hcount := Holds.toNat_evictions_admission (c := c) payload
    (hs.chosen_oldestFirst key _ ((ht.small.holds.objection_eq_none_iff _ _).1 hv).2.2)
    (hs.nodup_oldest key _) (by omega)
  have hcount' := Holds.toNat_evictions_admission (c := c') payload
    (hs'.chosen_oldestFirst key _ ((ht.large.holds.objection_eq_none_iff _ _).1 hv').2.2)
    (hs'.nodup_oldest key _) (by omega)
  constructor
  case small => exact ht.small.admission hv hfits
  case large => exact ht.large.admission hv' hfits'
  case capacity => exact ht.capacity
  case length_le =>
    rw [List.length_append, List.length_singleton]
    exact Nat.succ_le_succ ht.length_le
  case hits => exact ht.hits
  case hits_le => exact Nat.le_succ_of_le ht.hits_le
  case misses => exact ht.misses
  case misses_le => exact Nat.le_succ_of_le ht.misses_le
  case evictions => omega
  case evictions_le => omega

theorem put_stored (ht : Trails n c c' r r' h) (hn : n + 1 < wordLimit)
    (hv : c.objection key payload.size = none) (hv' : c'.objection key payload.size = none) :
    (c.perform (.put key payload)).EchoedBy (c'.perform (.put key payload)) ∧
      ∃ r₁ r₁', Trails (n + 1) (c.perform (.put key payload)).cache
        (c'.perform (.put key payload)).cache r₁ r₁' (h ++ [(key, payload)]) := by
  have hlength := ht.length_le
  obtain ⟨hfits, -, hput⟩ := ht.small.holds.put_oldestFirst hv (by rw [ht.small.next]; omega)
  obtain ⟨hfits', -, hput'⟩ := ht.large.holds.put_oldestFirst hv' (by rw [ht.large.next]; omega)
  have hnext := ht.admission hn hv hv' hfits hfits'
  rw [Cache.perform, Cache.perform, hput, hput']
  refine ⟨⟨⟨?_, ?_⟩, rfl, ?_⟩, ⟨_, _, hnext⟩⟩
  · intro f
    simp [Cache.admission, Step.map, Except.map]
  · intro f
    simp [Cache.admission, Step.map, Except.map]
  · simp [Cache.admission, Step.map, Except.map]

/-- One operation that closes neither cache keeps the smaller one behind. -/
theorem perform (ht : Trails n c c' r r' h) (hn : n + 1 < wordLimit) {op : Operation}
    (hopen : op ≠ .close) (hgap : ¬op.between c.capacity c'.capacity) :
    (c.perform op).EchoedBy (c'.perform op) ∧
      ∃ r₁ r₁' h₁, Trails (n + 1) (c.perform op).cache (c'.perform op).cache r₁ r₁' h₁ := by
  cases op with
  | close => exact absurd rfl hopen
  | put key payload =>
    have hboth := ht.objection_eq_none_iff hgap
    cases hv : c.objection key payload.size with
    | some e =>
      cases hv' : c'.objection key payload.size with
      | some e' =>
        obtain ⟨hechoed, htrails⟩ := ht.put_refused hv hv'
        exact ⟨hechoed, _, _, _, htrails⟩
      | none => simp [hv, hv'] at hboth
    | none =>
      obtain ⟨hechoed, r₁, r₁', htrails⟩ := ht.put_stored hn hv (hboth.1 hv)
      exact ⟨hechoed, _, _, _, htrails⟩
  | get key =>
    exact ⟨ht.echoed_get key, _, _, _, ht.get hn key⟩
  | _ =>
    exact ht.observe rfl

theorem run (ht : Trails n c c' r r' h) {ops : List Operation} (hn : n + ops.length < wordLimit)
    (hopen : ∀ op ∈ ops, op ≠ .close) (hgap : ∀ op ∈ ops, ¬op.between c.capacity c'.capacity) :
    List.Forall₂ Step.CoveredBy (c.run ops) (c'.run ops) := by
  induction ops generalizing n c c' r r' h with
  | nil => exact .nil
  | cons op ops ih =>
    rw [List.length_cons] at hn
    rw [List.forall_mem_cons] at hopen hgap
    obtain ⟨hechoed, r₁, r₁', h₁, hnext⟩ := ht.perform (by omega) hopen.1 hgap.1
    have hcapacity := (Sound.perform (.inr ⟨r, ht.small.holds⟩) hechoed.clean.1).2
    have hcapacity' := (Sound.perform (.inr ⟨r', ht.large.holds⟩) hechoed.clean.2).2
    refine .cons (hnext.covered hechoed) (ih hnext (by omega) hopen.2 ?_)
    rw [hcapacity, hcapacity']
    exact hgap.2

end Trails

/-- First in, first out, a larger cache is never worse: in a run without a close whose puts fit into
both caches or into none, each step of the larger one leaves and answers at least as much. -/
theorem run_mono_capacity (small large : UInt64) (ops : List Operation) (hc : 0 < small)
    (hle : small ≤ large) (hopen : ∀ op ∈ ops, op ≠ .close)
    (hgap : ∀ op ∈ ops, ¬op.between small large) (hn : ops.length < wordLimit) :
    ∃ start start', create .oldestFirst small = .ok start ∧
      create .oldestFirst large = .ok start' ∧
        List.Forall₂ Step.CoveredBy (start.cache.run ops) (start'.cache.run ops) := by
  refine ⟨_, _, create_eq hc {}, create_eq (UInt64.lt_of_lt_of_le hc hle) {}, ?_⟩
  have ht : Trails 0 (opened .oldestFirst small) (opened .oldestFirst large)
      (.empty small.toNat {}) (.empty large.toNat {}) [] := by
    constructor
    case small => exact records_opened small
    case large => exact records_opened large
    case capacity => exact hle
    all_goals exact Nat.le_refl 0
  exact ht.run (by omega) hopen hgap

/-- The larger cache alone finds the first entry again, and replaces it where the smaller one has to
evict for it. A payload that only it could take is put under a negative owner. -/
theorem run_mono_capacity_of_three_and_five :
    let ops : List Operation := [.put ⟨1, 0⟩ #[7, 7], .put ⟨2, 0⟩ #[8, 8], .get ⟨1, 0⟩,
      .put ⟨1, 0⟩ #[9, 9], .get ⟨1, 0⟩, .put ⟨-1, 0⟩ #[1, 2, 3, 4]]
    let c := opened .oldestFirst 3
    let c' := opened .oldestFirst 5
    (0 : UInt64) < 3 ∧ (3 : UInt64) ≤ 5 ∧ (∀ op ∈ ops, op ≠ .close) ∧
      (∀ op ∈ ops, ¬op.between 3 5) ∧ ops.length < wordLimit ∧
      (c.after ops).counters = ⟨1, 1, 2, 1⟩ ∧ (c'.after ops).counters = ⟨2, 0, 0, 1⟩ ∧
      List.Forall₂ Step.CoveredBy (c.run ops) (c'.run ops) := by
  intro ops c c'
  have hopen : ∀ op ∈ ops, op ≠ .close := by decide
  have hgap : ∀ op ∈ ops, ¬op.between 3 5 := by decide +kernel
  obtain ⟨start, start', hstart, hstart', hrun⟩ :=
    run_mono_capacity 3 5 ops (by decide) (by decide) hopen hgap (by decide)
  rw [create_eq (by decide)] at hstart hstart'
  cases hstart
  cases hstart'
  exact ⟨by decide, by decide, hopen, hgap, by decide, by decide +kernel, by decide +kernel, hrun⟩

end Cache

end LedgerCache
