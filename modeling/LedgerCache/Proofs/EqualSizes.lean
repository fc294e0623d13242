import LedgerCache.Proofs.Capacities

namespace LedgerCache

open Std

namespace History

/-- The keys that were put, each once. -/
def keys (h : History) : Finset Key := (h.map (·.1)).toFinset

theorem mem_keys (h : History) (k : Key) : k ∈ h.keys ↔ k ∈ h.map (·.1) := List.mem_toFinset

theorem card_keys_append (h : History) (key : Key) (payload : Payload) :
    (keys (h ++ [(key, payload)])).card = h.keys.card + if key ∈ h.keys then 0 else 1 := by
  have hinsert : keys (h ++ [(key, payload)]) = insert key h.keys := by
    ext k
    simp [keys]
  rw [hinsert, Finset.card_insert_eq_ite]
  split <;> rfl

theorem card_keys_of_perm {h h' : History} (hp : h.Perm h') : h.keys.card = h'.keys.card := by
  rw [keys, keys, List.toFinset_eq_of_perm _ _ (hp.map _)]

theorem card_keys_of_nodup {h : History} (hn : (h.map (·.1)).Nodup) : h.keys.card = h.length := by
  rw [keys, List.toFinset_card_of_nodup hn, List.length_map]

end History

theorem Resident.length_toList_eq (r : Resident) (key : Key) :
    r.index[key]?.toList.length = if key ∈ r.index then 1 else 0 := by
  by_cases hk : key ∈ r.index
  · obtain ⟨e, he⟩ := Option.isSome_iff_exists.1 (TreeMap.mem_iff_isSome_getElem?.1 hk)
    rw [if_pos hk, he]
    rfl
  · rw [if_neg hk, TreeMap.getElem?_eq_none hk]
    rfl

namespace Cache

/-- The cache holds `r` after the puts in `h`, whose payloads are all of this size. Nothing was
evicted before the keys outnumbered the entries that fit. -/
structure Uniform (size : Nat) (c : Cache .oldestFirst) (r : Resident) (h : History) : Prop where
  records : c.Records r h
  sizes : ∀ x ∈ h, x.2.size = size
  entries : r.index.size = min h.keys.card (c.capacity.toNat / size)
  evictions : c.counters.evictions.toNat + r.index.size ≤ h.length
  evictions_of_nodup :
    (h.map (·.1)).Nodup → c.counters.evictions.toNat + r.index.size = h.length
  kept : h.keys.card ≤ c.capacity.toNat / size →
    c.counters.evictions.toNat = 0 ∧ ∀ k ∈ h.keys, k ∈ r.index

theorem uniform_opened (capacity : UInt64) (size : Nat) :
    (opened .oldestFirst capacity).Uniform size (.empty capacity.toNat {}) [] where
  records := records_opened capacity
  sizes := by simp
  entries := by simp [Resident.empty, History.keys]
  evictions := by simp [opened, Resident.empty]
  evictions_of_nodup := by simp [opened, Resident.empty]
  kept := by simp [opened, History.keys]

namespace Uniform

variable {size : Nat} {c : Cache .oldestFirst} {r : Resident} {h : History} {key : Key}
  {payload : Payload}

/-- Steps that change no count of evictions and nothing that is resident. -/
theorem of_keeps (hu : c.Uniform size r h) {s : Step .oldestFirst Reply} (hs : s.Keeps c)
    (hevictions : s.cache.counters.evictions = c.counters.evictions) : s.cache.Uniform size r h where
  records := hu.records.of_keeps hs
  sizes := hu.sizes
  entries := by
    rw [hs.capacity]
    exact hu.entries
  evictions := by
    rw [hevictions]
    exact hu.evictions
  evictions_of_nodup := by
    rw [hevictions]
    exact hu.evictions_of_nodup
  kept := by
    rw [hs.capacity, hevictions]
    exact hu.kept

theorem counted (hu : c.Uniform size r h) {counters : Counters}
    (hevictions : counters.evictions = c.counters.evictions) :
    { c with counters }.Uniform size r h :=
  hu.of_keeps (s := ⟨.ok .done, { c with counters }, [], []⟩) rfl hevictions

theorem mem_keys (hu : c.Uniform size r h) {k : Key} (hk : k ∈ r.index) : k ∈ h.keys := by
  obtain ⟨e, he⟩ := Option.isSome_iff_exists.1 (TreeMap.mem_iff_isSome_getElem?.1 hk)
  obtain ⟨hput, -⟩ := (hu.records.placed k e.payload e.stamp).1 he
  rw [h.mem_keys]
  exact List.mem_map_of_mem (f := (·.1)) (List.mem_of_getElem? hput)

theorem size_eq (hu : c.Uniform size r h) {k : Key} {e : Entry} (he : r.index[k]? = some e) :
    e.size = size := by
  obtain ⟨hput, -⟩ := (hu.records.placed k e.payload e.stamp).1 he
  exact hu.sizes _ (List.mem_of_getElem? hput)

theorem map_size_eq (hu : c.Uniform size r h) {entries : List (Key × Entry)}
    (hsub : ∀ x ∈ entries, x ∈ r.entries) :
    (entries.map fun x => x.2.size) = List.replicate entries.length size := by
  apply List.eq_replicate_iff.2
  refine ⟨List.length_map _, fun n hn => ?_⟩
  obtain ⟨x, hx, rfl⟩ := List.mem_map.1 hn
  exact hu.size_eq ((hu.records.holds.sound.mem_entries x.1 x.2).1 (hsub x hx))

theorem used_eq (hu : c.Uniform size r h) : r.budget.used = size * r.index.size := by
  have hs := hu.records.holds.sound
  have hsizes := hu.map_size_eq fun x (hx : x ∈ r.entries) => hx
  rw [← hs.sum_entries, hsizes, List.sum_replicate_nat, hs.length_entries, Nat.mul_comm]

theorem surplus_eq (hu : c.Uniform size r h) (hsize : 0 < size) (key : Key) :
    r.surplus key size =
      (r.without key).index.size - (c.capacity.toNat - size) / size := by
  have hs := hu.records.holds.sound
  have hsub : ∀ x ∈ (r.without key).entries, x ∈ r.entries := by
    intro x hx
    rw [hs.entries_without] at hx
    exact List.mem_of_mem_filter hx
  have hsizes := hu.map_size_eq hsub
  rw [Resident.surplus, hsizes, excess_replicate _ _ _ hsize, (hs.without key).length_entries,
    hu.records.holds.capacity]

/-- An entry that is replaced makes room for its successor, else one entry more is held unless the
cache is full. -/
theorem size_admission (hu : c.Uniform size r h) (hv : c.objection key payload.size = none)
    (hpayload : payload.size = size)
    (hfits : payload.size ≤ (r.cleared key (r.oldest key payload.size)).budget.available) :
    ((r.cleared key (r.oldest key payload.size)).stored key payload).index.size =
      min ((r.without key).index.size + 1) (c.capacity.toNat / size) := by
  have hs := hu.records.holds.sound
  obtain ⟨-, hpos, hle⟩ := (hu.records.holds.objection_eq_none_iff _ _).1 hv
  have hholds := hu.records.holds.admission_holds hv hfits
  have hkey := r.index_cleared_self key (r.oldest key payload.size)
  have hentries := (hs.cleared key _).entries_stored hkey hholds.sound
  rw [hu.records.holds.capacity, hpayload] at hle
  rw [hpayload] at hpos
  have hquotient := Nat.div_eq_sub_div hpos hle
  rw [hs.entries_cleared_oldest] at hentries
  rw [← hholds.sound.length_entries, hentries, List.length_append, List.length_drop,
    (hs.without key).length_entries, hpayload, hu.surplus_eq hpos, List.length_singleton, hquotient]
  generalize (c.capacity.toNat - size) / size = quotient
  omega

/-- While nothing was evicted, a victim would have to go beside fewer entries than fit. -/
theorem oldest_eq_nil (hu : c.Uniform size r h) (hv : c.objection key payload.size = none)
    (hpayload : payload.size = size)
    (hroom : (r.without key).index.size < c.capacity.toNat / size) :
    r.oldest key payload.size = [] := by
  obtain ⟨-, hpos, hle⟩ := (hu.records.holds.objection_eq_none_iff _ _).1 hv
  rw [hu.records.holds.capacity, hpayload] at hle
  rw [hpayload] at hpos
  have hquotient := Nat.div_eq_sub_div hpos hle
  have hnone : r.surplus key payload.size = 0 := by
    rw [hpayload, hu.surplus_eq hpos]
    omega
  rw [Resident.oldest, hnone, List.take_zero, List.map_nil]

theorem admission (hu : c.Uniform size r h) (hv : c.objection key payload.size = none)
    (hpayload : payload.size = size) (hlt : h.length + 1 < wordLimit)
    (hfits : payload.size ≤ (r.cleared key (r.oldest key payload.size)).budget.available) :
    (c.admission r key payload (r.oldest key payload.size)).cache.Uniform size
      ((r.cleared key (r.oldest key payload.size)).stored key payload)
      (h ++ [(key, payload)]) := by
  have hs := hu.records.holds.sound
  have hsize := ((hu.records.holds.objection_eq_none_iff _ _).1 hv).2.2
  have hlength : (h ++ [(key, payload)]).length = h.length + 1 := by simp
  have hcard := h.card_keys_append key payload
  have hentries := hu.entries
  have hevictions := hu.evictions
  have hkept := hu.kept
  have hafter := hu.size_admission hv hpayload hfits
  have hnone := hu.oldest_eq_nil hv hpayload
  have hput : key ∈ r.index → key ∈ h.keys := hu.mem_keys
  have hwithout := r.size_without key
  have hcount := Holds.toNat_evictions_admission (c := c) payload
    (hs.chosen_oldestFirst key _ hsize) (hs.nodup_oldest key _) (by omega)
  rw [r.length_toList_eq] at hwithout hcount
  constructor
  case records => exact hu.records.admission hv hfits
  case sizes =>
    intro x hx
    rcases List.mem_append.1 hx with hx | hx
    · exact hu.sizes x hx
    · rw [List.mem_singleton.1 hx]
      exact hpayload
  case entries =>
    change _ = min _ (c.capacity.toNat / size)
    rw [hafter, hcard]
    generalize c.capacity.toNat / size = most at hentries hkept ⊢
    by_cases hresident : key ∈ r.index
    · rw [if_pos hresident] at hwithout
      rw [if_pos (hput hresident)]
      omega
    · rw [if_neg hresident] at hwithout
      by_cases hk : key ∈ h.keys
      · have hfull : most < h.keys.card := by
          by_contra hle
          exact hresident ((hkept (Nat.le_of_not_lt hle)).2 key hk)
        rw [if_pos hk]
        omega
      · rw [if_neg hk]
        omega
  case evictions =>
    rw [hlength]
    omega
  case evictions_of_nodup =>
    intro hnodup
    rw [List.map_append, List.nodup_append] at hnodup
    have hnew : key ∉ r.index := by
      intro hresident
      exact hnodup.2.2 key ((h.mem_keys key).1 (hput hresident)) key (by simp) rfl
    have hold := hu.evictions_of_nodup hnodup.1
    rw [if_neg hnew] at hcount
    rw [hlength]
    omega
  case kept =>
    intro hle
    change _ ≤ c.capacity.toNat / size at hle
    rw [hcard] at hle
    obtain ⟨hzero, hall⟩ := hkept (by omega)
    have hresident : key ∈ r.index ↔ key ∈ h.keys := ⟨hput, hall key⟩
    simp only [hresident] at hwithout hcount
    have hroom : (r.without key).index.size < c.capacity.toNat / size := by
      split_ifs at hle hwithout <;> omega
    refine ⟨?_, fun k hk => ?_⟩
    · split_ifs at hle hwithout hcount <;> omega
    · rw [hnone hroom, TreeMap.mem_iff_isSome_getElem?, Resident.index_stored]
      split
      · rfl
      · next hne =>
        rw [Resident.index_cleared, if_neg (by simpa using hne), ← TreeMap.mem_iff_isSome_getElem?]
        apply hall
        simpa [History.keys, hne] using hk

/-- A put that is not refused stores its payload. -/
theorem store (hu : c.Uniform size r h) (hv : c.objection key payload.size = none)
    (hpayload : payload.size = size) (hlt : h.length + 1 < wordLimit) :
    ∃ r', c.put key payload = c.admission r key payload (r.oldest key payload.size) ∧
      (c.admission r key payload (r.oldest key payload.size)).cache.Uniform size r'
        (h ++ [(key, payload)]) := by
  have hnext : r.order.next + 1 < wordLimit := by rwa [hu.records.next]
  obtain ⟨hfits, -, hput⟩ := hu.records.holds.put_oldestFirst hv hnext
  exact ⟨_, hput, hu.admission hv hpayload hlt hfits⟩

theorem stats_eq (hu : c.Uniform size r h) :
    c.stats.result = .ok (c.counters.snapshot (UInt64.ofNat r.index.size)
      (UInt64.ofNat (size * r.index.size)) c.capacity) := by
  rw [stats, query, hu.records.holds.resident, ← hu.used_eq]

theorem toNat_used (hu : c.Uniform size r h) :
    (UInt64.ofNat (size * r.index.size)).toNat = size * r.index.size := by
  have hfits := hu.records.holds.sound.fits
  have hcapacity := hu.records.holds.capacity_lt
  rw [← hu.used_eq]
  exact UInt64.toNat_ofNat_of_lt' (show r.budget.used < wordLimit by omega)

theorem toNat_size (hu : c.Uniform size r h) :
    (UInt64.ofNat r.index.size).toNat = r.index.size := by
  have hsize := hu.records.holds.sound.size_index_le_used
  have hfits := hu.records.holds.sound.fits
  have hcapacity := hu.records.holds.capacity_lt
  exact UInt64.toNat_ofNat_of_lt' (show r.index.size < wordLimit by omega)

/-- Where no key is put again, or all keys fit, the order of the puts does not show. -/
theorem stats_perm (hu : c.Uniform size r h) {c' : Cache .oldestFirst} {r' : Resident} {h' : History}
    (hu' : c'.Uniform size r' h') (hp : h.Perm h') (hcapacity : c'.capacity = c.capacity)
    (hcounters : c'.counters = { c.counters with evictions := c'.counters.evictions })
    (hfree : (h.map (·.1)).Nodup ∨ h.keys.card ≤ c.capacity.toNat / size) :
    c'.stats.result = c.stats.result := by
  have hkeys := History.card_keys_of_perm hp
  have hsize : r'.index.size = r.index.size := by
    rw [hu'.entries, hu.entries, hcapacity, hkeys]
  have hevictions : c'.counters.evictions = c.counters.evictions := by
    apply UInt64.toNat_inj.1
    rcases hfree with hnodup | hfits
    · have hall := hu.evictions_of_nodup hnodup
      have hall' := hu'.evictions_of_nodup ((hp.map _).nodup_iff.1 hnodup)
      have hlength := hp.length_eq
      omega
    · rw [(hu.kept hfits).1, (hu'.kept (by rwa [hcapacity, ← hkeys])).1]
  rw [hu.stats_eq, hu'.stats_eq, hsize, hcapacity, hcounters, hevictions]

end Uniform

end Cache

end LedgerCache
