import LedgerCache.Resident
import Mathlib.Algebra.Order.BigOperators.Group.List
import Mathlib.Algebra.Order.Ring.Nat
import Mathlib.Data.List.Perm.Basic

namespace LedgerCache

open Std

/-- An order as a cache keeps it: no key is tracked twice, none has a negative owner, and the next
stamp is a new one. -/
structure AdmissionOrder.Sound (o : AdmissionOrder) : Prop where
  nodup : o.keys.Nodup
  owners : ∀ k ∈ o.keys, 0 ≤ k.owner
  recent : ∀ stamp ∈ o.live, stamp < o.next

namespace Resident

/-- The bytes of all payloads in the index. -/
def bytes (r : Resident) : Nat := (r.index.toList.map fun x => x.2.size).sum

/-- Index, order and budget agree: each stamp of the order is that of one entry, and the budget is
charged for exactly the payloads that are held. -/
structure Sound (r : Resident) : Prop where
  used : r.budget.used = r.bytes
  fits : r.budget.used ≤ r.budget.capacity
  tracked : ∀ (stamp : Nat) (k : Key),
    r.order.live[stamp]? = some k ↔ ∃ e : Entry, r.index[k]? = some e ∧ e.stamp = stamp
  recent : ∀ stamp : Nat, stamp ∈ r.order.live → stamp < r.order.next
  payloads : ∀ (k : Key) (e : Entry), r.index[k]? = some e → 0 < e.size
  owners : ∀ k : Key, k ∈ r.index → 0 ≤ k.owner

/-- The resident entries with their keys, oldest admission first. -/
def entries (r : Resident) : List (Key × Entry) :=
  r.order.live.toList.filterMap fun x => r.index[x.2]?.map fun e => (x.2, e)

theorem nodup_toList (index : Index) : index.toList.Nodup :=
  TreeMap.distinct_keys_toList.imp fun hne he => by simp [he] at hne

/-- A list of the entries of an index, each once, lists the index. -/
theorem perm_toList {index : Index} {l : List (Key × Entry)} (hl : l.Nodup)
    (hmem : ∀ (k : Key) (e : Entry), (k, e) ∈ l ↔ index[k]? = some e) : l.Perm index.toList := by
  apply (List.perm_ext_iff_of_nodup hl (nodup_toList index)).2
  intro x
  rw [TreeMap.mem_toList_iff_getElem?_eq_some, ← hmem]

theorem perm_erase {index : Index} {key : Key} {e : Entry} (he : index[key]? = some e) :
    ((key, e) :: (index.erase key).toList).Perm index.toList := by
  refine perm_toList (List.nodup_cons.2 ⟨?_, nodup_toList _⟩) fun k e' => ?_
  · rw [TreeMap.mem_toList_iff_getElem?_eq_some, TreeMap.getElem?_erase_self]
    simp
  · rw [List.mem_cons, TreeMap.mem_toList_iff_getElem?_eq_some, TreeMap.getElem?_erase]
    simp only [LawfulEqCmp.compare_eq_iff_eq]
    grind

theorem perm_insert {index : Index} {key : Key} (e : Entry) (he : index[key]? = none) :
    ((key, e) :: index.toList).Perm (index.insert key e).toList := by
  refine perm_toList (List.nodup_cons.2 ⟨?_, nodup_toList _⟩) fun k e' => ?_
  · rw [TreeMap.mem_toList_iff_getElem?_eq_some, he]
    simp
  · rw [List.mem_cons, TreeMap.mem_toList_iff_getElem?_eq_some, TreeMap.getElem?_insert]
    simp only [LawfulEqCmp.compare_eq_iff_eq]
    grind

theorem sound_empty (capacity : Nat) (order : AdmissionOrder) : (empty capacity order).Sound where
  used := rfl
  fits := Nat.zero_le _
  tracked := by simp [empty, AdmissionOrder.clear]
  recent := by simp [empty, AdmissionOrder.clear]
  payloads := by simp [empty]
  owners := by simp [empty]

namespace Sound

variable {r : Resident}

theorem mem_entries (hs : r.Sound) (k : Key) (e : Entry) :
    (k, e) ∈ r.entries ↔ r.index[k]? = some e := by
  simp only [entries, List.mem_filterMap, TreeMap.mem_toList_iff_getElem?_eq_some, Prod.exists]
  constructor
  · intro hx
    obtain ⟨stamp, k', hk, he⟩ := hx
    obtain ⟨e', hk', h⟩ := Option.map_eq_some_iff.1 he
    cases h
    exact hk'
  · intro he
    exact ⟨e.stamp, k, (hs.tracked _ _).2 ⟨e, he, rfl⟩, by simp [he]⟩

/-- The order lists the entries by stamp. -/
theorem map_entries (hs : r.Sound) :
    r.entries.map (fun x => (x.2.stamp, x.1)) = r.order.live.toList := by
  have hlive (x : Nat × Key) (hx : x ∈ r.order.live.toList) :
      (r.index[x.2]?.map fun e => (x.2, e)).map (fun y => (y.2.stamp, y.1)) = some x := by
    obtain ⟨e, he, hst⟩ := (hs.tracked _ _).1 (TreeMap.mem_toList_iff_getElem?_eq_some.1 hx)
    simp [he, hst]
  rw [entries, List.map_filterMap, List.filterMap_congr hlive, List.filterMap_some]

theorem sorted (hs : r.Sound) : r.entries.Pairwise fun x y => x.2.stamp < y.2.stamp := by
  have h := AdmissionOrder.pairwise_toList r.order.live
  rwa [← hs.map_entries, List.pairwise_map] at h

theorem nodup (hs : r.Sound) : r.entries.Nodup :=
  hs.sorted.imp fun hlt he => by simp [he] at hlt

theorem nodup_keys (hs : r.Sound) : (r.entries.map (·.1)).Nodup := by
  refine List.pairwise_map.2 (hs.sorted.imp_of_mem ?_)
  rintro ⟨k, e⟩ ⟨k', e'⟩ hx hy hlt rfl
  have he := ((hs.mem_entries _ _).1 hx).symm.trans ((hs.mem_entries _ _).1 hy)
  cases he
  exact Nat.lt_irrefl _ hlt

theorem keys_eq (hs : r.Sound) : r.order.keys = r.entries.map (·.1) := by
  rw [AdmissionOrder.keys, AdmissionOrder.listed_eq, ← hs.map_entries, List.map_map]
  rfl

theorem mem_keys (hs : r.Sound) (k : Key) : k ∈ r.order.keys ↔ k ∈ r.index := by
  rw [hs.keys_eq, List.mem_map, TreeMap.mem_iff_isSome_getElem?, Option.isSome_iff_exists]
  constructor
  · intro hk
    obtain ⟨⟨k, e⟩, hx, rfl⟩ := hk
    exact ⟨e, (hs.mem_entries k e).1 hx⟩
  · intro hk
    obtain ⟨e, he⟩ := hk
    exact ⟨(k, e), (hs.mem_entries k e).2 he, rfl⟩

theorem order (hs : r.Sound) : r.order.Sound where
  nodup := by
    rw [hs.keys_eq]
    exact hs.nodup_keys
  owners := fun k hk => hs.owners k ((hs.mem_keys k).1 hk)
  recent := hs.recent

theorem perm (hs : r.Sound) : r.entries.Perm r.index.toList := perm_toList hs.nodup hs.mem_entries

/-- A list of the entries by ascending stamp is the list of entries. -/
theorem entries_eq (hs : r.Sound) {l : List (Key × Entry)}
    (hsorted : l.Pairwise fun x y => x.2.stamp < y.2.stamp)
    (hmem : ∀ (k : Key) (e : Entry), (k, e) ∈ l ↔ r.index[k]? = some e) : r.entries = l :=
  eq_of_ascending (fun x : Key × Entry => x.2.stamp) hs.sorted hsorted fun x => by
    rw [hs.mem_entries, hmem]

theorem sum_entries (hs : r.Sound) : (r.entries.map fun x => x.2.size).sum = r.budget.used := by
  rw [hs.used, bytes, (hs.perm.map _).sum_eq]

theorem length_entries (hs : r.Sound) : r.entries.length = r.index.size := by
  rw [hs.perm.length_eq, TreeMap.length_toList]

theorem size_order (hs : r.Sound) : r.order.size = r.index.size := by
  rw [← hs.length_entries, AdmissionOrder.size, ← TreeMap.length_toList, ← hs.map_entries,
    List.length_map]

theorem size_le_used (hs : r.Sound) {k : Key} {e : Entry} (he : r.index[k]? = some e) :
    e.size ≤ r.budget.used := by
  rw [← hs.sum_entries]
  exact List.le_sum_of_mem (List.mem_map_of_mem (f := fun x => x.2.size) ((hs.mem_entries k e).2 he))

theorem sizeAt_le_used (hs : r.Sound) (k : Key) : r.sizeAt k ≤ r.budget.used := by
  unfold sizeAt
  cases he : r.index[k]? with
  | none => simp
  | some e => simpa using hs.size_le_used he

/-- No payload is empty, so there are no more entries than bytes. -/
theorem size_index_le_used (hs : r.Sound) : r.index.size ≤ r.budget.used := by
  have hpos : ∀ n ∈ r.entries.map fun x => x.2.size, 1 ≤ n := by
    intro n hn
    obtain ⟨⟨k, e⟩, hx, rfl⟩ := List.mem_map.1 hn
    exact hs.payloads k e ((hs.mem_entries k e).1 hx)
  have hlength := List.length_le_sum_of_one_le _ hpos
  rwa [List.length_map, hs.length_entries, hs.sum_entries] at hlength

theorem size_index_eq_zero_iff (hs : r.Sound) : r.index.size = 0 ↔ r.budget.used = 0 := by
  constructor
  · intro h
    rw [← hs.length_entries] at h
    rw [← hs.sum_entries, List.eq_nil_of_length_eq_zero h]
    rfl
  · intro h
    have hle := hs.size_index_le_used
    omega

end Sound

/-- The resident set without the entry under `key`, if there is one. -/
def without (r : Resident) (key : Key) : Resident :=
  match r.index[key]? with
  | none => r
  | some e =>
    { index := r.index.erase key
      order := r.order.forget e.stamp
      budget := { r.budget with used := r.budget.used - e.size } }

theorem without_of_none {r : Resident} {key : Key} (h : r.index[key]? = none) :
    r.without key = r := by
  rw [without, h]

theorem without_of_some {r : Resident} {key : Key} {e : Entry} (h : r.index[key]? = some e) :
    r.without key =
      { index := r.index.erase key
        order := r.order.forget e.stamp
        budget := { r.budget with used := r.budget.used - e.size } } := by
  rw [without, h]

@[simp] theorem next_without (r : Resident) (key : Key) :
    (r.without key).order.next = r.order.next := by
  unfold without; split <;> rfl

@[simp] theorem capacity_without (r : Resident) (key : Key) :
    (r.without key).budget.capacity = r.budget.capacity := by
  unfold without; split <;> rfl

theorem index_without (r : Resident) (key k : Key) :
    (r.without key).index[k]? = if k = key then none else r.index[k]? := by
  cases h : r.index[key]? with
  | none =>
    rw [without_of_none h]
    split
    · next hk => rw [hk, h]
    · rfl
  | some e =>
    rw [without_of_some h, TreeMap.getElem?_erase]
    simp only [LawfulEqCmp.compare_eq_iff_eq, eq_comm (a := k)]

theorem used_without (r : Resident) (key : Key) :
    (r.without key).budget.used = r.budget.used - r.sizeAt key := by
  unfold without sizeAt
  split <;> simp_all

/-- The resident set with the payload under `key` as its newest entry. -/
def stored (r : Resident) (key : Key) (payload : Payload) : Resident :=
  { index := r.index.insert key ⟨payload, r.order.next⟩
    order := { live := r.order.live.insert r.order.next key, next := r.order.next + 1 }
    budget := { r.budget with used := r.budget.used + payload.size } }

@[simp] theorem used_stored (r : Resident) (key : Key) (payload : Payload) :
    (r.stored key payload).budget.used = r.budget.used + payload.size := rfl

theorem index_stored (r : Resident) (key k : Key) (payload : Payload) :
    (r.stored key payload).index[k]? =
      if k = key then some ⟨payload, r.order.next⟩ else r.index[k]? := by
  rw [stored, TreeMap.getElem?_insert]
  simp only [LawfulEqCmp.compare_eq_iff_eq, eq_comm (a := k)]

namespace Sound

variable {r : Resident}

theorem without (hs : r.Sound) (key : Key) : (r.without key).Sound := by
  cases he : r.index[key]? with
  | none =>
    rw [without_of_none he]
    exact hs
  | some e =>
    have hindex := r.index_without key
    have hused := hs.used
    rw [bytes, ← ((perm_erase he).map _).sum_eq, List.map_cons, List.sum_cons] at hused
    rw [without_of_some he] at hindex ⊢
    constructor
    case used =>
      simp only [bytes] at hused ⊢
      omega
    case fits => exact (Nat.sub_le _ _).trans hs.fits
    case tracked =>
      intro stamp k
      have hstamp := (hs.tracked e.stamp key).2 ⟨e, he, rfl⟩
      simp only [hindex, AdmissionOrder.forget, TreeMap.getElem?_erase,
        LawfulEqCmp.compare_eq_iff_eq]
      by_cases hk : k = key
      · have hlive : r.order.live[stamp]? = some k → stamp = e.stamp := by
          intro h
          obtain ⟨e', he', rfl⟩ := (hs.tracked _ _).1 h
          rw [hk, he] at he'
          cases he'
          rfl
        grind
      · have := hs.tracked stamp k
        grind
    case recent =>
      intro stamp hstamp
      exact hs.recent stamp (TreeMap.mem_of_mem_erase hstamp)
    case payloads =>
      intro k e' hk
      rw [hindex] at hk
      split at hk
      · cases hk
      · exact hs.payloads k e' hk
    case owners =>
      intro k hk
      exact hs.owners k (TreeMap.mem_of_mem_erase hk)

theorem entries_without (hs : r.Sound) (key : Key) :
    (r.without key).entries = r.entries.filter fun x => x.1 ≠ key := by
  apply (hs.without key).entries_eq (hs.sorted.sublist List.filter_sublist)
  intro k e
  rw [List.mem_filter, hs.mem_entries, index_without]
  grind

theorem stored (hs : r.Sound) {key : Key} {payload : Payload} (hkey : r.index[key]? = none)
    (howner : 0 ≤ key.owner) (hsize : 0 < payload.size) (hfits : payload.size ≤ r.budget.available) :
    (r.stored key payload).Sound := by
  have hindex := r.index_stored key
  have hnext : r.order.live[r.order.next]? = none := by
    rw [TreeMap.getElem?_eq_none]
    exact fun h => Nat.lt_irrefl _ (hs.recent _ h)
  constructor
  case used =>
    rw [bytes, Resident.stored, ← ((perm_insert _ hkey).map _).sum_eq, List.map_cons, List.sum_cons]
    simp only [hs.used, bytes, Entry.size]
    omega
  case fits =>
    have hle := hs.fits
    simp only [Budget.available] at hfits
    simp only [Resident.stored]
    omega
  case tracked =>
    intro stamp k
    have hold := hs.tracked stamp k
    simp only [hindex]
    simp only [Resident.stored, TreeMap.getElem?_insert, LawfulEqCmp.compare_eq_iff_eq]
    by_cases hk : k = key
    · subst hk
      simp only [if_true, Option.some.injEq, exists_eq_left']
      split
      · next hst => simp [hst]
      · next hst => simp [hold, hkey, hst]
    · simp only [if_neg hk, ← hold]
      split
      · next hst => simp [← hst, hnext, Ne.symm hk]
      · rfl
  case recent =>
    intro stamp hstamp
    rcases TreeMap.mem_insert.1 hstamp with h | h
    · simp at h
      simp [Resident.stored, ← h]
    · exact (hs.recent stamp h).trans (Nat.lt_succ_self _)
  case payloads =>
    intro k e hk
    rw [hindex] at hk
    split at hk
    · cases hk
      exact hsize
    · exact hs.payloads k e hk
  case owners =>
    intro k hk
    rcases TreeMap.mem_insert.1 hk with h | h
    · rw [LawfulEqCmp.compare_eq_iff_eq] at h
      rwa [← h]
    · exact hs.owners k h

theorem entries_stored (hs : r.Sound) {key : Key} {payload : Payload} (hkey : r.index[key]? = none)
    (hr : (r.stored key payload).Sound) :
    (r.stored key payload).entries = r.entries ++ [(key, ⟨payload, r.order.next⟩)] := by
  refine hr.entries_eq ?_ fun k e => ?_
  · refine List.pairwise_append.2 ⟨hs.sorted, List.pairwise_singleton _ _, ?_⟩
    rintro ⟨k, e⟩ hx y hy
    rw [List.mem_singleton.1 hy]
    have hlive := (hs.tracked e.stamp k).2 ⟨e, (hs.mem_entries k e).1 hx, rfl⟩
    exact hs.recent _ (TreeMap.mem_iff_isSome_getElem?.2 (by rw [hlive]; rfl))
  · rw [List.mem_append, hs.mem_entries, index_stored, List.mem_singleton]
    grind

end Sound

end Resident

end LedgerCache
