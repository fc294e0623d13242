import LedgerCache.Proofs.Entries
import Mathlib.Data.List.Nodup

namespace LedgerCache

open Std

namespace Change

theorem andThen_resident (r : Resident) (next : Resident → Change) :
    ({ resident := r } : Change).andThen next = next r := by
  simp [andThen]

theorem andThen_assoc (c : Change) (f g : Resident → Change) :
    (c.andThen f).andThen g = c.andThen fun r => (f r).andThen g := by
  rcases c with ⟨r, events, calls, _ | fault⟩
  · rcases hf : f r with ⟨r', events', calls', _ | fault'⟩ <;> simp [andThen, hf]
  · rfl

end Change

namespace Resident

/-- What is resident once the keys are gone. -/
def withoutAll (r : Resident) (keys : List Key) : Resident := keys.foldl without r

/-- The entries that leave when the keys go one after another. A key that is not resident, or not
any more, stands for none. -/
def leaving (r : Resident) : List Key → List (Key × Entry)
  | [] => []
  | k :: ks => (r.index[k]?.map fun e => (k, e)).toList ++ (r.without k).leaving ks

def evictions (gone : List (Key × Entry)) : Array Event :=
  (gone.map fun x => .evicted x.1 x.2.size).toArray

def forgets (gone : List (Key × Entry)) : Array PolicyCall :=
  (gone.map fun x => .forgotten x.2.stamp).toArray

theorem withoutAll_cons (r : Resident) (k : Key) (ks : List Key) :
    r.withoutAll (k :: ks) = (r.without k).withoutAll ks := rfl

theorem next_withoutAll (r : Resident) (ks : List Key) :
    (r.withoutAll ks).order.next = r.order.next := by
  induction ks generalizing r with
  | nil => rfl
  | cons k ks ih => rw [withoutAll_cons, ih, next_without]

theorem capacity_withoutAll (r : Resident) (ks : List Key) :
    (r.withoutAll ks).budget.capacity = r.budget.capacity := by
  induction ks generalizing r with
  | nil => rfl
  | cons k ks ih => rw [withoutAll_cons, ih, capacity_without]

theorem index_withoutAll (r : Resident) (ks : List Key) (k : Key) :
    (r.withoutAll ks).index[k]? = if k ∈ ks then none else r.index[k]? := by
  induction ks generalizing r with
  | nil => simp [withoutAll]
  | cons k' ks ih =>
    rw [withoutAll_cons, ih, index_without]
    simp only [List.mem_cons]
    grind

theorem leaving_of_nodup (r : Resident) {ks : List Key} (hn : ks.Nodup) :
    r.leaving ks = ks.filterMap fun k => r.index[k]?.map fun e => (k, e) := by
  induction ks generalizing r with
  | nil => rfl
  | cons k ks ih =>
    obtain ⟨hk, hks⟩ := List.nodup_cons.1 hn
    have hrest : ks.filterMap (fun k' => (r.without k).index[k']?.map fun e => (k', e)) =
        ks.filterMap fun k' => r.index[k']?.map fun e => (k', e) := by
      apply List.filterMap_congr
      intro k' hk'
      have hne : k' ≠ k := fun h => hk (h ▸ hk')
      rw [index_without, if_neg hne]
    rw [leaving, ih _ hks, hrest, List.filterMap_cons]
    cases r.index[k]? <;> rfl

/-- Each resident key that is named leaves once. -/
theorem keys_leaving (r : Resident) (ks : List Key) :
    ((r.leaving ks).map (·.1)).Nodup ∧
      ∀ k, k ∈ (r.leaving ks).map (·.1) ↔ k ∈ ks ∧ k ∈ r.index := by
  induction ks generalizing r with
  | nil => simp [leaving]
  | cons k ks ih =>
    obtain ⟨hnodup, hmem⟩ := ih (r.without k)
    have hwithout (k' : Key) : k' ∈ (r.without k).index ↔ k' ≠ k ∧ k' ∈ r.index := by
      rw [TreeMap.mem_iff_isSome_getElem?, TreeMap.mem_iff_isSome_getElem?, index_without]
      split <;> simp_all
    have hk : k ∈ r.index ↔ r.index[k]?.isSome := TreeMap.mem_iff_isSome_getElem?
    rw [leaving, List.map_append]
    cases he : r.index[k]? with
    | none =>
      refine ⟨by simpa using hnodup, fun k' => ?_⟩
      simp only [Option.map_none, Option.toList_none, List.map_nil, List.nil_append, hmem, hwithout,
        List.mem_cons]
      grind
    | some e =>
      refine ⟨?_, fun k' => ?_⟩
      · refine List.nodup_cons.2 ⟨fun h => ?_, hnodup⟩
        exact ((hwithout k).1 ((hmem k).1 h).2).1 rfl
      · simp only [Option.map_some, Option.toList_some, List.map_cons, List.map_nil,
          List.singleton_append, List.mem_cons, hmem, hwithout]
        grind

theorem mem_leaving (r : Resident) (ks : List Key) (k : Key) (e : Entry) :
    (k, e) ∈ r.leaving ks ↔ k ∈ ks ∧ r.index[k]? = some e := by
  induction ks generalizing r with
  | nil => simp [leaving]
  | cons k' ks ih =>
    rw [leaving, List.mem_append, ih, index_without, Option.mem_toList, List.mem_cons]
    by_cases hk : k = k'
    · subst hk
      simp
    · cases r.index[k']? <;> simp [hk, Ne.symm hk]

theorem length_leaving_of_nodup (r : Resident) {ks : List Key} (hn : ks.Nodup)
    (hks : ∀ k ∈ ks, k ∈ r.index) : (r.leaving ks).length = ks.length := by
  obtain ⟨hnodup, hmem⟩ := r.keys_leaving ks
  have hperm : ((r.leaving ks).map (·.1)).Perm ks :=
    (List.perm_ext_iff_of_nodup hnodup hn).2 fun k => by
      rw [hmem]
      exact ⟨fun h => h.1, fun h => ⟨h, hks k h⟩⟩
  rw [← hperm.length_eq, List.length_map]

theorem size_without (r : Resident) (key : Key) :
    (r.without key).index.size + r.index[key]?.toList.length = r.index.size := by
  cases he : r.index[key]? with
  | none => rw [without_of_none he, Option.toList_none, List.length_nil, Nat.add_zero]
  | some e =>
    have hlength := (perm_erase he).length_eq
    rw [List.length_cons, TreeMap.length_toList, TreeMap.length_toList] at hlength
    rw [without_of_some he, Option.toList_some, List.length_singleton, hlength]

theorem size_withoutAll (r : Resident) (ks : List Key) :
    (r.withoutAll ks).index.size + (r.leaving ks).length = r.index.size := by
  induction ks generalizing r with
  | nil => rfl
  | cons k ks ih =>
    have htail := ih (r.without k)
    have hhead := r.size_without k
    rw [withoutAll_cons, leaving, List.length_append, Option.length_toList, Option.isSome_map,
      ← Option.length_toList]
    omega

theorem fault_store_of_full (r : Resident) (key : Key) {payload : Payload}
    (hfull : r.budget.available < payload.size) (hnext : r.order.next + 1 < wordLimit) :
    (r.store key payload).fault = some .overcommitted := by
  have hfits : ¬payload.size ≤ r.budget.available := by omega
  rw [store, AdmissionOrder.push, checkedAdd_eq_ok _ _ hnext]
  simp [Except.map, Budget.charge, Budget.fits, hfits]

/-- Without a stamp for it nothing is stored. -/
theorem store_of_last (r : Resident) (key : Key) (payload : Payload)
    (hlast : ¬r.order.next + 1 < wordLimit) :
    r.store key payload = { resident := r, fault := some .additionOverflow } := by
  rw [store, AdmissionOrder.push, checkedAdd, if_neg hlast]
  rfl

theorem fault_store_of_last (r : Resident) (key : Key) (payload : Payload)
    (hlast : ¬r.order.next + 1 < wordLimit) :
    (r.store key payload).fault = some .additionOverflow := by
  rw [store_of_last r key payload hlast]

theorem evictAll_cons (r : Resident) (k : Key) (ks : List Key) :
    r.evictAll (k :: ks) = (r.evict k).andThen (·.evictAll ks) := by
  have hfold (c : Change) :
      ks.foldl (fun c k => c.andThen (·.evict k)) c = c.andThen (·.evictAll ks) := by
    induction ks generalizing c with
    | nil => rcases c with ⟨r, events, calls, _ | fault⟩ <;> simp [evictAll, Change.andThen]
    | cons k ks ih =>
      rw [List.foldl_cons, ih, Change.andThen_assoc]
      congr
      funext r
      rw [evictAll, List.foldl_cons, ih, Change.andThen_resident]
  rw [evictAll, List.foldl_cons, Change.andThen_resident, hfold]

namespace Sound

variable {r : Resident}

theorem withoutAll (hs : r.Sound) (ks : List Key) : (r.withoutAll ks).Sound := by
  induction ks generalizing r with
  | nil => exact hs
  | cons k ks ih => exact ih (hs.without k)

theorem entries_withoutAll (hs : r.Sound) (ks : List Key) :
    (r.withoutAll ks).entries = r.entries.filter fun x => x.1 ∉ ks := by
  induction ks generalizing r with
  | nil => simp [Resident.withoutAll]
  | cons k ks ih =>
    rw [withoutAll_cons, ih (hs.without k), hs.entries_without, List.filter_filter]
    apply List.filter_congr
    intro x _
    grind

theorem used_withoutAll (hs : r.Sound) (ks : List Key) :
    (r.withoutAll ks).budget.used + ((r.leaving ks).map fun x => x.2.size).sum = r.budget.used := by
  induction ks generalizing r with
  | nil => simp [Resident.withoutAll, leaving]
  | cons k ks ih =>
    have htail := ih (hs.without k)
    have hused := r.used_without k
    rw [withoutAll_cons, leaving, List.map_append, List.sum_append]
    cases he : r.index[k]? with
    | none =>
      simp only [sizeAt, he, Option.map_none, Option.getD_none] at hused
      simp only [Option.map_none, Option.toList_none, List.map_nil, List.sum_nil]
      omega
    | some e =>
      have hle := hs.size_le_used he
      simp only [sizeAt, he, Option.map_some, Option.getD_some] at hused
      simp only [Option.map_some, Option.toList_some, List.map_cons, List.map_nil, List.sum_cons,
        List.sum_nil]
      omega

/-- Taking an entry out never fails. -/
theorem remove_eq (hs : r.Sound) (k : Key) :
    r.remove k = { resident := r.without k, calls := forgets (r.leaving [k]) } := by
  cases he : r.index[k]? with
  | none => simp [remove, without_of_none he, leaving, forgets, he]
  | some e =>
    have hrelease := r.budget.release_eq_ok e.size (hs.size_le_used he)
    simp [remove, without_of_some he, leaving, forgets, he, hrelease]

theorem evict_eq (hs : r.Sound) (k : Key) :
    r.evict k = { resident := r.without k, events := evictions (r.leaving [k])
                  calls := forgets (r.leaving [k]) } := by
  rw [evict, hs.remove_eq]
  cases he : r.index[k]? with
  | none => simp [leaving, evictions, he]
  | some e => simp [leaving, evictions, he]

theorem evictAll_eq (hs : r.Sound) (ks : List Key) :
    r.evictAll ks = { resident := r.withoutAll ks, events := evictions (r.leaving ks)
                      calls := forgets (r.leaving ks) } := by
  induction ks generalizing r with
  | nil => rfl
  | cons k ks ih =>
    rw [evictAll_cons, hs.evict_eq, Change.andThen, ih (hs.without k)]
    simp [withoutAll_cons, leaving, evictions, forgets]

theorem store_eq (hs : r.Sound) {key : Key} {payload : Payload} (hkey : r.index[key]? = none)
    (howner : 0 ≤ key.owner) (hsize : 0 < payload.size) (hfits : payload.size ≤ r.budget.available)
    (hnext : r.order.next + 1 < wordLimit) :
    r.store key payload =
      { resident := r.stored key payload, calls := #[.admitted key r.order.next] } := by
  have hstored := (hs.stored hkey howner hsize hfits).size_order
  rw [store, AdmissionOrder.push, checkedAdd_eq_ok _ _ hnext]
  simp only [Except.map, r.budget.charge_eq_ok _ hfits]
  exact congrArg _ (if_pos hstored)

theorem leaving_take (hs : r.Sound) (n : Nat) :
    r.leaving ((r.entries.take n).map (·.1)) = r.entries.take n := by
  have hnodup : ((r.entries.take n).map (·.1)).Nodup :=
    hs.nodup_keys.sublist ((List.take_sublist n _).map _)
  have hentry (x : Key × Entry) (hx : x ∈ r.entries.take n) :
      (r.index[x.1]?.map fun e => (x.1, e)) = some x := by
    rw [(hs.mem_entries x.1 x.2).1 (List.mem_of_mem_take hx)]
    rfl
  rw [r.leaving_of_nodup hnodup, List.filterMap_map]
  exact (List.filterMap_congr hentry).trans (List.filterMap_some)

theorem entries_withoutAll_take (hs : r.Sound) (n : Nat) :
    (r.withoutAll ((r.entries.take n).map (·.1))).entries = r.entries.drop n := by
  have hkeys := hs.nodup_keys
  rw [hs.entries_withoutAll]
  generalize r.entries = l at hkeys
  rw [← l.take_append_drop n, List.map_append, List.nodup_append] at hkeys
  have htake : (l.take n).filter (fun x => x.1 ∉ (l.take n).map (·.1)) = [] := by
    apply List.filter_eq_nil_iff.2
    intro x hx
    have hmem : x.1 ∈ (l.take n).map (·.1) := List.mem_map_of_mem hx
    simpa using hmem
  have hdrop : (l.drop n).filter (fun x => x.1 ∉ (l.take n).map (·.1)) = l.drop n := by
    refine List.filter_eq_self.2 fun x hx => decide_eq_true fun hmem => ?_
    exact hkeys.2.2 _ hmem _ (List.mem_map_of_mem hx) rfl
  conv_lhs => rw [← l.take_append_drop n, List.filter_append]
  simp only [List.take_append_drop, htake, hdrop, List.nil_append]

end Sound

/-- The resident set when the room for a new entry under `key` is made. -/
def cleared (r : Resident) (key : Key) (victims : List Key) : Resident :=
  (r.without key).withoutAll victims

theorem next_cleared (r : Resident) (key : Key) (victims : List Key) :
    (r.cleared key victims).order.next = r.order.next := by
  rw [cleared, next_withoutAll, next_without]

theorem capacity_cleared (r : Resident) (key : Key) (victims : List Key) :
    (r.cleared key victims).budget.capacity = r.budget.capacity := by
  rw [cleared, capacity_withoutAll, capacity_without]

theorem index_cleared (r : Resident) (key : Key) (victims : List Key) (k : Key) :
    (r.cleared key victims).index[k]? = if k = key ∨ k ∈ victims then none else r.index[k]? := by
  rw [cleared, index_withoutAll, index_without]
  grind

theorem index_cleared_self (r : Resident) (key : Key) (victims : List Key) :
    (r.cleared key victims).index[key]? = none := by
  rw [index_cleared, if_pos (.inl rfl)]

/-- The entries of `r` that are gone from `r'`, but for that under `key`. -/
def departed (r r' : Resident) (key : Key) : List (Key × Entry) :=
  r.index.toList.filter fun x => x.1 ≠ key ∧ x.1 ∉ r'.index

theorem departed_self (r : Resident) (key : Key) : r.departed r key = [] := by
  refine List.filter_eq_nil_iff.2 fun x hx => ?_
  have hmem := TreeMap.mem_iff_isSome_getElem?.2
    (Option.isSome_iff_exists.2 ⟨x.2, TreeMap.mem_toList_iff_getElem?_eq_some.1 hx⟩)
  simp [hmem]

theorem departed_stored (r : Resident) (key : Key) (payload : Payload) (victims : List Key) :
    (r.departed ((r.cleared key victims).stored key payload) key).Perm
      ((r.without key).leaving victims) := by
  have hleaving := ((r.without key).keys_leaving victims).1
  apply (List.perm_ext_iff_of_nodup ((nodup_toList _).filter _) (List.Nodup.of_map _ hleaving)).2
  intro x
  rw [List.mem_filter, TreeMap.mem_toList_iff_getElem?_eq_some, mem_leaving, index_without,
    decide_eq_true_iff, TreeMap.mem_iff_isSome_getElem?, index_stored, index_cleared]
  by_cases hk : x.1 = key
  · simp [hk]
  · by_cases hv : x.1 ∈ victims
    · simp [hk, hv]
    · have hstays : r.index[x.1]? = some x.2 → r.index[x.1]?.isSome := by
        intro hx
        rw [hx, Option.isSome_some]
      simpa [hk, hv] using hstays

theorem size_stored {r : Resident} {key : Key} (hkey : r.index[key]? = none) (payload : Payload) :
    (r.stored key payload).index.size = r.index.size + 1 := by
  have hlength := (perm_insert ⟨payload, r.order.next⟩ hkey).length_eq
  rw [List.length_cons, TreeMap.length_toList, TreeMap.length_toList] at hlength
  exact hlength.symm

/-- An admission trades the victims and what was under the key for one entry. -/
theorem size_admitted (r : Resident) (key : Key) (payload : Payload) (victims : List Key) :
    ((r.cleared key victims).stored key payload).index.size +
      ((r.without key).leaving victims).length + r.index[key]?.toList.length =
        r.index.size + 1 := by
  have hold := r.size_without key
  have hleft := (r.without key).size_withoutAll victims
  rw [size_stored (r.index_cleared_self key victims), cleared]
  omega

namespace Sound

variable {r : Resident}

theorem cleared (hs : r.Sound) (key : Key) (victims : List Key) : (r.cleared key victims).Sound :=
  (hs.without key).withoutAll victims

theorem used_cleared (hs : r.Sound) (key : Key) (victims : List Key) :
    (r.cleared key victims).budget.used + r.sizeAt key +
      (((r.without key).leaving victims).map fun x => x.2.size).sum = r.budget.used := by
  have hused := (hs.without key).used_withoutAll victims
  have hold := r.used_without key
  have hle := hs.sizeAt_le_used key
  rw [Resident.cleared]
  omega

/-- What is free once the room is made: what was free, the replaced bytes and those that left. -/
theorem available_cleared (hs : r.Sound) (key : Key) (victims : List Key) :
    (r.cleared key victims).budget.available =
      r.budget.available + r.sizeAt key +
        (((r.without key).leaving victims).map fun x => x.2.size).sum := by
  have hused := hs.used_cleared key victims
  have hcapacity := r.capacity_cleared key victims
  have hfits := hs.fits
  simp only [Budget.available, hcapacity]
  omega

theorem accept_eq (hs : r.Sound) {key : Key} {payload : Payload} {victims : List Key}
    (howner : 0 ≤ key.owner) (hsize : 0 < payload.size)
    (hfits : payload.size ≤ (r.cleared key victims).budget.available)
    (hnext : r.order.next + 1 < wordLimit) :
    r.accept key payload victims =
      { resident := (r.cleared key victims).stored key payload
        events := evictions ((r.without key).leaving victims)
        calls := forgets (r.leaving [key]) ++ forgets ((r.without key).leaving victims) ++
          #[.admitted key r.order.next] } := by
  have hsound := hs.cleared key victims
  have hkey := r.index_cleared_self key victims
  have hn := r.next_cleared key victims
  have hstore := hsound.store_eq hkey howner hsize hfits (by rw [hn]; exact hnext)
  rw [hn, Resident.cleared] at hstore
  rw [accept, hs.remove_eq, Change.andThen, (hs.without key).evictAll_eq]
  simp [Change.andThen, hstore, Resident.cleared]

theorem fault_accept (hs : r.Sound) {key : Key} {payload : Payload} {victims : List Key} {f : Fault}
    (hstore : ((r.cleared key victims).store key payload).fault = some f) :
    (r.accept key payload victims).fault = some f := by
  rw [accept, hs.remove_eq, Change.andThen, (hs.without key).evictAll_eq]
  simp only [Change.andThen]
  exact hstore

theorem accept_of_last (hs : r.Sound) (key : Key) (payload : Payload) (victims : List Key)
    (hlast : ¬r.order.next + 1 < wordLimit) :
    (r.accept key payload victims).resident = r.cleared key victims ∧
      (r.accept key payload victims).fault = some .additionOverflow := by
  have hstore := (r.cleared key victims).store_of_last key payload (by rwa [r.next_cleared])
  rw [Resident.cleared] at hstore
  rw [accept, hs.remove_eq, Change.andThen, (hs.without key).evictAll_eq]
  simp only [Change.andThen, hstore]
  exact ⟨rfl, trivial⟩

end Sound

end Resident

end LedgerCache
