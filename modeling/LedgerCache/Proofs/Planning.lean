import LedgerCache.Proofs.Changes
import LedgerCache.Proofs.Excess

namespace LedgerCache

open Std

namespace Nomination

/-- Of the keys that a sound order tracks, each is named at most once. Other keys may be named as
often as the policy likes. -/
def NamesOnce (nominate : Nomination) : Prop :=
  ∀ o : AdmissionOrder, o.Sound → ((nominate o).toList.filter (· ∈ o.keys)).Nodup

theorem namesOnce_of_nodup {nominate : Nomination}
    (h : ∀ o : AdmissionOrder, o.Sound → (nominate o).toList.Nodup) : nominate.NamesOnce :=
  fun o ho => (h o ho).filter _

theorem namesOnce_oldestFirst : oldestFirst.NamesOnce := by
  apply namesOnce_of_nodup
  intro o ho
  rw [oldestFirst, AdmissionOrder.toList_nominees]
  exact ho.nodup

/-- The strangers are not tracked, and without them each key stands once. -/
theorem namesOnce_amongStrangers : amongStrangers.NamesOnce := by
  intro o ho
  have hnegative : ¬(0 : Int64) ≤ -1 := by decide
  have hpair (k : Key) (hk : k ∈ o.keys) : [⟨-1, k.sequence⟩, k].filter (· ∈ o.keys) = [k] := by
    have hstranger : (⟨-1, k.sequence⟩ : Key) ∉ o.keys := fun h => hnegative (ho.owners _ h)
    simp [hstranger, hk]
  have hkeys : (o.keys.flatMap fun k => [⟨-1, k.sequence⟩, k].filter (· ∈ o.keys)) = o.keys := by
    rw [List.flatMap_congr hpair, List.flatMap_singleton']
  rw [amongStrangers, Nominees.toList_flatMap, AdmissionOrder.toList_nominees, List.filter_flatMap,
    hkeys]
  exact ho.nodup

end Nomination

namespace Resident

/-- The bytes under the keys, a key that is named again counted again. -/
def bytesAt (r : Resident) (ks : List Key) : Nat := (ks.map r.sizeAt).sum

/-- The bytes that are free for `key` once the entries under `ks` are gone too. -/
def room (r : Resident) (key : Key) (ks : List Key) : Nat :=
  r.budget.available + r.sizeAt key + r.bytesAt ks

/-- The nominees that can make room for an entry under `key`. -/
def candidates (r : Resident) (nominate : Nomination) (key : Key) : List Key :=
  (nominate r.order).toList.filter fun k => k ≠ key ∧ k ∈ r.index

/-- The shortest prefix of the candidates that makes room for `size` bytes under `key`. -/
def chosen (r : Resident) (nominate : Nomination) (key : Key) (size : Nat) : Option (List Key) :=
  (r.candidates nominate key).inits.find? fun ks =>
    size ≤ r.budget.available + r.sizeAt key + r.bytesAt ks

theorem bytesAt_cons (r : Resident) (k : Key) (ks : List Key) :
    r.bytesAt (k :: ks) = r.sizeAt k + r.bytesAt ks := by
  simp [bytesAt]

theorem bytesAt_le (r : Resident) {ks ks' : List Key} (h : ks <+: ks') :
    r.bytesAt ks ≤ r.bytesAt ks' :=
  (h.sublist.map _).sum_le_sum fun _ _ => Nat.zero_le _

private theorem find?_inits_of_nil (p : List Key → Bool) (ks : List Key) (h : p [] = true) :
    ks.inits.find? p = some [] := by
  cases ks <;> simp [h]

theorem collect_eq (r : Resident) (key : Key) (size room : Nat) (ns : Nominees)
    (victims : Array Key) (hroom : room < size) (hsize : size < wordLimit) :
    r.collect key size ns room victims =
      match (ns.toList.filter fun k => k ≠ key ∧ k ∈ r.index).inits.find?
          fun ks => size ≤ room + r.bytesAt ks with
      | none => .ok none
      | some ks =>
        if room + r.bytesAt ks < wordLimit then .ok (some (victims.toList ++ ks))
        else .error .additionOverflow := by
  induction ns generalizing room victims with
  | none =>
    have hneed : ¬size ≤ room := by omega
    simp [collect, bytesAt, hneed]
  | next k rest ih =>
    rw [collect, Nominees.toList_next, List.filter_cons]
    by_cases hkey : k = key
    · simp [hkey, ih () room victims hroom]
    rw [if_neg hkey]
    have hmem : k ∈ r.index ↔ r.index[k]?.isSome := TreeMap.mem_iff_isSome_getElem?
    cases he : r.index[k]? with
    | none =>
      have hk : k ∉ r.index := by simp [hmem, he]
      simp [hkey, hk, ih () room victims hroom]
    | some e =>
      have hk : k ∈ r.index := by simp [hmem, he]
      have hweight : r.sizeAt k = e.size := by simp [sizeAt, he]
      have hneed : ¬size ≤ room + r.bytesAt [] := by simp [bytesAt]; omega
      have hcons : ((fun ks => decide (size ≤ room + r.bytesAt ks)) ∘ fun ks => k :: ks) =
          fun ks => decide (size ≤ room + e.size + r.bytesAt ks) := by
        funext ks
        simp [bytesAt_cons, hweight, Nat.add_assoc]
      simp only [hkey, hk, ne_eq, not_false_eq_true, and_self, decide_true, if_true,
        List.inits_cons, List.find?_cons, hneed, decide_false, List.find?_map, hcons]
      by_cases hfit : size ≤ room + e.size
      · rw [find?_inits_of_nil _ _ (by simp [bytesAt, hfit])]
        by_cases hadd : room + e.size < wordLimit <;>
          simp [checkedAdd, hadd, hfit, bytesAt, hweight]
      · have htail := ih () (room + e.size) (victims.push k) (by omega)
        rw [checkedAdd_eq_ok _ _ (by omega)]
        simp only [hfit, if_false, htail, ne_eq]
        cases List.find? _ _ with
        | none => rfl
        | some ks => simp [bytesAt_cons, hweight, Nat.add_assoc]

theorem Sound.plan_eq {r : Resident} (hs : r.Sound) (nominate : Nomination) (key : Key) (size : Nat)
    (hcapacity : r.budget.capacity < wordLimit) (hsize : size < wordLimit) :
    r.plan nominate key size =
      match r.chosen nominate key size with
      | none => .ok none
      | some ks =>
        if r.budget.available + r.sizeAt key + r.bytesAt ks < wordLimit then .ok (some ks)
        else .error .additionOverflow := by
  have hroom : r.budget.available + r.sizeAt key < wordLimit := by
    have hle := hs.sizeAt_le_used key
    have hfits := hs.fits
    simp only [Budget.available]
    omega
  rw [plan, checkedAdd_eq_ok _ _ hroom, chosen]
  by_cases hfit : size ≤ r.budget.available + r.sizeAt key
  · rw [find?_inits_of_nil _ _ (by simp [bytesAt, hfit])]
    simp [bytesAt, hfit, hroom]
  · have hcollect := r.collect_eq key size (r.budget.available + r.sizeAt key) (nominate r.order) #[]
      (by omega) hsize
    simp only [if_neg hfit, hcollect, candidates]
    rfl

/-- What is chosen ends as soon as it makes enough room. -/
theorem chosen_eq_some {r : Resident} {nominate : Nomination} {key : Key} {size : Nat}
    {ks : List Key} (h : r.chosen nominate key size = some ks) :
    ∃ n ≤ (r.candidates nominate key).length, ks = (r.candidates nominate key).take n ∧
      size ≤ r.budget.available + r.sizeAt key + r.bytesAt ks ∧
      ∀ m < n, r.budget.available + r.sizeAt key +
        r.bytesAt ((r.candidates nominate key).take m) < size := by
  obtain ⟨henough, n, hn, hget, hfirst⟩ := List.find?_eq_some_iff_getElem.1 h
  rw [List.length_inits] at hn
  rw [List.getElem_inits] at hget
  refine ⟨n, by omega, hget.symm, by simpa using henough, fun m hm => ?_⟩
  have hshort := hfirst m hm
  rw [List.getElem_inits] at hshort
  simpa using hshort

/-- Nothing is chosen exactly if not even all candidates make enough room. -/
theorem chosen_eq_none_iff {r : Resident} {nominate : Nomination} {key : Key} {size : Nat} :
    r.chosen nominate key size = none ↔ r.room key (r.candidates nominate key) < size := by
  rw [chosen, List.find?_eq_none, room]
  constructor
  · intro h
    have hall := h _ ((List.mem_inits _ _).2 (List.prefix_refl _))
    simpa using hall
  · intro h ks hks
    have hle := r.bytesAt_le ((List.mem_inits _ _).1 hks)
    simp only [decide_eq_true_eq]
    omega

theorem mem_candidates {r : Resident} {nominate : Nomination} {key k : Key}
    (hk : k ∈ r.candidates nominate key) : k ≠ key ∧ k ∈ r.index := by
  simpa using (List.mem_filter.1 hk).2

theorem Sound.length_le_bytesAt {r : Resident} (hs : r.Sound) {ks : List Key}
    (hks : ∀ k ∈ ks, k ∈ r.index) : ks.length ≤ r.bytesAt ks := by
  have hpos : ∀ n ∈ ks.map r.sizeAt, 1 ≤ n := by
    intro n hn
    obtain ⟨k, hk, rfl⟩ := List.mem_map.1 hn
    obtain ⟨e, he⟩ := Option.isSome_iff_exists.1 (TreeMap.mem_iff_isSome_getElem?.1 (hks k hk))
    have hsize : 1 ≤ e.size := hs.payloads k e he
    simpa [sizeAt, he] using hsize
  have hlength := List.length_le_sum_of_one_le _ hpos
  rwa [List.length_map] at hlength

/-- No plan names more victims than it needs bytes. -/
theorem Sound.length_chosen_le {r : Resident} (hs : r.Sound) {nominate : Nomination} {key : Key}
    {size : Nat} {ks : List Key} (h : r.chosen nominate key size = some ks) : ks.length ≤ size := by
  obtain ⟨n, hn, rfl, -, hfirst⟩ := chosen_eq_some h
  rw [List.length_take, Nat.min_eq_left hn]
  cases n with
  | zero => exact Nat.zero_le _
  | succ n =>
    have hshort := hfirst n (Nat.lt_succ_self n)
    have hmem : ∀ k ∈ (r.candidates nominate key).take n, k ∈ r.index :=
      fun k hk => (mem_candidates (List.mem_of_mem_take hk)).2
    have hlength := hs.length_le_bytesAt hmem
    rw [List.length_take, Nat.min_eq_left (by omega)] at hlength
    omega

theorem Sound.nodup_chosen {r : Resident} (hs : r.Sound) {nominate : Nomination}
    (hn : nominate.NamesOnce) {key : Key} {size : Nat} {ks : List Key}
    (h : r.chosen nominate key size = some ks) : ks.Nodup := by
  have htracked : (r.candidates nominate key).Nodup := by
    refine (hn r.order hs.order).sublist (List.monotone_filter_right _ fun k hk => ?_)
    have hmem := (of_decide_eq_true hk).2
    simpa using (hs.mem_keys k).2 hmem
  obtain ⟨n, -, rfl, -⟩ := chosen_eq_some h
  exact htracked.sublist (List.take_sublist _ _)

/-- The bytes of victims of which none is named again are those that leave. -/
theorem sum_leaving_of_nodup {r : Resident} {nominate : Nomination} {key : Key} {size : Nat}
    {ks : List Key} (h : r.chosen nominate key size = some ks) (hn : ks.Nodup) :
    (((r.without key).leaving ks).map fun x => x.2.size).sum = r.bytesAt ks := by
  obtain ⟨n, -, rfl, -⟩ := chosen_eq_some h
  have hmem : ∀ k ∈ (r.candidates nominate key).take n, k ≠ key :=
    fun k hk => (mem_candidates (List.mem_of_mem_take hk)).1
  rw [leaving_of_nodup _ hn]
  generalize (r.candidates nominate key).take n = ks at hmem
  induction ks with
  | nil => rfl
  | cons k ks ih =>
    have hk : k ≠ key := hmem k (List.mem_cons_self)
    have htail := ih (fun k' hk' => hmem k' (List.mem_cons_of_mem _ hk'))
    rw [bytesAt_cons, ← htail, List.filterMap_cons, index_without, if_neg hk, sizeAt]
    cases r.index[k]? <;> simp

/-- Victims of which none is named again all leave. -/
theorem length_leaving_of_chosen {r : Resident} {nominate : Nomination} {key : Key} {size : Nat}
    {ks : List Key} (h : r.chosen nominate key size = some ks) (hn : ks.Nodup) :
    ((r.without key).leaving ks).length = ks.length := by
  obtain ⟨n, -, hks, -⟩ := chosen_eq_some h
  apply length_leaving_of_nodup _ hn
  intro k hk
  rw [hks] at hk
  obtain ⟨hne, hmem⟩ := mem_candidates (List.mem_of_mem_take hk)
  rw [TreeMap.mem_iff_isSome_getElem?, index_without, if_neg hne, ← TreeMap.mem_iff_isSome_getElem?]
  exact hmem

/-- How many entries beside the one under `key` are in excess once it holds `size` bytes. -/
def surplus (r : Resident) (key : Key) (size : Nat) : Nat :=
  excess (r.budget.capacity - size) ((r.without key).entries.map fun x => x.2.size)

/-- The keys of as many of the oldest entries as are in excess. -/
def oldest (r : Resident) (key : Key) (size : Nat) : List Key :=
  ((r.without key).entries.take (r.surplus key size)).map (·.1)

theorem Sound.nodup_oldest {r : Resident} (hs : r.Sound) (key : Key) (size : Nat) :
    (r.oldest key size).Nodup :=
  (hs.without key).nodup_keys.sublist ((List.take_sublist _ _).map _)

theorem Sound.leaving_oldest {r : Resident} (hs : r.Sound) (key : Key) (size : Nat) :
    (r.without key).leaving (r.oldest key size) =
      (r.without key).entries.take (r.surplus key size) :=
  (hs.without key).leaving_take _

theorem Sound.entries_cleared_oldest {r : Resident} (hs : r.Sound) (key : Key) (size : Nat) :
    (r.cleared key (r.oldest key size)).entries =
      (r.without key).entries.drop (r.surplus key size) :=
  (hs.without key).entries_withoutAll_take _

theorem Sound.chosen_oldestFirst {r : Resident} (hs : r.Sound) (key : Key) (size : Nat)
    (hsize : size ≤ r.budget.capacity) :
    r.chosen .oldestFirst key size = some (r.oldest key size) := by
  have hcandidates : r.candidates .oldestFirst key = (r.without key).entries.map (·.1) := by
    rw [candidates, Nomination.oldestFirst, AdmissionOrder.toList_nominees, hs.keys_eq,
      List.filter_map, hs.entries_without]
    refine congrArg (List.map _) (List.filter_congr fun x hx => ?_)
    have hmem : x.1 ∈ r.index := by
      rw [TreeMap.mem_iff_isSome_getElem?, (hs.mem_entries x.1 x.2).1 hx]
      rfl
    simp [hmem]
  have hsizes : ((r.without key).entries.map (·.1)).map r.sizeAt =
      (r.without key).entries.map fun x => x.2.size := by
    rw [List.map_map]
    apply List.map_congr_left
    intro x hx
    have hindex := ((hs.without key).mem_entries x.1 x.2).1 hx
    rw [index_without] at hindex
    split at hindex
    · cases hindex
    · simp [sizeAt, hindex]
  have hsum := (hs.without key).sum_entries
  have hused := r.used_without key
  have hfits := hs.fits
  have hle := hs.sizeAt_le_used key
  have hroom : r.budget.available + r.sizeAt key +
      (((r.without key).entries.map (·.1)).map r.sizeAt).sum = r.budget.capacity - size + size := by
    rw [hsizes, hsum, hused]
    simp only [Budget.available]
    omega
  rw [chosen, hcandidates, oldest, surplus, List.map_take, ← hsizes]
  exact find?_inits_eq_take_excess r.sizeAt _ _ _ _ hroom

end Resident

end LedgerCache
