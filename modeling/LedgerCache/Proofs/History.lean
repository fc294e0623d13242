import LedgerCache.Proofs.Queue
import Mathlib.Algebra.BigOperators.Intervals
import Mathlib.Algebra.Order.BigOperators.Group.Finset

namespace LedgerCache

open Finset

/-- The puts that were accepted, in order. They are numbered from zero. -/
abbrev History := List (Key × Payload)

namespace History

def keyAt (h : History) (t : Nat) : Option Key := h[t]?.map (·.1)

def sizeAt (h : History) (t : Nat) : Nat := (h[t]?.map (·.2.size)).getD 0

/-- Among the first `n` puts, none behind put `t` has its key. -/
def Latest (h : History) (n t : Nat) : Prop := ∀ u < n, t < u → h.keyAt u ≠ h.keyAt t

instance (h : History) (n t : Nat) : Decidable (h.Latest n t) :=
  inferInstanceAs (Decidable (∀ u < n, t < u → h.keyAt u ≠ h.keyAt t))

/-- The bytes of the puts from `t` on that are the latest of their keys among the first `n` puts. -/
def load (h : History) (t n : Nat) : Nat := ∑ u ∈ Ico t n with h.Latest n u, h.sizeAt u

/-- Put `t` is the latest of its key, and it had room after each of the puts behind it. -/
structure Stays (h : History) (limit t : Nat) : Prop where
  lt : t < h.length
  latest : h.Latest h.length t
  fits : ∀ n ≤ h.length, t + 1 < n → h.load t n ≤ limit

theorem stays_iff (h : History) (limit t : Nat) :
    h.Stays limit t ↔ t < h.length ∧ h.Latest h.length t ∧
      ∀ n ≤ h.length, t + 1 < n → h.load t n ≤ limit :=
  ⟨fun hs => ⟨hs.lt, hs.latest, hs.fits⟩, fun hs => ⟨hs.1, hs.2.1, hs.2.2⟩⟩

instance (h : History) (limit t : Nat) : Decidable (h.Stays limit t) :=
  decidable_of_iff _ (h.stays_iff limit t).symm

/-- The puts without those whose key is put again, in order. -/
def latestPuts : History → History
  | [] => []
  | x :: h => if x.1 ∈ h.map (·.1) then latestPuts h else x :: latestPuts h

section

variable (h : History) (key : Key) (payload : Payload)

theorem getElem?_append_singleton (t : Nat) (x : Key × Payload) :
    (h ++ [x])[t]? = if t = h.length then some x else h[t]? := by
  grind

theorem keyAt_append {t : Nat} (ht : t < h.length) :
    keyAt (h ++ [(key, payload)]) t = h.keyAt t := by
  rw [keyAt, List.getElem?_append_left ht, keyAt]

theorem sizeAt_append {t : Nat} (ht : t < h.length) :
    sizeAt (h ++ [(key, payload)]) t = h.sizeAt t := by
  rw [sizeAt, List.getElem?_append_left ht, sizeAt]

@[simp] theorem keyAt_length : keyAt (h ++ [(key, payload)]) h.length = some key := by
  simp [keyAt]

@[simp] theorem sizeAt_length : sizeAt (h ++ [(key, payload)]) h.length = payload.size := by
  simp [sizeAt]

theorem latest_append {n : Nat} (hn : n ≤ h.length) (t : Nat) :
    Latest (h ++ [(key, payload)]) n t ↔ h.Latest n t := by
  apply forall₃_congr
  intro u hu htu
  rw [h.keyAt_append key payload (by omega), h.keyAt_append key payload (by omega)]

theorem latest_append_succ {t : Nat} (ht : t < h.length) :
    Latest (h ++ [(key, payload)]) (h.length + 1) t ↔
      h.Latest h.length t ∧ h.keyAt t ≠ some key := by
  have hold := h.latest_append key payload (Nat.le_refl h.length) t
  have hkey := h.keyAt_append key payload ht
  constructor
  · intro hl
    refine ⟨hold.1 fun u hu => hl u (by omega), ?_⟩
    have hlast := hl h.length (by omega) ht
    rw [keyAt_length, hkey] at hlast
    exact hlast.symm
  · rintro ⟨hl, hne⟩ u hu htu
    rcases Nat.lt_succ_iff_lt_or_eq.1 hu with hu | rfl
    · exact hold.2 hl u hu htu
    · rw [keyAt_length, hkey]
      exact hne.symm

theorem load_append {n : Nat} (hn : n ≤ h.length) (t : Nat) :
    load (h ++ [(key, payload)]) t n = h.load t n := by
  apply sum_congr (filter_congr fun u _ => h.latest_append key payload hn u)
  intro u hu
  obtain ⟨hu, -⟩ := mem_filter.1 hu
  exact h.sizeAt_append key payload ((mem_Ico.1 hu).2.trans_le hn)

/-- The last put replaces that of its key and adds its own bytes. -/
theorem load_append_succ {t : Nat} (ht : t ≤ h.length) :
    load (h ++ [(key, payload)]) t (h.length + 1) =
      (∑ u ∈ Ico t h.length with h.Latest h.length u ∧ h.keyAt u ≠ some key, h.sizeAt u) +
        payload.size := by
  have hlast : Latest (h ++ [(key, payload)]) (h.length + 1) h.length := by
    intro u hu hlt
    omega
  rw [load, sum_filter, sum_Ico_succ_top ht, if_pos hlast, sizeAt_length, sum_filter]
  congr 1
  apply sum_congr rfl
  intro u hu
  have hlt := (mem_Ico.1 hu).2
  rw [h.sizeAt_append key payload hlt]
  simp only [h.latest_append_succ key payload hlt]

theorem load_anti {t u : Nat} (htu : t ≤ u) (n : Nat) : h.load u n ≤ h.load t n :=
  sum_le_sum_of_subset (filter_subset_filter _ (Ico_subset_Ico_left htu))

variable {h}

/-- A latest put behind one that stays has had room as well. -/
theorem Stays.of_le {limit t u : Nat} (hs : h.Stays limit t) (htu : t ≤ u) (hu : u < h.length)
    (hl : h.Latest h.length u) : h.Stays limit u := by
  refine ⟨hu, hl, fun n hn hun => ?_⟩
  calc h.load u n ≤ h.load t n := h.load_anti htu n
    _ ≤ limit := hs.fits n hn (by omega)

theorem stays_length (limit : Nat) : Stays (h ++ [(key, payload)]) limit h.length := by
  refine ⟨by simp, fun u hu hlt => ?_, fun n hn hlt => ?_⟩
  · simp at hu
    omega
  · simp at hn
    omega

theorem stays_append_iff {limit t : Nat} (ht : t < h.length) :
    Stays (h ++ [(key, payload)]) limit t ↔ h.Stays limit t ∧ h.keyAt t ≠ some key ∧
      load (h ++ [(key, payload)]) t (h.length + 1) ≤ limit := by
  have hlength : (h ++ [(key, payload)]).length = h.length + 1 := by simp
  have hlatest := h.latest_append_succ key payload ht
  constructor
  · intro hs
    obtain ⟨-, hl, hfits⟩ := hs
    rw [hlength] at hl hfits
    obtain ⟨hl, hne⟩ := hlatest.1 hl
    refine ⟨⟨ht, hl, fun n hn hlt => ?_⟩, hne, hfits _ (Nat.le_refl _) (by omega)⟩
    rw [← h.load_append key payload hn]
    exact hfits n (by omega) hlt
  · intro hs
    obtain ⟨⟨-, hl, hfits⟩, hne, hlast⟩ := hs
    rw [← hlength] at hlatest
    refine ⟨by omega, hlatest.2 ⟨hl, hne⟩, fun n hn hlt => ?_⟩
    rcases Nat.lt_succ_iff_lt_or_eq.1 (hlength ▸ Nat.lt_succ_of_le hn) with hn | rfl
    · rw [h.load_append key payload (by omega)]
      exact hfits n (by omega) hlt
    · exact hlast

/-- The last put replaces that of its key, and all others stay where they are. -/
theorem latestPuts_append :
    latestPuts (h ++ [(key, payload)]) =
      (h.latestPuts.filter fun x => x.1 ≠ key) ++ [(key, payload)] := by
  induction h with
  | nil => simp [latestPuts]
  | cons x h ih =>
    have hmem : x.1 ∈ (h ++ [(key, payload)]).map (·.1) ↔ x.1 ∈ h.map (·.1) ∨ x.1 = key := by simp
    rw [List.cons_append, latestPuts, latestPuts, ih]
    simp only [hmem]
    by_cases hx : x.1 ∈ h.map (·.1)
    · rw [if_pos (.inl hx), if_pos hx]
    · rw [if_neg hx]
      by_cases hkey : x.1 = key
      · rw [if_pos (.inr hkey), List.filter_cons_of_neg (by simp [hkey])]
      · rw [if_neg (not_or.2 ⟨hx, hkey⟩), List.filter_cons_of_pos (by simp [hkey]), List.cons_append]

end

end History

/-- The put that the step made, if it made one. -/
def Step.accepted {nominate : Nomination} (s : Step nominate Reply) : Operation → History
  | .put key payload => if s.result.isOk then [(key, payload)] else []
  | _ => []

namespace Cache

/-- The puts that a run gets accepted. -/
def history {nominate : Nomination} (c : Cache nominate) : List Operation → History
  | [] => []
  | op :: ops => (c.perform op).accepted op ++ (c.perform op).cache.history ops

/-- The cache holds `r`, which is what stays of the puts in `h`. -/
structure Records (c : Cache .oldestFirst) (r : Resident) (h : History) : Prop where
  holds : c.Holds r
  next : r.order.next = h.length
  placed : ∀ (k : Key) (p : Payload) (t : Nat),
    r.index[k]? = some ⟨p, t⟩ ↔ h[t]? = some (k, p) ∧ h.Stays c.capacity.toNat t
  suffix : r.pairs <:+ h.latestPuts
  owners : ∀ x ∈ h, 0 ≤ x.1.owner

theorem records_opened (capacity : UInt64) :
    (opened .oldestFirst capacity).Records (.empty capacity.toNat {}) [] where
  holds := ⟨rfl, rfl, Resident.sound_empty _ _, rfl⟩
  next := rfl
  placed := by simp [Resident.empty]
  suffix := List.nil_suffix
  owners := by simp

namespace Records

variable {c : Cache .oldestFirst} {r : Resident} {h : History}

theorem of_keeps (hr : c.Records r h) {s : Step .oldestFirst Reply} (hs : s.Keeps c) :
    s.cache.Records r h where
  holds := hs.holds hr.holds
  next := hr.next
  placed := by
    rw [hs.capacity]
    exact hr.placed
  suffix := hr.suffix
  owners := hr.owners

/-- What a resident entry has to share its room with: the latest puts from its own on. -/
theorem sum_entries (hr : c.Records r h) (key : Key) {x : Key × Entry} (hx : x ∈ r.entries) :
    (((r.without key).entries.filter fun y => x.2.stamp ≤ y.2.stamp).map fun y => y.2.size).sum =
      ∑ u ∈ Ico x.2.stamp h.length with h.Latest h.length u ∧ h.keyAt u ≠ some key, h.sizeAt u := by
  have hs := hr.holds.sound
  set later := (r.without key).entries.filter fun y => x.2.stamp ≤ y.2.stamp with hlater
  have hmem (y : Key × Entry) : y ∈ later ↔
      y.1 ≠ key ∧ x.2.stamp ≤ y.2.stamp ∧ h[y.2.stamp]? = some (y.1, y.2.payload) ∧
        h.Stays c.capacity.toNat y.2.stamp := by
    rw [hlater, List.mem_filter, hs.entries_without, List.mem_filter, hs.mem_entries, hr.placed]
    simp
    tauto
  have hstamps : (later.map fun y => y.2.stamp).Nodup := by
    refine List.pairwise_map.2 (List.Pairwise.sublist List.filter_sublist ?_)
    exact (hs.without key).sorted.imp fun hlt => Nat.ne_of_lt hlt
  have hsizes : later.map (fun y => y.2.size) = (later.map fun y => y.2.stamp).map h.sizeAt := by
    rw [List.map_map]
    apply List.map_congr_left
    intro y hy
    have hput := ((hmem y).1 hy).2.2.1
    simp [History.sizeAt, hput, Entry.size]
  have hset : (later.map fun y => y.2.stamp).toFinset =
      {u ∈ Ico x.2.stamp h.length | h.Latest h.length u ∧ h.keyAt u ≠ some key} := by
    ext u
    rw [List.mem_toFinset, List.mem_map, mem_filter, mem_Ico]
    constructor
    · intro hu
      obtain ⟨y, hy, rfl⟩ := hu
      obtain ⟨hne, hle, hput, hstays⟩ := (hmem y).1 hy
      refine ⟨⟨hle, hstays.lt⟩, hstays.latest, ?_⟩
      simpa [History.keyAt, hput] using hne
    · intro hu
      obtain ⟨⟨hle, hlt⟩, hlatest, hne⟩ := hu
      have hstays := ((hr.placed x.1 x.2.payload x.2.stamp).1 ((hs.mem_entries _ _).1 hx)).2
      have hput : h[u]? = some h[u] := List.getElem?_eq_getElem hlt
      refine ⟨(h[u].1, ⟨h[u].2, u⟩), (hmem _).2 ⟨?_, hle, hput, hstays.of_le hle hlt hlatest⟩, rfl⟩
      simpa [History.keyAt, hput] using hne
  rw [hsizes, ← List.sum_toFinset _ hstamps, hset]

/-- What an admission keeps: the entries that stay once the new put is made. -/
theorem mem_kept (hr : c.Records r h) {key : Key} {payload : Payload}
    (hsize : payload.size ≤ c.capacity.toNat) (k : Key) (p : Payload) (t : Nat) :
    (k, ⟨p, t⟩) ∈ (r.without key).entries.drop (r.surplus key payload.size) ↔
      h[t]? = some (k, p) ∧ h.Stays c.capacity.toNat t ∧ h.keyAt t ≠ some key ∧
        History.load (h ++ [(key, payload)]) t (h.length + 1) ≤ c.capacity.toNat := by
  have hs := hr.holds.sound
  have hcapacity := hr.holds.capacity
  have hentry : (k, ⟨p, t⟩) ∈ r.entries ↔ h[t]? = some (k, p) ∧ h.Stays c.capacity.toNat t := by
    rw [hs.mem_entries, hr.placed]
  have hkept := drop_excess_eq_filter (fun x : Key × Entry => x.2.size) (fun x => x.2.stamp)
    (r.budget.capacity - payload.size) _ (hs.without key).sorted
  rw [Resident.surplus, hkept, List.mem_filter, decide_eq_true_iff]
  constructor
  · intro hkept
    obtain ⟨hmem, hsum⟩ := hkept
    rw [hs.entries_without, List.mem_filter, decide_eq_true_iff] at hmem
    obtain ⟨hmem, hne⟩ := hmem
    obtain ⟨hput, hstays⟩ := hentry.1 hmem
    rw [hr.sum_entries key hmem] at hsum
    dsimp only at hsum
    refine ⟨hput, hstays, by simpa [History.keyAt, hput] using hne, ?_⟩
    rw [h.load_append_succ key payload hstays.lt.le]
    omega
  · intro hkept
    obtain ⟨hput, hstays, hne, hload⟩ := hkept
    have hmem := hentry.2 ⟨hput, hstays⟩
    have hkey : k ≠ key := by simpa [History.keyAt, hput] using hne
    rw [h.load_append_succ key payload hstays.lt.le] at hload
    rw [hr.sum_entries key hmem, hs.entries_without, List.mem_filter]
    refine ⟨⟨hmem, by simpa using hkey⟩, ?_⟩
    dsimp only
    omega

theorem mem_kept_append (hr : c.Records r h) {key : Key} {payload : Payload}
    (hsize : payload.size ≤ c.capacity.toNat) (k : Key) (p : Payload) (t : Nat) :
    (k, ⟨p, t⟩) ∈ (r.without key).entries.drop (r.surplus key payload.size) ++
        [(key, ⟨payload, h.length⟩)] ↔
      (h ++ [(key, payload)])[t]? = some (k, p) ∧
        History.Stays (h ++ [(key, payload)]) c.capacity.toNat t := by
  rw [List.mem_append, hr.mem_kept hsize, List.mem_singleton, History.getElem?_append_singleton]
  rcases Nat.lt_trichotomy t h.length with hlt | rfl | hgt
  · rw [if_neg hlt.ne, History.stays_append_iff key payload hlt]
    constructor
    · intro hmem
      rcases hmem with hkept | hnew
      · exact hkept
      · simp only [Prod.mk.injEq, Entry.mk.injEq] at hnew
        omega
    · exact .inl
  · rw [if_pos rfl]
    constructor
    · intro hmem
      rcases hmem with ⟨hput, -⟩ | hnew
      · simp at hput
      · simp only [Prod.mk.injEq, Entry.mk.injEq] at hnew
        exact ⟨by rw [hnew.1, hnew.2.1], History.stays_length key payload _⟩
    · intro hstays
      obtain ⟨hput, -⟩ := hstays
      cases hput
      exact .inr rfl
  · have hnone : h[t]? = none := List.getElem?_eq_none hgt.le
    rw [if_neg hgt.ne', hnone]
    constructor
    · intro hmem
      rcases hmem with ⟨hput, -⟩ | hnew
      · cases hput
      · simp only [Prod.mk.injEq, Entry.mk.injEq] at hnew
        omega
    · intro hstays
      obtain ⟨hput, -⟩ := hstays
      cases hput

theorem admission (hr : c.Records r h) {key : Key} {payload : Payload}
    (hv : c.objection key payload.size = none)
    (hfits : payload.size ≤ (r.cleared key (r.oldest key payload.size)).budget.available) :
    (c.admission r key payload (r.oldest key payload.size)).cache.Records
      ((r.cleared key (r.oldest key payload.size)).stored key payload)
      (h ++ [(key, payload)]) := by
  have hs := hr.holds.sound
  obtain ⟨howner, -, hsize⟩ := (hr.holds.objection_eq_none_iff _ _).1 hv
  rw [hr.holds.capacity] at hsize
  have hholds := hr.holds.admission_holds hv hfits
  have hkey := r.index_cleared_self key (r.oldest key payload.size)
  have hnext := r.next_cleared key (r.oldest key payload.size)
  have hentries := (hs.cleared key _).entries_stored hkey hholds.sound
  rw [hs.entries_cleared_oldest, hnext, hr.next] at hentries
  constructor
  case holds => exact hholds
  case next => simp [Resident.stored, hnext, hr.next]
  case placed =>
    intro k p t
    rw [← hholds.sound.mem_entries, hentries]
    exact hr.mem_kept_append hsize k p t
  case suffix =>
    have hold : (r.without key).pairs <:+ h.latestPuts.filter fun x => x.1 ≠ key := by
      rw [hs.pairs_without]
      exact hr.suffix.filter _
    rw [History.latestPuts_append, Resident.pairs, hentries, List.map_append, List.map_drop]
    exact List.suffix_append_self_iff.2 ((List.drop_suffix _ _).trans hold)
  case owners =>
    intro x hx
    rcases List.mem_append.1 hx with hx | hx
    · exact hr.owners x hx
    · rw [List.mem_singleton.1 hx]
      exact howner

theorem of_refused (hr : c.Records r h) {s : Step .oldestFirst Reply} {op : Operation}
    (hs : s.Keeps c) (ha : s.accepted op = []) : s.cache.Records r (h ++ s.accepted op) := by
  rw [ha, List.append_nil]
  exact hr.of_keeps hs

/-- One operation that does not close the cache. -/
theorem perform (hr : c.Records r h) {op : Operation} {ops : List Operation}
    (hb : c.Bounded (op :: ops)) (hop : op ≠ .close) :
    ∃ r', (c.perform op).cache.Records r' (h ++ (c.perform op).accepted op) := by
  cases op with
  | close => exact absurd rfl hop
  | put key payload =>
    cases hv : c.objection key payload.size with
    | some e =>
      have hput := put_of_objection hr.holds.not_closed hv
      refine ⟨r, hr.of_refused ?_ ?_⟩
      · rw [Cache.perform, hput]
        rfl
      · rw [Cache.perform, hput]
        rfl
    | none =>
      have hnext := hb.admits hr.holds.resident (hr.holds.admits_oldestFirst hv)
      obtain ⟨hfits, -, hput⟩ := hr.holds.put_oldestFirst hv hnext
      rw [Cache.perform, hput]
      exact ⟨_, hr.admission hv hfits⟩
  | _ => exact ⟨r, hr.of_refused (c.silent_perform rfl).keeps rfl⟩

theorem after {capacity : UInt64} {ops : List Operation} (hr : c.Records r h)
    (hready : Ready capacity c ops) (hopen : ∀ op ∈ ops, op ≠ .close) :
    ∃ r', (c.after ops).Records r' (h ++ c.history ops) := by
  induction ops generalizing c r h with
  | nil => exact ⟨r, by simpa [Cache.after, Cache.history] using hr⟩
  | cons op ops ih =>
    obtain ⟨hop, hops⟩ := List.forall_mem_cons.1 hopen
    have hclean := hready.sound.clean_perform Nomination.namesOnce_oldestFirst hready.bounded
    obtain ⟨r', hr'⟩ := hr.perform hready.bounded hop
    obtain ⟨r'', hr''⟩ := ih hr' (hready.perform hclean) hops
    refine ⟨r'', ?_⟩
    rw [Cache.history, ← List.append_assoc]
    exact hr''

/-- A lookup gives the put under the key that stays, if one does. -/
theorem get_eq (hr : c.Records r h) (k : Key) :
    ∃ v, (c.get k).result = .ok v ∧
      ∀ p, v = some p ↔ ∃ t, h[t]? = some (k, p) ∧ h.Stays c.capacity.toNat t := by
  have hresult : (c.get k).result = .ok (r.index[k]?.map (·.payload)) := by
    rw [get, hr.holds.resident]
    cases he : r.index[k]? <;> simp [he]
  refine ⟨_, hresult, fun p => ?_⟩
  simp only [← hr.placed, Option.map_eq_some_iff]
  constructor
  · intro hv
    obtain ⟨⟨p', t⟩, he, rfl⟩ := hv
    exact ⟨t, he⟩
  · intro hv
    obtain ⟨t, he⟩ := hv
    exact ⟨⟨p, t⟩, he, rfl⟩

theorem get_of_negative (hr : c.Records r h) {k : Key} (hk : k.owner < 0) :
    (c.get k).result = .ok none := by
  obtain ⟨v, hv, hiff⟩ := hr.get_eq k
  cases v with
  | none => exact hv
  | some p =>
    obtain ⟨t, hput, -⟩ := (hiff p).1 rfl
    have howner := hr.owners _ (List.mem_of_getElem? hput)
    exact absurd hk (Int64.not_lt.2 howner)

end Records

/-- On an open cache a put stays exactly if it is the latest of its key and, after each put behind
it, the latest puts from it on were no more than the capacity. Lookups give what stays and nothing
else, and what stays ends the list of all latest puts. -/
theorem run_resident_iff (capacity : UInt64) (ops : List Operation) (hc : 0 < capacity)
    (hopen : ∀ op ∈ ops, op ≠ .close) :
    ∃ start, create .oldestFirst capacity = .ok start ∧
      (start.cache.admissions ops < wordLimit →
        ∃ r, (start.cache.after ops).resident = some r ∧
          (∀ k p t, r.index[k]? = some ⟨p, t⟩ ↔ (start.cache.history ops)[t]? = some (k, p) ∧
            (start.cache.history ops).Stays capacity.toNat t) ∧
          (∀ k, ∃ v, ((start.cache.after ops).get k).result = .ok v ∧
            ∀ p, v = some p ↔ ∃ t, (start.cache.history ops)[t]? = some (k, p) ∧
              (start.cache.history ops).Stays capacity.toNat t) ∧
          (∀ k : Key, k.owner < 0 → ((start.cache.after ops).get k).result = .ok none) ∧
          r.pairs <:+ (start.cache.history ops).latestPuts) := by
  refine ⟨_, create_eq hc {}, fun hn => ?_⟩
  have hready := ready_opened capacity ops hn
  obtain ⟨r, hr⟩ := (records_opened capacity).after hready hopen
  have hcapacity := (hready.run_oldestFirst.2).capacity
  have hplaced := hr.placed
  have hget := hr.get_eq
  rw [List.nil_append, hcapacity] at hplaced hget
  exact ⟨r, hr.holds.resident, hplaced, hget, fun k hk => hr.get_of_negative hk, hr.suffix⟩

/-- A put that was evicted stays away, though a smaller replacement has made room for it since. -/
theorem run_resident_iff_of_three :
    let ops : List Operation := [.put ⟨1, 0⟩ #[7, 7, 7], .put ⟨2, 0⟩ #[8, 8], .put ⟨2, 0⟩ #[9]]
    let h : History := [(⟨1, 0⟩, #[7, 7, 7]), (⟨2, 0⟩, #[8, 8]), (⟨2, 0⟩, #[9])]
    (0 : UInt64) < 4 ∧ (∀ op ∈ ops, op ≠ .close) ∧
      (opened .oldestFirst 4).admissions ops = 3 ∧ (opened .oldestFirst 4).history ops = h ∧
      ¬h.Stays 4 0 ∧ h.Stays 4 2 ∧
      ∃ r, ((opened .oldestFirst 4).after ops).resident = some r ∧
        (∀ k p t, r.index[k]? = some ⟨p, t⟩ ↔ h[t]? = some (k, p) ∧ h.Stays 4 t) ∧
        r.pairs <:+ h.latestPuts := by
  intro ops h
  have hopen : ∀ op ∈ ops, op ≠ .close := by decide
  have hn : (opened .oldestFirst 4).admissions ops = 3 := by decide +kernel
  have hh : (opened .oldestFirst 4).history ops = h := by decide +kernel
  obtain ⟨start, hstart, hrun⟩ := run_resident_iff 4 ops (by decide) hopen
  rw [create_eq (by decide)] at hstart
  cases hstart
  obtain ⟨r, hr, hplaced, -, -, hsuffix⟩ := hrun (hn ▸ by decide)
  rw [hh] at hplaced hsuffix
  exact ⟨by decide, hopen, hn, hh, by decide, by decide, r, hr, hplaced, hsuffix⟩

end Cache

end LedgerCache
