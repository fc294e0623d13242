import LedgerCache.Proofs.Runs
import Mathlib.Data.List.Perm.Subperm

namespace LedgerCache

open Std

namespace Resident

/-- How many entries of `r` are gone from `r'`, but for that under `key`. -/
def departures (r r' : Resident) (key : Key) : Nat :=
  (r.index.keys.filter fun k => k ≠ key ∧ k ∉ r'.index).length

/-- Victims that are named again leave once. -/
theorem length_leaving_lt (r : Resident) {ks : List Key} (hks : ¬ks.Nodup) :
    (r.leaving ks).length < ks.length := by
  obtain ⟨hnodup, hmem⟩ := r.keys_leaving ks
  have hsub : ((r.leaving ks).map (·.1)).Subperm ks := hnodup.subperm fun k hk => ((hmem k).1 hk).1
  have hle := hsub.length_le
  rw [List.length_map] at hle
  refine Nat.lt_of_le_of_ne hle fun heq => hks ?_
  have hperm := hsub.perm_of_length_le (by rw [List.length_map, heq])
  exact hperm.nodup hnodup

theorem departures_eq_length (r r' : Resident) (key : Key) :
    r.departures r' key = (r.departed r' key).length := by
  rw [departures, departed, ← TreeMap.map_fst_toList_eq_keys, List.filter_map, List.length_map]
  rfl

theorem departures_stored (r : Resident) (key : Key) (payload : Payload) (victims : List Key) :
    r.departures ((r.cleared key victims).stored key payload) key =
      ((r.without key).leaving victims).length := by
  rw [departures_eq_length, (r.departed_stored key payload victims).length_eq]

end Resident

namespace Cache

variable {nominate : Nomination}

/-- What a put owes its caller: it does not fail; if it stores, budget, order and index agree and as
many evictions are counted as entries left; if it is refused, what is resident stays. -/
structure PutsSafely (c : Cache nominate) (key : Key) (payload : Payload) : Prop where
  clean : (c.put key payload).Clean
  stored : (c.put key payload).result = .ok () →
    ∃ r r', c.resident = some r ∧ (c.put key payload).cache.resident = some r' ∧
      r'.budget.used = r'.bytes ∧ r'.budget.used ≤ c.capacity.toNat ∧
      r'.order.keys.Perm r'.index.keys ∧
      (c.put key payload).cache.counters.evictions =
        c.counters.evictions + UInt64.ofNat (r.departures r' key)
  refused : ∀ e, (c.put key payload).result = .error e →
    (c.put key payload).cache.resident = c.resident

/-- The plan of the put names a victim again. -/
def RepeatsVictim (c : Cache nominate) (key : Key) (payload : Payload) : Prop :=
  c.objection key payload.size = none ∧
    ∃ r ∈ c.resident, ∃ victims ∈ r.chosen nominate key payload.size, ¬victims.Nodup

instance (c : Cache nominate) (key : Key) (payload : Payload) :
    Decidable (c.RepeatsVictim key payload) :=
  inferInstanceAs (Decidable (c.objection key payload.size = none ∧
    ∃ r ∈ c.resident, ∃ victims ∈ r.chosen nominate key payload.size, ¬victims.Nodup))

/-- If the put admits an entry, the order has a stamp for it. -/
def HasStamp (c : Cache nominate) (key : Key) (payload : Payload) : Prop :=
  c.admits (.put key payload) → ∀ r ∈ c.resident, r.order.next + 1 < wordLimit

theorem putsSafely_of_refused {c : Cache nominate} {key : Key} {payload : Payload} {e : Error}
    (hresult : (c.put key payload).result = .error (.refused e))
    (hresident : (c.put key payload).cache.resident = c.resident) : c.PutsSafely key payload where
  clean := by simp [Step.Clean, hresult]
  stored := by simp [hresult]
  refused := fun _ _ => hresident

namespace Holds

variable {c : Cache nominate} {r : Resident} {key : Key} {payload : Payload} {victims : List Key}

theorem repeatsVictim_iff (h : c.Holds r) (hv : c.objection key payload.size = none)
    (hc : r.chosen nominate key payload.size = some victims) :
    c.RepeatsVictim key payload ↔ ¬victims.Nodup := by
  constructor
  · intro hrepeat
    obtain ⟨-, r', hr', victims', hc', hn⟩ := hrepeat
    rw [h.eq_of_resident hr', hc] at hc'
    cases hc'
    exact hn
  · exact fun hn => ⟨hv, r, h.resident, victims, hc, hn⟩

/-- The counter tells how many entries left only if no victim was named again: there are too few
victims for the difference to be a multiple of the word limit. -/
theorem evictions_iff (h : c.Holds r) (hv : c.objection key payload.size = none)
    (hc : r.chosen nominate key payload.size = some victims) (n : UInt64) :
    n + UInt64.ofNat victims.length =
        n + UInt64.ofNat ((r.without key).leaving victims).length ↔ victims.Nodup := by
  have hsize := ((h.objection_eq_none_iff _ _).1 hv).2.2
  have hlength := h.sound.length_chosen_le hc
  have hcapacity := h.capacity_lt
  have hword : wordLimit = UInt64.size := rfl
  constructor
  · intro he
    by_contra hn
    have hlt := (r.without key).length_leaving_lt hn
    have hnat := congrArg UInt64.toNat ((UInt64.add_right_inj n).1 he)
    rw [UInt64.toNat_ofNat_of_lt' (by omega), UInt64.toNat_ofNat_of_lt' (by omega)] at hnat
    omega
  · intro hn
    rw [Resident.length_leaving_of_chosen hc hn]

theorem putsSafely_admission_iff (h : c.Holds r) (hv : c.objection key payload.size = none)
    (hc : r.chosen nominate key payload.size = some victims)
    (hfits : payload.size ≤ (r.cleared key victims).budget.available)
    (hput : c.put key payload = c.admission r key payload victims) :
    c.PutsSafely key payload ↔ victims.Nodup := by
  have hholds := h.admission_holds hv hfits
  have hsound := hholds.sound
  rw [← h.evictions_iff hv hc c.counters.evictions]
  constructor
  · intro hsafe
    obtain ⟨r', r'', hr', hr'', -, -, -, hevictions⟩ := hsafe.stored (by rw [hput]; rfl)
    rw [hput] at hr'' hevictions
    rw [h.eq_of_resident hr', hholds.eq_of_resident hr'', r.departures_stored] at hevictions
    exact hevictions
  · intro hevictions
    constructor
    case clean => simp [Step.Clean, hput, admission]
    case stored =>
      intro _
      refine ⟨r, _, h.resident, by rw [hput]; exact hholds.resident, hsound.used, ?_, ?_, ?_⟩
      · have hcapacity : ((r.cleared key victims).stored key payload).budget.capacity =
            c.capacity.toNat := hholds.capacity
        rw [← hcapacity]
        exact hsound.fits
      · rw [hsound.keys_eq, ← TreeMap.map_fst_toList_eq_keys]
        exact hsound.perm.map _
      · rw [r.departures_stored, hput]
        exact hevictions
    case refused => simp [hput, admission]

theorem putsSafely_iff (h : c.Holds r) (hv : c.objection key payload.size = none) :
    c.PutsSafely key payload ↔ ¬c.RepeatsVictim key payload ∧ c.HasStamp key payload := by
  have hstamp : c.HasStamp key payload ↔
      (c.admits (.put key payload) → r.order.next + 1 < wordLimit) := by
    simp [HasStamp, h.resident]
  rw [hstamp]
  rcases h.put_cases hv with
    ⟨hc, hput⟩ | ⟨victims, hc, ⟨hfits, hadmits, hnext, hput⟩ | ⟨hcause, f, hfault⟩⟩
  · have hsafe : c.PutsSafely key payload :=
      putsSafely_of_refused (by rw [hput]; rfl) (by rw [hput]; rfl)
    have hrepeat : ¬c.RepeatsVictim key payload := by
      intro hrepeat
      obtain ⟨-, r', hr', victims, hc', -⟩ := hrepeat
      rw [h.eq_of_resident hr', hc] at hc'
      cases hc'
    have hadmits := h.not_admits_of_chosen_none hv hc
    exact ⟨fun _ => ⟨hrepeat, fun ha => absurd ha hadmits⟩, fun _ => hsafe⟩
  · rw [h.putsSafely_admission_iff hv hc hfits hput, h.repeatsVictim_iff hv hc, not_not]
    exact ⟨fun hn => ⟨hn, fun _ => hnext⟩, fun hn => hn.1⟩
  · rw [h.repeatsVictim_iff hv hc, not_not]
    constructor
    · intro hsafe
      exact absurd hfault (hsafe.clean f)
    · intro hboth
      obtain ⟨hn, hstamp⟩ := hboth
      obtain ⟨hadmits, hlast⟩ := hcause hn
      exact absurd (hstamp hadmits) hlast

end Holds

theorem Sound.putsSafely_iff {c : Cache nominate} (hs : c.Sound) (key : Key) (payload : Payload) :
    c.PutsSafely key payload ↔ ¬c.RepeatsVictim key payload ∧ c.HasStamp key payload := by
  cases hv : c.objection key payload.size with
  | some e =>
    have hsafe : c.PutsSafely key payload := by
      rcases hs with ⟨-, hc⟩ | ⟨r, h⟩
      · have hput : c.put key payload = c.refuseClosed := put_of_closed hc key payload
        exact putsSafely_of_refused (by rw [hput]; rfl) (by rw [hput]; rfl)
      · have hput := put_of_objection h.not_closed hv
        exact putsSafely_of_refused (by rw [hput]; rfl) (by rw [hput]; rfl)
    have hrepeat : ¬c.RepeatsVictim key payload := by
      intro h
      rw [RepeatsVictim, hv] at h
      cases h.1
    have hstamp : c.HasStamp key payload := by
      intro hadmits
      simp [admits, hv] at hadmits
    exact ⟨fun _ => ⟨hrepeat, hstamp⟩, fun _ => hsafe⟩
  | none =>
    rcases hs with ⟨-, hc⟩ | ⟨r, h⟩
    · rw [objection, if_pos hc] at hv
      cases hv
    · exact h.putsSafely_iff hv

/-- Under any policy, after any run in which nothing failed, a put is safe exactly if its plan names
no victim again and there is a stamp for what it admits. -/
theorem run_putsSafely_iff (nominate : Nomination) (capacity : UInt64) (order : AdmissionOrder)
    (ops : List Operation) (key : Key) (payload : Payload) (hc : 0 < capacity) :
    ∃ start, create nominate capacity order = .ok start ∧
      ((∀ s ∈ start.cache.run ops, s.Clean) →
        ((start.cache.after ops).PutsSafely key payload ↔
          ¬(start.cache.after ops).RepeatsVictim key payload ∧
            (start.cache.after ops).HasStamp key payload)) := by
  refine ⟨_, create_eq hc order, fun hclean => ?_⟩
  exact ((sound_opened capacity order).after hclean).putsSafely_iff key payload

/-- Two entries leave, and as one of them is named twice, three evictions are counted. -/
theorem run_putsSafely_iff_of_twice :
    let ops : List Operation := [.put ⟨1, 0⟩ #[7], .put ⟨1, 1⟩ #[8, 8, 8, 8, 8]]
    let c := (opened .twice 6).after ops
    (0 : UInt64) < 6 ∧ (∀ s ∈ (opened .twice 6).run ops, s.Clean) ∧
      (c.put ⟨2, 0⟩ #[9, 9, 9, 9, 9, 9]).result = .ok () ∧
      (c.put ⟨2, 0⟩ #[9, 9, 9, 9, 9, 9]).cache.counters.evictions = 3 ∧
      ¬c.PutsSafely ⟨2, 0⟩ #[9, 9, 9, 9, 9, 9] := by
  intro ops c
  have hclean : ∀ s ∈ (opened .twice 6).run ops, s.Clean := by decide +kernel
  have hrepeat : c.RepeatsVictim ⟨2, 0⟩ #[9, 9, 9, 9, 9, 9] := by decide +kernel
  obtain ⟨start, hstart, hrun⟩ :=
    run_putsSafely_iff .twice 6 {} ops ⟨2, 0⟩ #[9, 9, 9, 9, 9, 9] (by decide)
  rw [create_eq (by decide)] at hstart
  cases hstart
  refine ⟨by decide, hclean, by decide +kernel, by decide +kernel, fun hsafe => ?_⟩
  exact ((hrun hclean).1 hsafe).1 hrepeat

/-- The plan takes the room of the first entry twice, and the budget does not have it. -/
theorem overcommits_of_twice :
    let ops : List Operation := [.put ⟨1, 0⟩ #[7], .put ⟨1, 1⟩ #[8]]
    let c := (opened .twice 2).after ops
    (∀ s ∈ (opened .twice 2).run ops, s.Clean) ∧
      (c.put ⟨2, 0⟩ #[9, 9]).result = .error (.fault .overcommitted) ∧
      ¬c.PutsSafely ⟨2, 0⟩ #[9, 9] := by
  intro ops c
  have hfault : (c.put ⟨2, 0⟩ #[9, 9]).result = .error (.fault .overcommitted) := by
    decide +kernel
  exact ⟨by decide +kernel, hfault, fun hsafe => hsafe.clean _ hfault⟩

end Cache

end LedgerCache
